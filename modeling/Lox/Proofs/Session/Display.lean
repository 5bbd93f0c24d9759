import Lox.Proofs.Grammar.Canonical
import Lox.Proofs.Lexeme.Segments
import Lox.Proofs.Number.Display
import Lox.Session

/-!
Numbers that are shown can be typed in again. The text of a finite number scans as one number, with
a minus before it if the sign is set, and as a statement it has that very number as its value.
-/
namespace Lox

namespace Piece

theorem numberTail_digits {digits rest : List Char} (h : ∀ c ∈ digits, isAsciiDigit c = true)
    (hrest : Unnumbered rest) : numberTail (digits ++ rest) = (digits, rest) := by
  unfold numberTail
  rw [spanDigits_of_undigited h hrest.undigited]
  split
  · rename_i heq
    have hpoint := (hrest '.' (by rw [(Prod.mk.inj heq).2]; rfl)).2.1
    exact absurd rfl hpoint
  · rename_i heq
    rw [← (Prod.mk.inj heq).1, ← (Prod.mk.inj heq).2]

theorem numberTail_fraction {whole digits rest : List Char}
    (hwhole : ∀ c ∈ whole, isAsciiDigit c = true) (hne : digits ≠ [])
    (h : ∀ c ∈ digits, isAsciiDigit c = true) (hrest : Unnumbered rest) :
    numberTail (whole ++ '.' :: (digits ++ rest)) = (whole ++ '.' :: digits, rest) := by
  cases digits with
  | nil => exact absurd rfl hne
  | cons d digits =>
    have hspan := spanDigits_of_undigited (fun c hc => h c (List.mem_cons_of_mem d hc))
      hrest.undigited
    rw [List.cons_append, numberTail_point hwhole (h d List.mem_cons_self), hspan]

theorem all_positional {text rest : List Char} (h : Positional text) (hrest : Unnumbered rest) :
    all (text ++ rest) = ⟨.lexeme .number, text⟩ :: all rest := by
  have hall {c : Char} {r : List Char} (hc : isAsciiDigit c = true)
      (htail : numberTail (r ++ rest) = (r, rest)) :
      all (c :: r ++ rest) = ⟨.lexeme .number, c :: r⟩ :: all rest := by
    rw [List.cons_append, all, cut_digit hc, htail]
  cases h with
  | whole hdigits =>
    cases text with
    | nil => exact absurd rfl hdigits.nonempty
    | cons c r =>
      refine hall (hdigits.digit c List.mem_cons_self) (numberTail_digits ?_ hrest)
      exact fun d hd => hdigits.digit d (List.mem_cons_of_mem c hd)
  | @fraction whole digits hwhole hne hdigits _ =>
    cases whole with
    | nil => exact absurd rfl hwhole.nonempty
    | cons c r =>
      have hr : ∀ d ∈ r, isAsciiDigit d = true :=
        fun d hd => hwhole.digit d (List.mem_cons_of_mem c hd)
      have htail := numberTail_fraction hr hne hdigits hrest
      rw [← List.cons_append, ← List.append_assoc] at htail
      exact hall (hwhole.digit c List.mem_cons_self) htail

end Piece

theorem Positional.newline_notMem {text : List Char} (h : Positional text) : '\n' ∉ text := by
  have hdigit {digits : List Char} (hdigits : ∀ c ∈ digits, isAsciiDigit c = true) :
      '\n' ∉ digits := fun hmem => absurd (hdigits '\n' hmem) (by decide)
  cases h with
  | whole hwhole => exact hdigit hwhole.digit
  | fraction hwhole _ hdigits _ =>
    simp [hdigit hwhole.digit, hdigit hdigits]

theorem Scan.ofPieces_lexeme {text : List Char} (h : '\n' ∉ text) (kind : Kind) (line : Nat)
    (pieces : List Piece) :
    ofPieces line (⟨.lexeme kind, text⟩ :: pieces) =
      ⟨⟨kind, text, line⟩ :: (ofPieces line pieces).lexemes, (ofPieces line pieces).errors,
        (ofPieces line pieces).endLine⟩ := by
  simp only [ofPieces, List.count_eq_zero.2 h]
  rfl

def Number.lexemes (x : Number) (line : Nat) : List Lexeme :=
  (if x.negative then [⟨.minus, ['-'], line⟩] else []) ++
    [⟨.number, displayMagnitude x.magnitude, line⟩]

theorem scan_display {x : Number} (h : x.isFinite = true) {rest : List Char}
    (hrest : Unnumbered rest) :
    scan (x.display.toList ++ rest) =
      ⟨x.lexemes 1 ++ (scan rest).lexemes, (scan rest).errors, (scan rest).endLine⟩ := by
  have htext := (Number.displayMagnitude_positional (of_decide_eq_true h)).1
  have hminus (r : List Char) : Piece.cut '-' r = (⟨.lexeme .minus, ['-']⟩, r) := rfl
  unfold scan Number.lexemes
  rw [Number.toList_display h, Number.signed]
  cases x.negative with
  | false =>
    rw [if_neg Bool.false_ne_true, if_neg Bool.false_ne_true, Piece.all_positional htext hrest,
      Scan.ofPieces_lexeme htext.newline_notMem]
    rfl
  | true =>
    rw [if_pos rfl, if_pos rfl, List.cons_append, Piece.all, hminus,
      Piece.all_positional htext hrest, Scan.ofPieces_lexeme (by decide),
      Scan.ofPieces_lexeme htext.newline_notMem]
    rfl

theorem scan_nil : scan [] = ⟨[], [], 1⟩ := by
  simp [scan, Piece.all, Scan.ofPieces]

theorem scan_semicolon : scan [';'] = ⟨[⟨.semicolon, [';'], 1⟩], [], 1⟩ := by
  have hcut : Piece.cut ';' [] = (⟨.lexeme .semicolon, [';']⟩, []) := rfl
  rw [scan, Piece.all, hcut, Piece.all, Scan.ofPieces_lexeme (by decide)]
  rfl

theorem program_of_denotes {text : List Char} {statements : List Node}
    (hscan : (scan text).errors = []) (h : Grammar.Denotes (scan text).tokens statements)
    (hfew : 10 * (scan text).tokens.length + 12 ≤ Grammar.maxDepth) :
    program text = .ok statements := by
  have hdeep := @Grammar.programFrom_fits Grammar.maxDepth (scan text).tokens
    ⟨(scan text).tokens, (scan text).endToken⟩ rfl hfew
  have hparse : (scan text).parse = ⟨statements, [], []⟩ := Grammar.parse_covers rfl h hdeep
  rw [program_eq_ok_iff, hparse]
  exact ⟨hscan, rfl, rfl⟩

namespace Number

/-- The tree of a number that is shown, which is negated if its sign is set. -/
def node (x : Number) : Node :=
  let digits := Node.literal (Lexeme.token ⟨.number, displayMagnitude x.magnitude, 1⟩)
  if x.negative then .unary (Lexeme.token ⟨.minus, ['-'], 1⟩) digits else digits

theorem phrase_node (x : Number) :
    Grammar.Phrase true .expression ((x.lexemes 1).map Lexeme.token) x.node := by
  have hnumber : Kind.number ∈ Grammar.literalKinds := by decide
  have hdigits : Grammar.Phrase true .unary
      [Lexeme.token ⟨.number, displayMagnitude x.magnitude, 1⟩]
      (.literal (Lexeme.token ⟨.number, displayMagnitude x.magnitude, 1⟩)) :=
    .called (.callee (.literal hnumber))
  have hle : 0 ≤ 7 := by decide
  apply Grammar.Phrase.ofGrade_of_le hle
  unfold lexemes node
  cases x.negative with
  | false => exact hdigits
  | true => exact .negated (by decide) hdigits

theorem length_lexemes_le (x : Number) (line : Nat) : (x.lexemes line).length ≤ 2 := by
  unfold lexemes
  cases x.negative <;> simp

theorem program_display {x : Number} (h : x.isFinite = true) :
    program (x.display.toList ++ [';']) = .ok [.expression x.node] := by
  have hscan : scan (x.display.toList ++ [';']) =
      ⟨x.lexemes 1 ++ [⟨.semicolon, [';'], 1⟩], [], 1⟩ := by
    rw [scan_display h (by intro c hc; cases hc; decide), scan_semicolon]
  have hdenotes : Grammar.Denotes
      ((x.lexemes 1).map Lexeme.token ++ [Lexeme.token ⟨.semicolon, [';'], 1⟩])
      [.expression x.node] := by
    have hsemi : (Lexeme.token ⟨.semicolon, [';'], 1⟩).kind = .semicolon := rfl
    have hmore := Grammar.Phrase.more (.statement (.plain (.simple x.phrase_node hsemi))) .none
    rwa [List.append_nil] at hmore
  apply program_of_denotes
  · rw [hscan]
  · rw [hscan, Scan.tokens, List.map_append]
    exact hdenotes
  · have hlength := x.length_lexemes_le 1
    rw [hscan, Scan.tokens, List.length_map, List.length_append]
    unfold Grammar.maxDepth
    simp only [List.length_singleton]
    omega

theorem evaluate_node {x : Number} (h : x.isFinite = true) (settings : Settings)
    (fuel calls : Nat) (s : State) :
    evaluate settings (fuel + 2) calls x.node s = .done (.number x) s := by
  have hle : x.magnitude ≤ infinite := Nat.le_of_lt (of_decide_eq_true h)
  have hvalue := (displayMagnitude_positional (of_decide_eq_true h)).2
  have hself := ofMagnitude_self x
  have hdigits (fuel : Nat) : evaluate settings (fuel + 1) calls
      (.literal (Lexeme.token ⟨.number, displayMagnitude x.magnitude, 1⟩)) s =
        .done (.number (ofMagnitude false x.magnitude)) s := by
    rw [← hvalue, evaluate]
    rfl
  unfold node
  cases hsign : x.negative with
  | false =>
    rw [hsign] at hself
    rw [if_neg Bool.false_ne_true, hdigits, hself]
  | true =>
    rw [hsign] at hself
    rw [if_pos rfl, evaluate, Exec.bind_of_done (hdigits fuel)]
    change Outcome.done (Value.number (ofMagnitude false x.magnitude).negate) s = _
    rw [negate_ofMagnitude hle, hself]

theorem runSource_display {x : Number} (h : x.isFinite = true) (s : Session) {fuel : Nat}
    (hfuel : 4 ≤ fuel) :
    (s.runSource fuel (x.display.toList ++ [';'])).ending = .value (.number x) := by
  obtain ⟨fuel, rfl⟩ := Nat.exists_eq_add_of_le' hfuel
  have hrun : executeAll s.settings (fuel + 4) s.settings.maxCalls .nil [.expression x.node]
      { s.state with log := [] } = .done (.number x) { s.state with log := [] } := by
    rw [executeAll, execute, Exec.bind_of_done (evaluate_node h ..), executeAll]
    rfl
  unfold Session.runSource Session.run
  rw [program_display h]
  dsimp only
  rw [hrun]

end Number

/-- Every finite number is shown as plain digits; they scan as the number, after a minus if its
sign is set, and running them gives the number back. -/
theorem display_reads_back {x : Number} (h : x.isFinite = true) :
    ∃ digits, x.display.toList = x.signed digits ∧ Positional digits ∧
      (scan x.display.toList).errors = [] ∧
      (scan x.display.toList).endToken = Token.endOfFile 1 ∧
      (x.negative = false → (scan x.display.toList).tokens =
        [{ kind := .number, lexeme := .str (Text.ofChars digits), line := .int 1,
           literal := .num x }]) ∧
      (x.negative = true → (scan x.display.toList).tokens =
        [{ kind := .minus, lexeme := .str "-", line := .int 1 },
         { kind := .number, lexeme := .str (Text.ofChars digits), line := .int 1,
           literal := .num (Number.ofMagnitude false x.magnitude) }]) ∧
      ∀ (s : Session) (fuel : Nat), 4 ≤ fuel →
        (s.runSource fuel (x.display.toList ++ [';'])).ending = .value (.number x) := by
  obtain ⟨hdigits, hvalue⟩ := Number.displayMagnitude_positional (of_decide_eq_true h)
  have hself := Number.ofMagnitude_self x
  have hscan : scan x.display.toList = ⟨x.lexemes 1, [], 1⟩ := by
    have hend : Unnumbered [] := by simp [Unnumbered]
    have hnil := scan_display h hend
    rwa [List.append_nil, scan_nil, List.append_nil] at hnil
  refine ⟨_, Number.toList_display h, hdigits, ?_, ?_, ?_, ?_, fun s fuel => ?_⟩
  · rw [hscan]
  · rw [hscan]
    rfl
  · intro hsign
    rw [hsign] at hself
    rw [hscan, Scan.tokens, Number.lexemes, hsign]
    simp only [Bool.false_eq_true, if_false, List.nil_append, List.map_cons, List.map_nil,
      Lexeme.token, Lexeme.literal, hvalue, hself]
    rfl
  · intro hsign
    rw [hscan, Scan.tokens, Number.lexemes, hsign]
    simp only [if_true, List.cons_append, List.nil_append, List.map_cons, List.map_nil,
      Lexeme.token, Lexeme.literal, hvalue]
    rfl
  · exact Number.runSource_display h s

/-- The negative number nearest to zero, which has more than three hundred zeros after the point. -/
theorem display_reads_back_least :
    let x : Number := ⟨0x8000000000000001⟩
    x.isFinite = true ∧ x.negative = true ∧
      (∃ digits, x.display.toList = '-' :: digits ∧ Positional digits) ∧
      ∀ (s : Session) (fuel : Nat), 4 ≤ fuel →
        (s.runSource fuel (x.display.toList ++ [';'])).ending = .value (.number x) := by
  intro x
  have hfinite : x.isFinite = true := by decide
  obtain ⟨digits, htext, hdigits, -, -, -, -, hrun⟩ := display_reads_back hfinite
  exact ⟨hfinite, by decide, ⟨digits, htext, hdigits⟩, hrun⟩

end Lox
