import Lox.Lexeme.Scan
import Lox.Proofs.Lexeme.Pattern

/-!
What scanning finds, said without saying how. A text falls into segments: blanks, line ends,
comments, lexemes, characters that start nothing, and perhaps an open string at the end. A lexeme
matches a pattern, and no longer prefix of the text matches any. Each text has one segmentation,
and its tokens and diagnostics are those of the segments, on the line where the segment ends.
-/
namespace Lox

/-- The characters that a segment of some length can start with. -/
def Starts (c : Char) : Prop :=
  c ∈ [' ', '\r', '\t', '\n'] ∨ ∃ kind r literal, Pattern kind (c :: r) literal

/-- A piece is a segment before a rest of the text. -/
inductive Piece.Stands : Piece → List Char → Prop where
  | blank {c : Char} {rest : List Char} : c ∈ [' ', '\r', '\t'] → Stands ⟨.blank, [c]⟩ rest
  | newline {rest : List Char} : Stands ⟨.newline, ['\n']⟩ rest
  | comment {body rest : List Char} : '\n' ∉ body → (rest = [] ∨ ∃ r, rest = '\n' :: r) →
      Stands ⟨.comment, '/' :: '/' :: body⟩ rest
  | lexeme {kind : Kind} {text rest : List Char} {literal : Datum} : Pattern kind text literal →
      Longest text rest → ¬['/', '/'] <+: text ++ rest → Stands ⟨.lexeme kind, text⟩ rest
  | stray {c : Char} {rest : List Char} : ¬Starts c → Stands ⟨.stray, [c]⟩ rest
  | openString {body : List Char} : '"' ∉ body → Stands ⟨.openString, '"' :: body⟩ []

/-- A text cut from left to right into segments. -/
inductive Segmented : List Char → List Piece → Prop where
  | nil : Segmented [] []
  | cons {p : Piece} {rest : List Char} {pieces : List Piece} : p.Stands rest →
      Segmented rest pieces → Segmented (p.text ++ rest) (p :: pieces)

namespace Piece

theorem cut_digit {c : Char} (h : isAsciiDigit c = true) (r : List Char) :
    cut c r = (⟨.lexeme .number, c :: (numberTail r).1⟩, (numberTail r).2) := by
  have hne (d : Char) (hd : isAsciiDigit d = false) : c ≠ d := isAsciiDigit_ne h hd
  simp [cut, h, hne ' ' (by decide), hne '\r' (by decide), hne '\t' (by decide),
    hne '\n' (by decide), hne '/' (by decide), hne '"' (by decide)]

theorem wordStart_ne {c d : Char} (h : isWordStart c = true) (hd : isWordStart d = false) :
    c ≠ d := by
  rintro rfl
  rw [h] at hd
  cases hd

theorem cut_word {c : Char} (h : isWordStart c = true) (r : List Char) :
    cut c r = (⟨.lexeme (Kind.ofWord (String.ofList (c :: r.takeWhile isWordPart))),
      c :: r.takeWhile isWordPart⟩, r.dropWhile isWordPart) := by
  have hne (d : Char) (hd : isWordStart d = false) : c ≠ d := wordStart_ne h hd
  simp [cut, h, isAsciiDigit_of_isWordStart h, hne ' ' (by decide), hne '\r' (by decide),
    hne '\t' (by decide), hne '\n' (by decide), hne '/' (by decide), hne '"' (by decide)]

theorem cut_quote_closed {inside rest : List Char} (h : '"' ∉ inside) :
    cut '"' (inside ++ '"' :: rest) = (⟨.lexeme .string, '"' :: (inside ++ ['"'])⟩, rest) := by
  have hinside : ∀ c ∈ inside, (!decide (c = '"')) = true := by
    intro c hc
    simp only [Bool.not_eq_true', decide_eq_false_iff_not]
    rintro rfl
    exact h hc
  simp [cut, List.takeWhile_append_of_pos hinside, List.dropWhile_append_of_pos hinside]

theorem cut_quote_open {body : List Char} (h : '"' ∉ body) :
    cut '"' body = (⟨.openString, '"' :: body⟩, []) := by
  have hbody : body.dropWhile (fun c => !decide (c = '"')) = [] := by
    rw [List.dropWhile_eq_nil_iff]
    intro c hc
    simp only [Bool.not_eq_true', decide_eq_false_iff_not]
    rintro rfl
    exact h hc
  simp [cut, hbody]

end Piece

theorem not_slashes {c : Char} (h : c ≠ '/') (r rest : List Char) :
    ¬['/', '/'] <+: (c :: r) ++ rest := by
  intro hslashes
  exact h (List.cons_prefix_cons.1 hslashes).1.symm

namespace Piece

theorem stands_string {inside rest : List Char} (h : '"' ∉ inside) :
    Stands ⟨.lexeme .string, '"' :: (inside ++ ['"'])⟩ rest :=
  .lexeme (.string h) (longest_string h) (not_slashes (by decide) _ _)

theorem stands_number {c : Char} (h : isAsciiDigit c = true) (r : List Char) :
    Stands ⟨.lexeme .number, c :: (numberTail r).1⟩ (numberTail r).2 := by
  have hlongest : Longest (c :: (numberTail r).1) (numberTail r).2 := by
    apply longest_cons
    intro kind other literal hpattern hother
    rw [numberTail_append] at hother
    exact (hpattern.number_of_digit h).length_le hother
  have hslashes := not_slashes (isAsciiDigit_ne h (by decide : isAsciiDigit '/' = false))
    (numberTail r).1 (numberTail r).2
  obtain htail | ⟨whole, digits, htail, hne, hwhole, hdigits⟩ := numberRest_numberTail r
  · exact .lexeme (.whole (by simp) (by simpa [h] using htail)) hlongest hslashes
  · rw [htail] at hlongest hslashes ⊢
    have hpattern : Pattern .number (c :: whole ++ '.' :: digits) _ :=
      .fraction (by simp) (by simpa [h] using hwhole) hne hdigits
    exact .lexeme hpattern hlongest hslashes

theorem stands_word {c : Char} (h : isWordStart c = true) (r : List Char) :
    Stands ⟨.lexeme (Kind.ofWord (String.ofList (c :: r.takeWhile isWordPart))),
      c :: r.takeWhile isWordPart⟩ (r.dropWhile isWordPart) := by
  have hlongest : Longest (c :: r.takeWhile isWordPart) (r.dropWhile isWordPart) := by
    apply longest_cons
    intro kind other literal hpattern hother
    rw [List.takeWhile_append_dropWhile] at hother
    exact length_le_takeWhile (hpattern.word_of_wordStart h) hother
  have hslashes := not_slashes (wordStart_ne h (by decide : isWordStart '/' = false))
    (r.takeWhile isWordPart) (r.dropWhile isWordPart)
  obtain hword | ⟨hkind, hnone⟩ := Kind.ofWord_mem_or (String.ofList (c :: r.takeWhile isWordPart))
  · have hpattern := Pattern.keyword hword
    rw [String.toList_ofList] at hpattern
    exact .lexeme hpattern hlongest hslashes
  · rw [hkind]
    exact .lexeme (.identifier h (fun x hx => List.mem_takeWhile_imp hx) hnone) hlongest hslashes

theorem stands_comment (r : List Char) :
    Stands ⟨.comment, '/' :: '/' :: r.takeWhile (· ≠ '\n')⟩ (r.dropWhile (· ≠ '\n')) := by
  apply Stands.comment
  · intro hmem
    simpa using List.mem_takeWhile_imp hmem
  · cases h : r.dropWhile (· ≠ '\n') with
    | nil => exact .inl rfl
    | cons d rest =>
      have hhead := List.head?_dropWhile_not (fun c : Char => decide (c ≠ '\n')) r
      rw [h] at hhead
      have hd : d = '\n' := by simpa using hhead
      exact .inr ⟨rest, by rw [hd]⟩

theorem stands_slash (r : List Char) : (cut '/' r).1.Stands (cut '/' r).2 := by
  simp only [cut, Char.reduceEq, or_self, if_false, if_true]
  split
  · exact stands_comment _
  · rename_i hrest
    have hpattern : Pattern .slash ['/'] .null := .operator (by decide)
    apply Stands.lexeme hpattern
    · exact longest_alone (by decide) (by decide) (by decide) (.inl (by decide))
    · rintro ⟨rest, hslashes⟩
      cases hslashes
      exact hrest _ rfl

theorem stands_other {c : Char} (hblank : c ∉ [' ', '\r', '\t', '\n']) (hslash : c ≠ '/')
    (hquote : c ≠ '"') (hdigit : isAsciiDigit c = false) (hstart : isWordStart c = false)
    (r : List Char) : (cut c r).1.Stands (cut c r).2 := by
  obtain ⟨hspace, hreturn, htab, hnewline⟩ : c ≠ ' ' ∧ c ≠ '\r' ∧ c ≠ '\t' ∧ c ≠ '\n' := by
    simpa using hblank
  simp only [cut, hspace, hreturn, htab, hnewline, hslash, hquote, hdigit, hstart, or_self,
    if_false, Bool.false_eq_true]
  split
  · rename_i kind hsymbol
    apply Stands.lexeme (.operator (symbol?_mem hsymbol).1) ?_ (not_slashes hslash _ _)
    exact longest_alone hdigit hstart hquote (.inr (.inl (by simp [hsymbol])))
  · rename_i long short hsymbol hcomparison
    obtain ⟨hlong, hshort, -⟩ := comparison?_mem hcomparison
    split
    · apply Stands.lexeme (.operator hlong) ?_ (not_slashes hslash _ _)
      apply longest_cons
      intro kind other literal hpattern _
      obtain ⟨-, -, -, hother | ⟨hother, -⟩, -⟩ :=
        operators_cons (hpattern.operator_of_other hdigit hstart hquote)
      · simp [hother]
      · simp [hother]
    · rename_i hrest
      apply Stands.lexeme (.operator hshort) ?_ (not_slashes hslash _ _)
      apply longest_alone hdigit hstart hquote (.inr (.inr _))
      rintro ⟨rest, hequals⟩
      exact hrest rest hequals.symm
  · rename_i hsymbol hcomparison
    apply Stands.stray
    rintro (h | ⟨kind, other, literal, hpattern⟩)
    · exact hblank h
    · obtain ⟨-, -, -, -, h | h | h⟩ :=
        operators_cons (hpattern.operator_of_other hdigit hstart hquote)
      · simp [hsymbol] at h
      · simp [hcomparison] at h
      · exact hslash h

theorem cut_blank {c : Char} (h : c ∈ [' ', '\r', '\t']) (r : List Char) :
    cut c r = (⟨.blank, [c]⟩, r) := by
  simp only [List.mem_cons, List.not_mem_nil, or_false] at h
  unfold cut
  rw [if_pos h]

theorem cut_newline (r : List Char) : cut '\n' r = (⟨.newline, ['\n']⟩, r) := rfl

theorem stands_cut (c : Char) (r : List Char) : (cut c r).1.Stands (cut c r).2 := by
  by_cases hblank : c ∈ [' ', '\r', '\t']
  · rw [cut_blank hblank]
    exact .blank hblank
  by_cases hnewline : c = '\n'
  · subst hnewline
    exact .newline
  by_cases hdigit : isAsciiDigit c = true
  · rw [cut_digit hdigit]
    exact stands_number hdigit r
  by_cases hstart : isWordStart c = true
  · rw [cut_word hstart]
    exact stands_word hstart r
  by_cases hquote : c = '"'
  · subst hquote
    by_cases hmem : '"' ∈ r
    · obtain ⟨inside, rest, rfl, hinside⟩ := List.eq_append_cons_of_mem hmem
      rw [cut_quote_closed hinside]
      exact stands_string hinside
    · rw [cut_quote_open hmem]
      exact .openString hmem
  by_cases hslash : c = '/'
  · subst hslash
    exact stands_slash r
  · apply stands_other _ hslash hquote (by simpa using hdigit) (by simpa using hstart)
    intro h
    simp only [List.mem_cons, List.not_mem_nil, or_false] at h hblank
    tauto

end Piece

namespace Pattern

variable {kind kind' : Kind} {c : Char} {text r : List Char} {literal literal' : Datum}

theorem cut_self (h : Pattern kind (c :: r) literal) :
    Piece.cut c r = (⟨.lexeme kind, c :: r⟩, []) := by
  generalize htext : c :: r = text at h
  cases h with
  | operator h =>
    subst htext
    simp only [operators, List.mem_cons, List.not_mem_nil, Prod.mk.injEq, List.cons.injEq,
      or_false] at h
    rcases h with h | h | h | h | h | h | h | h | h | h | h | h | h | h | h | h | h | h | h
    all_goals
      obtain ⟨⟨rfl, rfl⟩, rfl⟩ := h
      rfl
  | whole _ hdigits =>
    subst htext
    rw [Piece.cut_digit (hdigits c (by simp)),
      Piece.numberTail_all fun x hx => hdigits x (by simp [hx])]
  | @fraction whole digits hne hwhole hne' hdigits =>
    obtain ⟨d, whole, rfl⟩ := List.exists_cons_of_ne_nil hne
    obtain ⟨e, digits, rfl⟩ := List.exists_cons_of_ne_nil hne'
    rw [List.cons_append, List.cons.injEq] at htext
    obtain ⟨rfl, rfl⟩ := htext
    have hwhole' : ∀ x ∈ whole, isAsciiDigit x = true := fun x hx => hwhole x (by simp [hx])
    rw [Piece.cut_digit (hwhole c (by simp)),
      Piece.numberTail_point hwhole' (hdigits e (by simp)),
      spanDigits_all fun x hx => hdigits x (by simp [hx])]
    rfl
  | string hinside =>
    cases htext
    rw [Piece.cut_quote_closed hinside]
  | @keyword word kind h =>
    obtain ⟨d, s, hword, hstart, hpart⟩ := reserved_isWord _ h
    obtain ⟨rfl, rfl⟩ : c = d ∧ r = s := by simpa [hword] using htext
    rw [Piece.cut_word hstart, List.takeWhile_eq_self_iff.2 hpart,
      List.dropWhile_eq_nil_iff.2 hpart, htext, String.ofList_toList, Kind.ofWord_of_mem h]
  | identifier hstart hpart hnone =>
    cases htext
    rw [Piece.cut_word hstart, List.takeWhile_eq_self_iff.2 hpart,
      List.dropWhile_eq_nil_iff.2 hpart, Kind.ofWord_of_forall_notMem hnone]

theorem kind_eq (h : Pattern kind text literal) (h' : Pattern kind' text literal') :
    kind = kind' := by
  obtain ⟨c, r, rfl⟩ := List.exists_cons_of_ne_nil h.ne_nil
  have hcut := h.cut_self.symm.trans h'.cut_self
  injection hcut with hpiece
  injection hpiece with hform
  injection hform

end Pattern

theorem Starts.quote : Starts '"' := by
  have hempty : Pattern .string ('"' :: ([] ++ ['"'])) _ := .string List.not_mem_nil
  exact .inr ⟨.string, ['"'], _, hempty⟩

theorem Starts.slash : Starts '/' := .inr ⟨.slash, [], .null, .operator (by decide)⟩

namespace Piece.Stands

theorem text_ne_nil {p : Piece} {rest : List Char} (h : p.Stands rest) : p.text ≠ [] := by
  cases h with
  | lexeme hpattern => exact hpattern.ne_nil
  | blank => simp
  | newline => simp
  | comment => simp
  | stray => simp
  | openString => simp

theorem starts_or {p : Piece} {c : Char} {rest r : List Char} (h : p.Stands rest)
    (htext : p.text ++ rest = c :: r) : Starts c ∨ (p = ⟨.stray, [c]⟩ ∧ rest = r) := by
  cases h with
  | blank h =>
    cases htext
    exact .inl (.inl (List.mem_append_left ['\n'] h))
  | newline =>
    cases htext
    exact .inl (.inl (by decide))
  | comment =>
    obtain ⟨rfl, -⟩ := List.cons.inj htext
    exact .inl .slash
  | lexeme hpattern =>
    obtain ⟨d, t, rfl⟩ := List.exists_cons_of_ne_nil hpattern.ne_nil
    obtain ⟨rfl, -⟩ := List.cons.inj htext
    exact .inl (.inr ⟨_, _, _, hpattern⟩)
  | stray h =>
    cases htext
    exact .inr ⟨rfl, rfl⟩
  | openString =>
    obtain ⟨rfl, -⟩ := List.cons.inj htext
    exact .inl .quote

theorem cut_comment {body rest : List Char} (hbody : '\n' ∉ body)
    (hrest : rest = [] ∨ ∃ r, rest = '\n' :: r) :
    cut '/' ('/' :: (body ++ rest)) = (⟨.comment, '/' :: '/' :: body⟩, rest) := by
  have hpos : ∀ c ∈ body, (!decide (c = '\n')) = true := by
    intro c hc
    simp only [Bool.not_eq_true', decide_eq_false_iff_not]
    rintro rfl
    exact hbody hc
  have htake : (body ++ rest).takeWhile _ = _ := List.takeWhile_append_of_pos hpos
  have hdrop : (body ++ rest).dropWhile _ = _ := List.dropWhile_append_of_pos hpos
  obtain rfl | ⟨r, rfl⟩ := hrest
  · simp only [List.append_nil] at htake hdrop
    simp [cut, htake, hdrop]
  · simp [cut, htake, hdrop]

theorem cut_lexeme {kind : Kind} {c : Char} {text rest r : List Char} {literal : Datum}
    (hpattern : Pattern kind text literal) (hlongest : Longest text rest)
    (hslashes : ¬['/', '/'] <+: text ++ rest) (htext : text ++ rest = c :: r) :
    cut c r = (⟨.lexeme kind, text⟩, rest) := by
  obtain ⟨d, t, rfl⟩ := List.exists_cons_of_ne_nil hpattern.ne_nil
  obtain ⟨rfl, rfl⟩ := List.cons.inj htext
  have hstands := stands_cut d (t ++ rest)
  have happend := cut_append d (t ++ rest)
  generalize cut d (t ++ rest) = piece at hstands happend
  obtain ⟨q, rest'⟩ := piece
  cases hstands with
  | blank h =>
    obtain ⟨rfl, -⟩ := List.cons.inj happend
    exact absurd (List.mem_append_left ['\n'] h) hpattern.not_blank
  | newline =>
    obtain ⟨rfl, -⟩ := List.cons.inj happend
    exact absurd (by decide) hpattern.not_blank
  | comment => exact absurd ⟨_, happend⟩ hslashes
  | lexeme hpattern' hlongest' =>
    obtain ⟨rfl, rfl⟩ := hlongest.eq hlongest' hpattern hpattern' happend.symm
    rw [hpattern.kind_eq hpattern']
  | stray h =>
    obtain ⟨rfl, -⟩ := List.cons.inj happend
    exact absurd (.inr ⟨_, _, _, hpattern⟩) h
  | openString h =>
    obtain ⟨rfl, hbody⟩ := List.cons.inj happend
    obtain ⟨inside, rfl, -⟩ := hpattern.string_of_quote
    apply absurd _ h
    rw [List.append_eq, List.append_nil] at hbody
    simp [hbody]

theorem cut_eq {p : Piece} {c : Char} {rest r : List Char} (h : p.Stands rest)
    (htext : p.text ++ rest = c :: r) : cut c r = (p, rest) := by
  cases h with
  | blank h =>
    cases htext
    exact cut_blank h _
  | newline =>
    cases htext
    exact cut_newline _
  | comment hbody hrest =>
    cases htext
    exact cut_comment hbody hrest
  | lexeme hpattern hlongest hslashes => exact cut_lexeme hpattern hlongest hslashes htext
  | stray h =>
    obtain ⟨rfl, rfl⟩ := List.cons.inj htext
    obtain hstarts | ⟨hpiece, hrest⟩ := (stands_cut _ _).starts_or (cut_append _ _)
    · exact absurd hstarts h
    · exact Prod.ext hpiece hrest
  | openString h =>
    obtain ⟨rfl, rfl⟩ := List.cons.inj htext
    rw [List.append_eq, List.append_nil]
    exact cut_quote_open h

end Piece.Stands

/-- The pieces of a text are its one segmentation. -/
theorem segmented_iff {text : List Char} {pieces : List Piece} :
    Segmented text pieces ↔ pieces = Piece.all text := by
  constructor
  · intro h
    induction h with
    | nil => rw [Piece.all]
    | @cons p rest pieces hp hpieces ih =>
      obtain ⟨c, r, htext⟩ := List.exists_cons_of_ne_nil hp.text_ne_nil
      have hcut := hp.cut_eq (by rw [htext, List.cons_append])
      rw [htext, List.cons_append, Piece.all, hcut, ih]
  · rintro rfl
    fun_induction Piece.all text with
    | case1 => exact .nil
    | case2 c r ih =>
      have h := Segmented.cons (Piece.stands_cut c r) ih
      rwa [Piece.cut_append] at h

namespace Piece

def isLexeme (p : Piece) : Bool :=
  match p.form with
  | .lexeme _ => true
  | _ => false

def isError (p : Piece) : Bool :=
  match p.form with
  | .stray | .openString => true
  | _ => false

def withPast (past : List Char) : List Piece → List (Piece × List Char)
  | [] => []
  | p :: rest => (p, past ++ p.text) :: withPast (past ++ p.text) rest

end Piece

def lastLine (text : List Char) : Nat := 1 + text.count '\n'

/-- A token of a segment that ends after a text. -/
structure Token.Reads (t : Token) (segment : Piece × List Char) : Prop where
  form : segment.1.form = .lexeme t.kind
  lexeme : t.lexeme = .str (Text.ofChars segment.1.text)
  literal : Pattern t.kind segment.1.text t.literal
  line : t.line = .int (lastLine segment.2)
  /-- The kinds of the reserved words are for these words only, and no such word has another. -/
  reserved : ∀ word kind, (word, kind) ∈ Kind.reserved →
    (t.kind = kind ↔ segment.1.text = word.toList)

/-- A diagnostic for a segment that ends after a text. -/
inductive Diagnostic.Reports : Diagnostic → Piece × List Char → Prop where
  | stray {c : Char} {past : List Char} :
      Reports ⟨.int (lastLine past), "", "Unexpected character: " ++ String.ofList [c] ++ "."⟩
        (⟨.stray, [c]⟩, past)
  | openString {text past : List Char} :
      Reports ⟨.int (lastLine past), "", "Unterminated string."⟩ (⟨.openString, text⟩, past)

theorem Pattern.kind_eq_reserved_iff {kind kind' : Kind} {text : List Char} {literal : Datum}
    {word : String} (h : Pattern kind text literal) (hword : (word, kind') ∈ Kind.reserved) :
    kind = kind' ↔ text = word.toList := by
  constructor
  · rintro rfl
    have hkind : ∀ w ∈ Kind.reserved, w.2 ≠ .number ∧ w.2 ≠ .string ∧ w.2 ≠ .identifier ∧
        (∀ o ∈ operators, o.2 ≠ w.2) ∧ ∀ v ∈ Kind.reserved, v.2 = w.2 → v.1 = w.1 := by decide
    obtain ⟨hnumber, hstring, hidentifier, hoperator, hreserved⟩ := hkind _ hword
    cases h with
    | operator h => exact absurd rfl (hoperator _ h)
    | whole => exact absurd rfl hnumber
    | fraction => exact absurd rfl hnumber
    | string => exact absurd rfl hstring
    | keyword h => exact congrArg String.toList (hreserved _ h rfl)
    | identifier => exact absurd rfl hidentifier
  · rintro rfl
    exact h.kind_eq (.keyword hword)

theorem lastLine_append (past text : List Char) :
    lastLine (past ++ text) = lastLine past + text.count '\n' := by
  unfold lastLine
  rw [List.count_append]
  omega

namespace Scan

theorem endLine_ofPieces (past : List Char) (pieces : List Piece) :
    (ofPieces (lastLine past) pieces).endLine = lastLine (past ++ pieces.flatMap Piece.text) := by
  induction pieces generalizing past with
  | nil => simp [ofPieces]
  | cons p pieces ih =>
    have hadd (line : Nat) (rest : Scan) : (add p line rest).endLine = rest.endLine := by
      unfold add
      split
      all_goals rfl
    rw [ofPieces, hadd, ← lastLine_append, ih, List.flatMap_cons, List.append_assoc]

theorem tokens_ofPieces {text : List Char} {pieces : List Piece} (h : Segmented text pieces)
    (past : List Char) :
    List.Forall₂ Token.Reads (ofPieces (lastLine past) pieces).tokens
      ((Piece.withPast past pieces).filter (·.1.isLexeme)) := by
  induction h generalizing past with
  | nil => exact .nil
  | @cons p rest pieces hp hpieces ih =>
    have ih := ih (past ++ p.text)
    rw [ofPieces, ← lastLine_append, Piece.withPast]
    cases hp with
    | lexeme hpattern =>
      refine .cons ⟨rfl, rfl, ?_, rfl, fun word kind => hpattern.kind_eq_reserved_iff⟩ ih
      rwa [hpattern.literal_eq] at hpattern
    | blank => exact ih
    | newline => exact ih
    | comment => exact ih
    | stray => exact ih
    | openString => exact ih

theorem errors_ofPieces_eq_nil (line : Nat) (pieces : List Piece) :
    (ofPieces line pieces).errors = [] ↔ ∀ p ∈ pieces, p.isError = false := by
  induction pieces generalizing line with
  | nil => simp [ofPieces]
  | cons p pieces ih =>
    obtain ⟨form, text⟩ := p
    have ih := ih (line + text.count '\n')
    cases form
    all_goals simp [ofPieces, add, Piece.isError, ih]

theorem diagnostics_ofPieces {text : List Char} {pieces : List Piece} (h : Segmented text pieces)
    (past : List Char) :
    List.Forall₂ Diagnostic.Reports
      ((ofPieces (lastLine past) pieces).errors.map LexicalError.diagnostic)
      ((Piece.withPast past pieces).filter (·.1.isError)) := by
  induction h generalizing past with
  | nil => exact .nil
  | @cons p rest pieces hp hpieces ih =>
    have ih := ih (past ++ p.text)
    rw [ofPieces, ← lastLine_append, Piece.withPast]
    cases hp with
    | lexeme => exact ih
    | blank => exact ih
    | newline => exact ih
    | comment => exact ih
    | stray => exact .cons .stray ih
    | openString => exact .cons .openString ih

end Scan

/-- Scanning finds the one segmentation of the text: a token for each lexeme and one at the end,
and a diagnostic for each segment that no program has. -/
theorem scan_segments (source : List Char) :
    ∃ pieces, Segmented source pieces ∧ (∀ others, Segmented source others → others = pieces) ∧
      pieces.flatMap Piece.text = source ∧
      List.Forall₂ Token.Reads (scan source).tokens
        ((Piece.withPast [] pieces).filter (·.1.isLexeme)) ∧
      (scan source).endToken = ⟨.eof, .str "", .int (lastLine source), .null, []⟩ ∧
      List.Forall₂ Diagnostic.Reports ((scan source).errors.map LexicalError.diagnostic)
        ((Piece.withPast [] pieces).filter (·.1.isError)) ∧
      ((scan source).errors ≠ [] ↔ ∃ p ∈ pieces, p.isError = true) := by
  have hpieces : Segmented source (Piece.all source) := segmented_iff.2 rfl
  have htokens := Scan.tokens_ofPieces hpieces []
  have herrors := Scan.diagnostics_ofPieces hpieces []
  refine ⟨Piece.all source, hpieces, fun others h => segmented_iff.1 h,
    Piece.flatMap_text_all source, htokens, ?_, herrors, ?_⟩
  · have hline := Scan.endLine_ofPieces [] (Piece.all source)
    rw [List.nil_append, Piece.flatMap_text_all] at hline
    rw [← hline]
    rfl
  · rw [Ne, scan, Scan.errors_ofPieces_eq_nil]
    simp

end Lox
