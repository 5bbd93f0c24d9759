import Mathlib.Data.List.TakeWhile
import Lox.Lexeme.Scan
import Lox.Lexeme.Piece
import Lox.Proofs.Number.Digits

/-!
The patterns that lexemes match, and what the first character of a text says about those that
match a part of it.
-/
namespace Lox

def operators : List (List Char × Kind) :=
  [(['('], .leftParen), ([')'], .rightParen), (['\x7b'], .leftBrace), (['\x7d'], .rightBrace),
    ([','], .comma), (['.'], .dot), (['-'], .minus), (['+'], .plus), ([';'], .semicolon),
    (['/'], .slash), (['*'], .star), (['!'], .bang), (['!', '='], .bangEqual), (['='], .equal),
    (['=', '='], .equalEqual), (['>'], .greater), (['>', '='], .greaterEqual), (['<'], .less),
    (['<', '='], .lessEqual)]

/-- The texts of the lexemes of a kind, and the literal that goes with each. -/
inductive Pattern : Kind → List Char → Datum → Prop where
  | operator {kind : Kind} {text : List Char} : (text, kind) ∈ operators → Pattern kind text .null
  | whole {digits : List Char} : digits ≠ [] → (∀ c ∈ digits, isAsciiDigit c = true) →
      Pattern .number digits (.num (Number.ofDecimal false (Decimal.ofDigits digits [] 0)))
  | fraction {whole digits : List Char} : whole ≠ [] → (∀ c ∈ whole, isAsciiDigit c = true) →
      digits ≠ [] → (∀ c ∈ digits, isAsciiDigit c = true) →
      Pattern .number (whole ++ '.' :: digits)
        (.num (Number.ofDecimal false (Decimal.ofDigits whole digits 0)))
  | string {inside : List Char} : '"' ∉ inside →
      Pattern .string ('"' :: (inside ++ ['"'])) (.str (Text.ofChars inside))
  | keyword {word : String} {kind : Kind} : (word, kind) ∈ Kind.reserved →
      Pattern kind word.toList .null
  | identifier {c : Char} {r : List Char} : Piece.isWordStart c = true →
      (∀ x ∈ r, Piece.isWordPart x = true) →
      (∀ kind, (String.ofList (c :: r), kind) ∉ Kind.reserved) →
      Pattern .identifier (c :: r) (.str (Text.ofChars (c :: r)))

/-- Nothing longer than the text matches a pattern where it stands before a rest. -/
def Longest (text rest : List Char) : Prop :=
  ∀ kind other literal, Pattern kind other literal → other <+: text ++ rest →
    other.length ≤ text.length

def NumberRest (r : List Char) : Prop :=
  (∀ x ∈ r, isAsciiDigit x = true) ∨
    ∃ whole digits, r = whole ++ '.' :: digits ∧ digits ≠ [] ∧
      (∀ c ∈ whole, isAsciiDigit c = true) ∧ ∀ c ∈ digits, isAsciiDigit c = true

theorem length_le_takeWhile {α : Type} {p : α → Bool} {row text : List α}
    (hrow : ∀ x ∈ row, p x = true) (h : row <+: text) :
    row.length ≤ (text.takeWhile p).length := by
  obtain ⟨rest, rfl⟩ := h
  rw [List.takeWhile_append_of_pos hrow, List.length_append]
  omega

theorem isAsciiDigit_point : isAsciiDigit '.' = false := by decide

theorem spanDigits_all {digits : List Char} (h : ∀ c ∈ digits, isAsciiDigit c = true) :
    spanDigits digits = (digits, []) := by
  have hrest : Undigited [] := by simp [Undigited]
  simpa using spanDigits_of_undigited h hrest

theorem spanDigits_point {whole rest : List Char} (h : ∀ c ∈ whole, isAsciiDigit c = true) :
    spanDigits (whole ++ '.' :: rest) = (whole, '.' :: rest) := by
  apply spanDigits_of_undigited h
  intro c hc
  cases hc
  exact isAsciiDigit_point

namespace Piece

theorem numberTail_point {whole rest : List Char} {d : Char}
    (h : ∀ c ∈ whole, isAsciiDigit c = true) (hd : isAsciiDigit d = true) :
    numberTail (whole ++ '.' :: d :: rest) =
      (whole ++ '.' :: d :: (spanDigits rest).1, (spanDigits rest).2) := by
  unfold numberTail
  rw [spanDigits_point h]
  simp only [hd, if_true]

theorem length_spanDigits_le (text : List Char) :
    (spanDigits text).1.length ≤ (numberTail text).1.length := by
  unfold numberTail
  split
  · rename_i whole d r hspan
    split
    · simp [hspan]
    · simp [hspan]
  · rename_i whole r _ hspan
    simp [hspan]

theorem numberRest_numberTail (text : List Char) : NumberRest (numberTail text).1 := by
  have hall (t : List Char) : ∀ c ∈ (spanDigits t).1, isAsciiDigit c = true :=
    fun c hc => List.all_eq_true.1 List.all_takeWhile c hc
  have htext := hall text
  unfold numberTail
  split
  · rename_i whole d r hspan
    rw [hspan] at htext
    split
    · rename_i hd
      right
      refine ⟨whole, d :: (spanDigits r).1, rfl, by simp, htext, ?_⟩
      intro c hc
      obtain rfl | hc := List.mem_cons.1 hc
      · exact hd
      · exact hall r c hc
    · exact .inl htext
  · rename_i whole r _ hspan
    rw [hspan] at htext
    exact .inl htext

theorem numberTail_all {r : List Char} (h : ∀ c ∈ r, isAsciiDigit c = true) :
    numberTail r = (r, []) := by
  unfold numberTail
  rw [spanDigits_all h]

theorem isAsciiDigit_of_isWordStart {c : Char} (h : isWordStart c = true) :
    isAsciiDigit c = false := by
  simp only [isWordStart, Bool.or_eq_true, decide_eq_true_eq, beq_iff_eq] at h
  simp only [isAsciiDigit, decide_eq_false_iff_not]
  rintro ⟨-, hdigit⟩
  obtain (h | h) | rfl := h
  · exact absurd (Char.le_trans h.1 hdigit) (by decide)
  · exact absurd (Char.le_trans h.1 hdigit) (by decide)
  · exact absurd hdigit (by decide)

end Piece

theorem operators_cons {c : Char} {r : List Char} {kind : Kind} (h : (c :: r, kind) ∈ operators) :
    isAsciiDigit c = false ∧ Piece.isWordStart c = false ∧ c ≠ '"' ∧
      (r = [] ∨ (r = ['='] ∧ (Piece.comparison? c).isSome = true ∧ Piece.symbol? c = none)) ∧
      ((Piece.symbol? c).isSome = true ∨ (Piece.comparison? c).isSome = true ∨ c = '/') := by
  simp only [operators, List.mem_cons, List.not_mem_nil, Prod.mk.injEq, List.cons.injEq,
    or_false] at h
  rcases h with h | h | h | h | h | h | h | h | h | h | h | h | h | h | h | h | h | h | h
  all_goals
    obtain ⟨⟨rfl, rfl⟩, rfl⟩ := h
    decide

theorem reserved_isWord : ∀ w ∈ Kind.reserved, ∃ c r, w.1.toList = c :: r ∧
    Piece.isWordStart c = true ∧ ∀ x ∈ r, Piece.isWordPart x = true := by
  simp only [Kind.reserved, List.forall_mem_cons, List.not_mem_nil, false_imp_iff, implies_true,
    and_true]
  repeat' apply And.intro
  all_goals exact ⟨_, _, rfl, rfl, List.all_eq_true.1 rfl⟩

namespace Pattern

variable {kind : Kind} {c : Char} {text r : List Char} {literal : Datum}

theorem ne_nil (h : Pattern kind text literal) : text ≠ [] := by
  cases h with
  | operator h =>
    rintro rfl
    exact absurd h (by simp [operators])
  | whole h => exact h
  | fraction => simp
  | string => simp
  | keyword h =>
    obtain ⟨c, r, htext, -⟩ := reserved_isWord _ h
    rw [htext]
    simp
  | identifier => simp

theorem cons_cases (h : Pattern kind (c :: r) literal) :
    (c :: r, kind) ∈ operators ∨ (isAsciiDigit c = true ∧ NumberRest r) ∨
      (c = '"' ∧ ∃ inside, r = inside ++ ['"'] ∧ '"' ∉ inside) ∨
      (Piece.isWordStart c = true ∧ ∀ x ∈ r, Piece.isWordPart x = true) := by
  generalize htext : c :: r = text at h
  cases h with
  | operator h => exact .inl h
  | whole _ hdigits =>
    subst htext
    right; left
    exact ⟨hdigits c (by simp), .inl fun x hx => hdigits x (by simp [hx])⟩
  | @fraction whole digits hne hwhole hne' hdigits =>
    cases whole with
    | nil => exact absurd rfl hne
    | cons d whole =>
      cases htext
      right; left
      refine ⟨hwhole c (by simp), .inr ⟨whole, digits, rfl, hne', ?_, hdigits⟩⟩
      exact fun x hx => hwhole x (by simp [hx])
  | @string inside hinside =>
    cases htext
    right; right; left
    exact ⟨rfl, inside, rfl, hinside⟩
  | keyword h =>
    obtain ⟨d, s, hword, hstart, hpart⟩ := reserved_isWord _ h
    rw [hword] at htext
    cases htext
    right; right; right
    exact ⟨hstart, hpart⟩
  | identifier hstart hpart =>
    cases htext
    right; right; right
    exact ⟨hstart, hpart⟩

theorem not_blank (h : Pattern kind (c :: r) literal) : c ∉ [' ', '\r', '\t', '\n'] := by
  intro hc
  simp only [List.mem_cons, List.not_mem_nil, or_false] at hc
  obtain h | ⟨h, -⟩ | ⟨h, -⟩ | ⟨h, -⟩ := h.cons_cases
  · have hoperator := (operators_cons h).2.2.2.2
    rcases hc with rfl | rfl | rfl | rfl
    all_goals exact absurd hoperator (by decide)
  all_goals
    rcases hc with rfl | rfl | rfl | rfl
    all_goals exact absurd h (by decide)

theorem number_of_digit (h : Pattern kind (c :: r) literal) (hc : isAsciiDigit c = true) :
    NumberRest r := by
  obtain h | ⟨-, h⟩ | ⟨rfl, -⟩ | ⟨h, -⟩ := h.cons_cases
  · rw [(operators_cons h).1] at hc
    cases hc
  · exact h
  · cases hc
  · rw [Piece.isAsciiDigit_of_isWordStart h] at hc
    cases hc

theorem word_of_wordStart (h : Pattern kind (c :: r) literal)
    (hc : Piece.isWordStart c = true) : ∀ x ∈ r, Piece.isWordPart x = true := by
  obtain h | ⟨h, -⟩ | ⟨rfl, -⟩ | ⟨-, h⟩ := h.cons_cases
  · rw [(operators_cons h).2.1] at hc
    cases hc
  · rw [Piece.isAsciiDigit_of_isWordStart hc] at h
    cases h
  · cases hc
  · exact h

theorem string_of_quote (h : Pattern kind ('"' :: r) literal) :
    ∃ inside, r = inside ++ ['"'] ∧ '"' ∉ inside := by
  obtain h | ⟨h, -⟩ | ⟨-, h⟩ | ⟨h, -⟩ := h.cons_cases
  · exact absurd rfl (operators_cons h).2.2.1
  · cases h
  · exact h
  · cases h

theorem operator_of_other (h : Pattern kind (c :: r) literal) (hdigit : isAsciiDigit c = false)
    (hstart : Piece.isWordStart c = false) (hquote : c ≠ '"') : (c :: r, kind) ∈ operators := by
  obtain h | ⟨h, -⟩ | ⟨h, -⟩ | ⟨h, -⟩ := h.cons_cases
  · exact h
  · rw [hdigit] at h
    cases h
  · exact absurd h hquote
  · rw [hstart] at h
    cases h

end Pattern

theorem NumberRest.length_le {r text : List Char} (h : NumberRest r) (htext : r <+: text) :
    r.length ≤ (Piece.numberTail text).1.length := by
  obtain h | ⟨whole, digits, rfl, hne, hwhole, hdigits⟩ := h
  · exact (length_le_takeWhile h htext).trans (Piece.length_spanDigits_le text)
  · obtain ⟨rest, rfl⟩ := htext
    obtain ⟨d, digits, rfl⟩ := List.exists_cons_of_ne_nil hne
    have hd : isAsciiDigit d = true := hdigits d (by simp)
    have hrow : digits <+: digits ++ rest := List.prefix_append digits rest
    have hle := length_le_takeWhile (fun c hc => hdigits c (by simp [hc])) hrow
    rw [List.append_assoc, List.cons_append, List.cons_append, Piece.numberTail_point hwhole hd]
    simp only [List.length_append, List.length_cons]
    change digits.length ≤ (spanDigits (digits ++ rest)).1.length at hle
    omega

namespace Kind

theorem ofWord_mem_or (word : String) :
    (word, Kind.ofWord word) ∈ Kind.reserved ∨
      Kind.ofWord word = .identifier ∧ ∀ kind, (word, kind) ∉ Kind.reserved := by
  unfold Kind.ofWord
  cases h : Kind.reserved.lookup word with
  | none =>
    right
    refine ⟨rfl, fun kind hmem => ?_⟩
    simpa using List.lookup_eq_none_iff.1 h _ hmem
  | some kind =>
    left
    obtain ⟨l, l', hl, -⟩ := List.lookup_eq_some_iff.1 h
    rw [hl]
    simp

theorem ofWord_of_mem {word : String} {kind : Kind} (h : (word, kind) ∈ Kind.reserved) :
    Kind.ofWord word = kind := by
  have hall : ∀ w ∈ Kind.reserved, Kind.ofWord w.1 = w.2 := by decide
  exact hall _ h

theorem ofWord_of_forall_notMem {word : String} (h : ∀ kind, (word, kind) ∉ Kind.reserved) :
    Kind.ofWord word = .identifier := by
  obtain hmem | ⟨hkind, -⟩ := ofWord_mem_or word
  · exact absurd hmem (h _)
  · exact hkind

end Kind

theorem Pattern.literal_eq {kind : Kind} {text : List Char} {literal : Datum}
    (h : Pattern kind text literal) : literal = Lexeme.literal kind text := by
  cases h with
  | operator h =>
    have hall : ∀ o ∈ operators, Lexeme.literal o.2 o.1 = .null := by decide
    exact (hall _ h).symm
  | whole _ hdigits => simp [Lexeme.literal, Lexeme.numberValue, spanDigits_all hdigits]
  | fraction _ hwhole => simp [Lexeme.literal, Lexeme.numberValue, spanDigits_point hwhole]
  | string => simp [Lexeme.literal, Lexeme.inner]
  | keyword h =>
    have hall : ∀ w ∈ Kind.reserved, Lexeme.literal w.2 w.1.toList = .null := by decide
    exact (hall _ h).symm
  | identifier => rfl

theorem Longest.eq {text text' rest rest' : List Char} {kind kind' : Kind}
    {literal literal' : Datum} (h : Longest text rest) (h' : Longest text' rest')
    (hpattern : Pattern kind text literal) (hpattern' : Pattern kind' text' literal')
    (htext : text ++ rest = text' ++ rest') : text = text' ∧ rest = rest' := by
  have hle := h _ _ _ hpattern' ⟨rest', htext.symm⟩
  have hle' := h' _ _ _ hpattern ⟨rest, htext⟩
  exact List.append_inj htext (Nat.le_antisymm hle' hle)

theorem longest_cons {c : Char} {r rest : List Char}
    (h : ∀ kind other literal, Pattern kind (c :: other) literal → other <+: r ++ rest →
      other.length ≤ r.length) : Longest (c :: r) rest := by
  intro kind other literal hpattern hother
  cases other with
  | nil => exact absurd rfl hpattern.ne_nil
  | cons d other =>
    obtain ⟨rfl, htail⟩ := List.cons_prefix_cons.1 hother
    exact Nat.succ_le_succ (h kind other literal hpattern htail)

namespace Piece

theorem symbol?_mem {c : Char} {kind : Kind} (h : symbol? c = some kind) :
    ([c], kind) ∈ operators ∧ c ≠ '/' := by
  unfold symbol? at h
  split at h
  all_goals cases h
  all_goals decide

theorem comparison?_mem {c : Char} {long short : Kind} (h : comparison? c = some (long, short)) :
    ([c, '='], long) ∈ operators ∧ ([c], short) ∈ operators ∧ c ≠ '/' := by
  unfold comparison? at h
  split at h
  all_goals cases h
  all_goals decide

theorem longest_alone {c : Char} {rest : List Char} (hdigit : isAsciiDigit c = false)
    (hstart : isWordStart c = false) (hquote : c ≠ '"')
    (halone : comparison? c = none ∨ symbol? c ≠ none ∨ ¬['='] <+: rest) : Longest [c] rest := by
  apply longest_cons
  intro kind other literal hpattern hother
  obtain ⟨-, -, -, hother' | ⟨hother', hlong, hsymbol⟩, -⟩ :=
    operators_cons (hpattern.operator_of_other hdigit hstart hquote)
  · rw [hother']
  · rw [hother'] at hother
    obtain h | h | h := halone
    · rw [h] at hlong
      cases hlong
    · exact absurd hsymbol h
    · exact absurd hother h

end Piece

theorem longest_string {inside rest : List Char} (h : '"' ∉ inside) :
    Longest ('"' :: (inside ++ ['"'])) rest := by
  apply longest_cons
  intro kind other literal hpattern hother
  obtain ⟨inside', rfl, hinside'⟩ := hpattern.string_of_quote
  have hprefix : inside' <+: inside ++ '"' :: rest := by
    apply (List.prefix_append inside' ['"']).trans
    simpa using hother
  have hle := length_le_takeWhile (p := fun c => c != '"') (by grind) hprefix
  rw [List.takeWhile_append_of_pos (by grind), List.takeWhile_cons_of_neg (by simp)] at hle
  simpa using hle

end Lox
