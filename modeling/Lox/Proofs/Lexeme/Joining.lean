import Lox.Proofs.Lexeme.Segments
import Lox.Proofs.Tree.Lines

/-!
Texts one below the other. A line feed ends every segment but a string, so a text without errors
is cut in the same way if a line feed and another text follow, and the tokens of both texts come
one after the other.
-/
namespace Lox

theorem prefix_of_prefix_cons {u text rest : List Char} {x : Char} (h : u <+: text ++ x :: rest)
    (hu : x ∉ u) : u <+: text := by
  obtain htext | ⟨tail, rfl⟩ := List.prefix_or_prefix_of_prefix h (List.prefix_append text _)
  · exact htext
  · rw [List.prefix_append_right_inj] at h
    cases tail with
    | nil => simp
    | cons c tail =>
      obtain ⟨rfl, -⟩ := List.cons_prefix_cons.1 h
      simp at hu

/-- Blanks and line feeds belong to no class of characters that lexemes other than strings have. -/
theorem blank_class {x : Char} (hx : x ∈ [' ', '\r', '\t', '\n']) :
    isAsciiDigit x = false ∧ Piece.isWordStart x = false ∧ x ≠ '.' ∧ x ≠ '/' ∧
      ∀ o ∈ operators, x ∉ o.1 := by
  simp only [List.mem_cons, List.not_mem_nil, or_false] at hx
  rcases hx with rfl | rfl | rfl | rfl
  all_goals decide

theorem Pattern.blank_notMem {kind : Kind} {c x : Char} {r : List Char} {literal : Datum}
    (h : Pattern kind (c :: r) literal) (hc : c ≠ '"') (hx : x ∈ [' ', '\r', '\t', '\n']) :
    x ∉ c :: r := by
  obtain ⟨hxdigit, hxstart, hxpoint, -, hxoperator⟩ := blank_class hx
  have hdigit {y : Char} (hy : isAsciiDigit y = true) : x ≠ y := (isAsciiDigit_ne hy hxdigit).symm
  have hstart {y : Char} (hy : Piece.isWordStart y = true) : x ≠ y :=
    (Piece.wordStart_ne hy hxstart).symm
  have hpart {y : Char} (hy : Piece.isWordPart y = true) : x ≠ y := by
    rw [Piece.isWordPart, Bool.or_eq_true] at hy
    obtain hy | hy := hy
    · exact hstart hy
    · exact hdigit hy
  intro hmem
  obtain h | ⟨h, hr⟩ | ⟨h, -⟩ | ⟨h, hr⟩ := h.cons_cases
  · exact hxoperator _ h hmem
  · obtain rfl | hmem := List.mem_cons.1 hmem
    · exact hdigit h rfl
    · obtain hr | ⟨whole, digits, rfl, -, hwhole, hdigits⟩ := hr
      · exact hdigit (hr _ hmem) rfl
      · simp only [List.mem_append, List.mem_cons] at hmem
        obtain hmem | hmem | hmem := hmem
        · exact hdigit (hwhole _ hmem) rfl
        · exact hxpoint hmem
        · exact hdigit (hdigits _ hmem) rfl
  · exact hc h
  · obtain rfl | hmem := List.mem_cons.1 hmem
    · exact hstart h rfl
    · exact hpart (hr _ hmem) rfl

theorem Longest.before_blank {kind : Kind} {text rest more : List Char} {x : Char}
    {literal : Datum} (h : Longest text rest) (hpattern : Pattern kind text literal)
    (hx : x ∈ [' ', '\r', '\t', '\n']) : Longest text (rest ++ x :: more) := by
  obtain ⟨c, r, rfl⟩ := List.exists_cons_of_ne_nil hpattern.ne_nil
  by_cases hc : c = '"'
  · subst hc
    obtain ⟨inside, rfl, hinside⟩ := hpattern.string_of_quote
    exact longest_string hinside
  · intro kind' other literal' hother hprefix
    rw [← List.append_assoc] at hprefix
    obtain ⟨d, s, rfl⟩ := List.exists_cons_of_ne_nil hother.ne_nil
    obtain ⟨rfl, -⟩ := List.cons_prefix_cons.1 hprefix
    exact h _ _ _ hother (prefix_of_prefix_cons hprefix (hother.blank_notMem hc hx))

namespace Piece

theorem Stands.before_blank {kind : Kind} {text rest : List Char} {x : Char}
    (h : Stands ⟨.lexeme kind, text⟩ rest) (hx : x ∈ [' ', '\r', '\t', '\n'])
    (more : List Char) : Stands ⟨.lexeme kind, text⟩ (rest ++ x :: more) := by
  cases h with
  | lexeme hpattern hlongest hslashes =>
    apply Stands.lexeme hpattern (hlongest.before_blank hpattern hx)
    intro hprefix
    have hslash : x ≠ '/' := (blank_class hx).2.2.2.1
    rw [← List.append_assoc] at hprefix
    exact hslashes (prefix_of_prefix_cons hprefix (by simp [hslash]))

theorem Stands.before_newline {p : Piece} {rest : List Char} (h : p.Stands rest)
    (hopen : p.form ≠ .openString) (more : List Char) : p.Stands (rest ++ '\n' :: more) := by
  cases h with
  | blank h => exact .blank h
  | newline => exact .newline
  | comment hbody hrest =>
    apply Stands.comment hbody
    right
    obtain rfl | ⟨r, rfl⟩ := hrest
    · exact ⟨more, rfl⟩
    · exact ⟨r ++ '\n' :: more, rfl⟩
  | lexeme hpattern hlongest hslashes =>
    exact (Stands.lexeme hpattern hlongest hslashes).before_blank (by decide) more
  | stray h => exact .stray h
  | openString => exact absurd rfl hopen

theorem all_joined {text more : List Char} (h : ∀ p ∈ all text, p.isError = false) :
    all (text ++ '\n' :: more) = all text ++ ⟨.newline, ['\n']⟩ :: all more := by
  have hsegmented : Segmented text (all text) := segmented_iff.2 rfl
  generalize all text = pieces at h hsegmented
  symm
  rw [← segmented_iff]
  induction hsegmented with
  | nil => exact .cons .newline (segmented_iff.2 rfl)
  | @cons p rest pieces hp _ ih =>
    have hopen : p.form ≠ .openString := by
      intro hform
      have hp := h p (by simp)
      simp [isError, hform] at hp
    rw [List.append_assoc]
    exact .cons (hp.before_newline hopen more) (ih fun q hq => h q (by simp [hq]))

def token? (p : Piece) : Option Token :=
  match p.form with
  | .lexeme kind => some (Lexeme.token ⟨kind, p.text, 0⟩).unlined
  | _ => none

end Piece

theorem Scan.tokens_ofPieces_unlined (line : Nat) (pieces : List Piece) :
    (ofPieces line pieces).tokens.map Token.unlined = pieces.filterMap Piece.token? := by
  induction pieces generalizing line with
  | nil => rfl
  | cons p pieces ih =>
    have ih := ih (line + p.text.count '\n')
    obtain ⟨form, text⟩ := p
    cases form with
    | lexeme kind =>
      rw [List.filterMap_cons, ← ih]
      rfl
    | _ => exact ih

/-- The tokens of a text without errors and of the text below it come one after the other. -/
theorem scan_joined {text more : List Char} (htext : (scan text).errors = [])
    (hmore : (scan more).errors = []) :
    (scan (text ++ '\n' :: more)).errors = [] ∧
      (scan (text ++ '\n' :: more)).tokens.map Token.unlined =
        (scan text).tokens.map Token.unlined ++ (scan more).tokens.map Token.unlined := by
  unfold scan at htext hmore ⊢
  rw [Scan.errors_ofPieces_eq_nil] at htext hmore
  rw [Piece.all_joined htext, Scan.errors_ofPieces_eq_nil]
  constructor
  · intro p hp
    rw [List.mem_append, List.mem_cons] at hp
    obtain hp | rfl | hp := hp
    · exact htext p hp
    · rfl
    · exact hmore p hp
  · simp only [Scan.tokens_ofPieces_unlined, List.filterMap_append, List.filterMap_cons]
    rfl

end Lox
