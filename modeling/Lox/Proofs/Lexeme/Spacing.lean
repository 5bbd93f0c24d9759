import Lox.Proofs.Lexeme.Joining

/-!
Lexemes written anew. Each goes after a blank and as many line feeds as bring it down to its line;
of the source this leaves out comments, other blanks and all that is no lexeme. No lexeme can grow
into what follows it, so scanning the new text gives the tokens of the source, without errors.
-/
namespace Lox

/-- The line feeds between a line and the start of a lexeme, which may have more of them in it. The
number is negative if the lexeme would have to start above the line. -/
def Lexeme.gap (line : Nat) (l : Lexeme) : Int := l.line - l.text.count '\n' - line

namespace Scan

/-- The gap before each lexeme and the one before the end, if they come after a line. -/
def gapsFrom (endLine line : Nat) : List Lexeme → List Int
  | [] => [(endLine : Int) - line]
  | l :: rest => l.gap line :: gapsFrom endLine l.line rest

/-- The lexemes after a line, each behind a blank and its gap, with the gap before the end. -/
def layoutFrom (endLine line : Nat) : List Lexeme → List Char
  | [] => List.replicate ((endLine : Int) - line).toNat '\n'
  | l :: rest =>
    ' ' :: (List.replicate (l.gap line).toNat '\n' ++ (l.text ++ layoutFrom endLine l.line rest))

def gaps (s : Scan) : List Int := gapsFrom s.endLine 1 s.lexemes

def layout (s : Scan) : List Char := layoutFrom s.endLine 1 s.lexemes

end Scan

theorem Piece.Stands.all_append {p : Piece} {rest : List Char} (h : p.Stands rest) :
    all (p.text ++ rest) = p :: all rest :=
  (segmented_iff.1 (.cons h (segmented_iff.2 rfl))).symm

theorem Pattern.stands {kind : Kind} {text rest : List Char} {literal : Datum}
    (h : Pattern kind text literal) (hrest : ∀ x ∈ rest.head?, x ∈ [' ', '\r', '\t', '\n']) :
    Piece.Stands ⟨.lexeme kind, text⟩ rest := by
  obtain ⟨c, r, rfl⟩ := List.exists_cons_of_ne_nil h.ne_nil
  have hend : Piece.Stands ⟨.lexeme kind, c :: r⟩ [] := by
    have hcut := Piece.stands_cut c r
    rwa [h.cut_self] at hcut
  cases rest with
  | nil => exact hend
  | cons x more => exact hend.before_blank (hrest x rfl) more

namespace Scan

theorem ofPieces_space (line : Nat) (text : List Char) :
    ofPieces line (Piece.all (' ' :: text)) = ofPieces line (Piece.all text) := by
  rw [Piece.all, Piece.cut_blank (by decide)]
  rfl

theorem ofPieces_newlines (line n : Nat) (text : List Char) :
    ofPieces line (Piece.all (List.replicate n '\n' ++ text)) =
      ofPieces (line + n) (Piece.all text) := by
  induction n generalizing line with
  | zero => rfl
  | succ n ih =>
    rw [List.replicate_succ, List.cons_append, Piece.all, Piece.cut_newline, Nat.add_comm n,
      ← Nat.add_assoc, ← ih]
    rfl

theorem head?_layoutFrom (endLine line : Nat) (lexemes : List Lexeme) :
    ∀ x ∈ (layoutFrom endLine line lexemes).head?, x ∈ [' ', '\r', '\t', '\n'] := by
  intro x hx
  cases lexemes with
  | nil =>
    rw [layoutFrom, List.head?_replicate] at hx
    split at hx
    · cases hx
    · cases hx
      decide
  | cons l rest =>
    cases hx
    decide

/-- Lexemes that match their patterns are scanned back if no gap is negative. The line on which the
scan starts is that of the lexeme before. -/
theorem ofPieces_layoutFrom {endLine line : Nat} {lexemes : List Lexeme}
    (hpattern : ∀ l ∈ lexemes, ∃ literal, Pattern l.kind l.text literal)
    (hgaps : ∀ g ∈ gapsFrom endLine line lexemes, 0 ≤ g) :
    ofPieces line (Piece.all (layoutFrom endLine line lexemes)) = ⟨lexemes, [], endLine⟩ := by
  induction lexemes generalizing line with
  | nil =>
    have hend : 0 ≤ (endLine : Int) - line := hgaps _ List.mem_cons_self
    have hline : line + ((endLine : Int) - line).toNat = endLine := by omega
    rw [layoutFrom, ← List.append_nil (List.replicate _ _), ofPieces_newlines, hline, Piece.all]
    rfl
  | cons l rest ih =>
    have hgap : 0 ≤ l.gap line := hgaps _ List.mem_cons_self
    have hline : line + (l.gap line).toNat + l.text.count '\n' = l.line := by
      unfold Lexeme.gap at hgap ⊢
      omega
    have hrest := ih (fun m hm => hpattern m (List.mem_cons_of_mem l hm))
      (fun g hg => hgaps g (List.mem_cons_of_mem _ hg))
    obtain ⟨literal, hl⟩ := hpattern l List.mem_cons_self
    have hstands := hl.stands (head?_layoutFrom endLine l.line rest)
    rw [layoutFrom, ofPieces_space, ofPieces_newlines, hstands.all_append, ofPieces]
    dsimp only
    rw [hline, hrest]
    rfl

theorem pattern_of_mem {text : List Char} {pieces : List Piece} (h : Segmented text pieces)
    (line : Nat) :
    ∀ l ∈ (ofPieces line pieces).lexemes, ∃ literal, Pattern l.kind l.text literal := by
  induction h generalizing line with
  | nil => simp [ofPieces]
  | @cons p rest pieces hp _ ih =>
    have ih := ih (line + p.text.count '\n')
    cases hp with
    | lexeme hpattern =>
      intro l hl
      obtain rfl | hl := List.mem_cons.1 hl
      · exact ⟨_, hpattern⟩
      · exact ih l hl
    | blank => exact ih
    | newline => exact ih
    | comment => exact ih
    | stray => exact ih
    | openString => exact ih

/-- Pieces that are no lexemes only bring the lines further down, so no lexeme starts above the
end of the one before it. -/
theorem gapsFrom_nonneg {line start : Nat} (h : line ≤ start) (pieces : List Piece) :
    ∀ g ∈ gapsFrom (ofPieces start pieces).endLine line (ofPieces start pieces).lexemes, 0 ≤ g := by
  induction pieces generalizing line start with
  | nil =>
    intro g hg
    obtain rfl : g = (start : Int) - line := List.mem_singleton.1 hg
    omega
  | cons p pieces ih =>
    obtain ⟨form, text⟩ := p
    have hbelow : line ≤ start + text.count '\n' := by omega
    cases form with
    | lexeme kind =>
      intro g hg
      obtain rfl | hg := List.mem_cons.1 hg
      · simp only [Lexeme.gap]
        omega
      · exact ih (Nat.le_refl _) g hg
    | _ => exact ih hbelow

end Scan

/-- The lexemes of any source, with or without errors, can be written anew: no gap is negative, and
scanning what is written reports nothing and gives the same tokens on the same lines. -/
theorem scan_layout (source : List Char) :
    (∀ g ∈ (scan source).gaps, 0 ≤ g) ∧
      (scan (scan source).layout).errors = [] ∧
      (scan (scan source).layout).tokens = (scan source).tokens ∧
      (scan (scan source).layout).endToken = (scan source).endToken := by
  have hpattern := Scan.pattern_of_mem (segmented_iff.2 (rfl : Piece.all source = _)) 1
  have hgaps : ∀ g ∈ (scan source).gaps, 0 ≤ g :=
    Scan.gapsFrom_nonneg (Nat.le_refl 1) (Piece.all source)
  have hscan : scan (scan source).layout = ⟨(scan source).lexemes, [], (scan source).endLine⟩ :=
    Scan.ofPieces_layoutFrom hpattern hgaps
  rw [hscan]
  exact ⟨hgaps, rfl, rfl, rfl⟩

/-- A string over two lines, a point that does not belong to the number before it, a comment, a
stray character, and a string that is never closed. -/
example : (scan "a=\"x\ny\"//!\n@1.\n/ /\n\"z\n".toList).layout =
    " a = \"x\ny\" \n1 . \n/ /\n\n".toList := by decide +kernel

end Lox
