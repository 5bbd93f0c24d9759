import Lox.Proofs.Grammar.Coverage
import Lox.Proofs.Grammar.Depth
import Lox.Proofs.Grammar.Recognition

/-!
Parsing is exact. Setting the bound on the nesting aside, a row of tokens is parsed without an
error if and only if it is a program of the grammar, and what comes out is the program that the
row stands for. A depth that grows with the number of tokens sets the bound aside.
-/
namespace Lox.Grammar

variable {depth : Nat} {tokens : List Token} {last : Token}

theorem parse_covers (hlast : last.kind = .eof) {statements : List Node}
    (h : Denotes tokens statements)
    (hdeep : ∀ e ∈ (parse depth tokens last).errors, e.problem ≠ .nestedTooDeeply) :
    parse depth tokens last = ⟨statements, [], []⟩ := by
  have hstart : (⟨tokens, last⟩ : Cursor) = Cursor.before ⟨[], last⟩ tokens := by
    simp [Cursor.before]
  unfold parse at hdeep ⊢
  rw [hstart] at hdeep ⊢
  exact programFrom_covers h hlast rfl (Nat.le_refl _) hdeep

/-- Whatever the tokens are, a large depth is never used up; and at every depth that is not, the
rows parsed without an error are the programs of the grammar, each giving what it stands for. -/
theorem parse_exact (hlast : last.kind = .eof) :
    (∀ depth ≥ 10 * tokens.length + 12,
      ∀ e ∈ (parse depth tokens last).errors, e.problem ≠ .nestedTooDeeply) ∧
    ∀ depth, (∀ e ∈ (parse depth tokens last).errors, e.problem ≠ .nestedTooDeeply) →
      ((parse depth tokens last).errors = [] ↔ IsProgram tokens) ∧
      ∀ statements, Denotes tokens statements ↔
        (parse depth tokens last).errors = [] ∧
          (parse depth tokens last).statements = statements := by
  refine ⟨fun depth hdepth => programFrom_fits hlast hdepth, fun depth hdeep => ?_⟩
  have hdenotes (statements : List Node) : Denotes tokens statements ↔
      (parse depth tokens last).errors = [] ∧
        (parse depth tokens last).statements = statements := by
    constructor
    · intro h
      rw [parse_covers hlast h hdeep]
      exact ⟨rfl, rfl⟩
    · rintro ⟨herrors, rfl⟩
      exact parse_recognizes hlast herrors
  refine ⟨?_, hdenotes⟩
  rw [isProgram_iff]
  constructor
  · intro herrors
    exact ⟨_, parse_recognizes hlast herrors⟩
  · rintro ⟨statements, h⟩
    exact ((hdenotes statements).1 h).1

/-- `if (a) if (b) c; else d;` gives the `else` to the inner `if`, also by the grammar. -/
theorem parse_exact_else :
    let word (kind : Kind) (lexeme : String) : Token := ⟨kind, .str lexeme, .int 1, .null, []⟩
    let a := word .identifier "a"
    let b := word .identifier "b"
    let c := word .identifier "c"
    let d := word .identifier "d"
    Denotes
      [word .kwIf "if", word .leftParen "(", a, word .rightParen ")", word .kwIf "if",
        word .leftParen "(", b, word .rightParen ")", c, word .semicolon ";",
        word .kwElse "else", d, word .semicolon ";"]
      [.ifElse (.name a) (.ifElse (.name b) (.expression (.name c)) (.expression (.name d)))
        (.block [])] := by
  intro word a b c d
  refine (((@parse_exact _ (word .eof "") rfl).2 142 ?_).2 _).2 ⟨?_, ?_⟩
  · exact (parse_exact rfl).1 142 (by decide)
  · rfl
  · rfl

end Lox.Grammar
