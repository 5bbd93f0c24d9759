import Lox.Proofs.Tree.Relabel

/-!
Trees without lines. Two token lists or trees are the same up to lines if they are equal once the
line of every token is dropped.
-/
namespace Lox

namespace Token

def unlined (t : Token) : Token := { t with line := .null }

@[simp] theorem kind_unlined (t : Token) : t.unlined.kind = t.kind := rfl

@[simp] theorem lexeme_unlined (t : Token) : t.unlined.lexeme = t.lexeme := rfl

@[simp] theorem location_unlined (t : Token) : t.unlined.location = t.location := rfl

structure Alike (s t : Token) : Prop where
  kind : s.kind = t.kind
  lexeme : s.lexeme = t.lexeme
  literal : s.literal = t.literal

theorem alike_of_unlined {s t : Token} (h : s.unlined = t.unlined) : s.Alike t := by
  injection h with hkind hlexeme _ hliteral
  exact ⟨hkind, hlexeme, hliteral⟩

end Token

namespace Node

mutual

def unlined : Node → Node
  | .literal value => .literal value.unlined
  | .grouping inside => .grouping inside.unlined
  | .unary operator right => .unary operator.unlined right.unlined
  | .binary left operator right => .binary left.unlined operator.unlined right.unlined
  | .logical left operator right => .logical left.unlined operator.unlined right.unlined
  | .name token => .name token.unlined
  | .assign target value => .assign target.unlined value.unlined
  | .call callee paren arguments => .call callee.unlined paren.unlined (unlinedAll arguments)
  | .expression value => .expression value.unlined
  | .print value => .print value.unlined
  | .var target initial => .var target.unlined initial.unlined
  | .block statements => .block (unlinedAll statements)
  | .ifElse condition thenBranch elseBranch =>
    .ifElse condition.unlined thenBranch.unlined elseBranch.unlined
  | .loop condition body => .loop condition.unlined body.unlined
  | .function target params body =>
    .function target.unlined (params.map Token.unlined) (unlinedAll body)
  | .list items => .list (unlinedAll items)

def unlinedAll : List Node → List Node
  | [] => []
  | n :: r => n.unlined :: unlinedAll r

end

theorem unlinedAll_eq (ns : List Node) : unlinedAll ns = ns.map unlined := by
  induction ns with
  | nil => rfl
  | cons n r ih => rw [unlinedAll, ih, List.map_cons]

@[simp] theorem form?_unlined (n : Node) : n.unlined.form? = n.form? := by
  cases n <;> rfl

end Node

def Diagnostic.unlined (d : Diagnostic) : Diagnostic := { d with line := .null }

def SyntaxError.unlined (e : SyntaxError) : SyntaxError := { e with token := e.token.unlined }

theorem SyntaxError.diagnostic_unlined (e : SyntaxError) :
    e.unlined.diagnostic = e.diagnostic.unlined := rfl

def Grammar.Parse.unlined (p : Grammar.Parse) : Grammar.Parse :=
  ⟨p.statements.map Node.unlined, p.errors.map SyntaxError.unlined, p.unread.map Token.unlined⟩

end Lox
