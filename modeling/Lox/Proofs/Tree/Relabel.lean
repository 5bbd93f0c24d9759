import Lox.Grammar.Parse

/-!
Trees with other tokens. A function on tokens takes a tree to one of the same shape, and a parse
to one that went the same way. Parsing looks at the kinds of tokens only, so a function that keeps
those and goes along with the tokens that stand in for missing ones makes no difference to it.
-/
namespace Lox

/-- A function on tokens that keeps their kinds. A token that stands in for a missing one has its
line from a neighbour, and gets the line of the new neighbour. -/
structure Relabelling where
  apply : Token → Token
  kind (t : Token) : (apply t).kind = t.kind
  implied (kind : Kind) (lexeme : String) (t : Token) :
    apply (.implied kind lexeme t.line) = .implied kind lexeme (apply t).line

instance : CoeFun Relabelling fun _ => Token → Token := ⟨Relabelling.apply⟩

namespace Node

variable (g : Token → Token)

mutual

def map : Node → Node
  | .literal value => .literal (g value)
  | .grouping inside => .grouping inside.map
  | .unary operator right => .unary (g operator) right.map
  | .binary left operator right => .binary left.map (g operator) right.map
  | .logical left operator right => .logical left.map (g operator) right.map
  | .name token => .name (g token)
  | .assign target value => .assign (g target) value.map
  | .call callee paren arguments => .call callee.map (g paren) (mapAll arguments)
  | .expression value => .expression value.map
  | .print value => .print value.map
  | .var target initial => .var (g target) initial.map
  | .block statements => .block (mapAll statements)
  | .ifElse condition thenBranch elseBranch =>
    .ifElse condition.map thenBranch.map elseBranch.map
  | .loop condition body => .loop condition.map body.map
  | .function target params body => .function (g target) (params.map g) (mapAll body)
  | .list items => .list (mapAll items)

def mapAll : List Node → List Node
  | [] => []
  | n :: r => n.map :: mapAll r

end

theorem mapAll_eq (ns : List Node) : mapAll g ns = ns.map (map g) := by
  induction ns with
  | nil => rfl
  | cons n r ih => rw [mapAll, ih, List.map_cons]

end Node

def SyntaxError.map (g : Token → Token) (e : SyntaxError) : SyntaxError :=
  { e with token := g e.token }

namespace Cursor

variable {g : Token → Token}

def map (g : Token → Token) (c : Cursor) : Cursor := ⟨c.rest.map g, g c.last⟩

@[simp] theorem rest_map (c : Cursor) : (c.map g).rest = c.rest.map g := rfl

@[simp] theorem peek_map (c : Cursor) : (c.map g).peek = g c.peek := by
  obtain ⟨rest, last⟩ := c
  cases rest <;> rfl

@[simp] theorem advance_map (c : Cursor) : (c.map g).advance = c.advance.map g := by
  obtain ⟨rest, last⟩ := c
  cases rest <;> rfl

end Cursor

def Parsed.map {α β : Type} (g : Token → Token) (f : α → β) : Parsed α → Parsed β
  | .done a c errors => .done (f a) (c.map g) (errors.map (SyntaxError.map g))
  | .tooDeep c errors => .tooDeep (c.map g) (errors.map (SyntaxError.map g))

def Grammar.Parse.map (g : Token → Token) (p : Parse) : Parse :=
  ⟨p.statements.map (Node.map g), p.errors.map (SyntaxError.map g), p.unread.map g⟩

end Lox
