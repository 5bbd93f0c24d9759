import Lox.Node

/-!
Trees as data. Every node is an object with its form and its parts, every token an object with
its kind, lexeme, line and literal.
-/
namespace Lox

def Token.toDatum (t : Token) : Datum :=
  .object [("type", .str t.kind.name), ("lexeme", t.lexeme), ("line", t.line),
    ("literal", t.literal)]

namespace Node

def record (form : Form) (parts : List (Text × Datum)) : Datum :=
  .object (("type", .str form.title) :: parts)

mutual

def toDatum : Node → Datum
  | .literal value => record .literal [("value", value.toDatum)]
  | .grouping inside => record .grouping [("expression", toDatum inside)]
  | .unary operator right =>
    record .unary [("operator", operator.toDatum), ("right", toDatum right)]
  | .binary left operator right =>
    record .binary
      [("left", toDatum left), ("operator", operator.toDatum), ("right", toDatum right)]
  | .logical left operator right =>
    record .logical
      [("left", toDatum left), ("operator", operator.toDatum), ("right", toDatum right)]
  | .name token => record .name [("name", token.toDatum)]
  | .assign target value => record .assign [("name", target.toDatum), ("value", toDatum value)]
  | .call callee paren arguments =>
    record .call
      [("callee", toDatum callee), ("paren", paren.toDatum),
        ("arguments", .list (toData arguments))]
  | .expression value => record .expression [("expression", toDatum value)]
  | .print value => record .print [("expression", toDatum value)]
  | .var target initial =>
    record .var [("name", target.toDatum), ("initializer", toDatum initial)]
  | .block statements => record .block [("statements", .list (toData statements))]
  | .ifElse condition thenBranch elseBranch =>
    record .ifElse
      [("condition", toDatum condition), ("then_branch", toDatum thenBranch),
        ("else_branch", toDatum elseBranch)]
  | .loop condition body =>
    record .loop [("condition", toDatum condition), ("body", toDatum body)]
  | .function target params body =>
    record .function
      [("name", target.toDatum), ("params", .list (params.map Token.toDatum)),
        ("body", .list (toData body))]
  | .list items => .list (toData items)

def toData : List Node → List Datum
  | [] => []
  | n :: r => toDatum n :: toData r

end

end Node

end Lox
