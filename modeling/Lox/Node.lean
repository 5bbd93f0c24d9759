import Lox.Token

/-!
Program trees. Expressions and statements share one type, and a list of nodes may stand where a
node is expected: a tree read from a file can have any node anywhere, and running it decides
what that means.
-/
namespace Lox

inductive Form where
  | literal | grouping | unary | binary | logical | name | assign | call
  | expression | print | var | block | ifElse | loop | function
  deriving DecidableEq

namespace Form

def all : List Form :=
  [.literal, .grouping, .unary, .binary, .logical, .name, .assign, .call, .expression, .print,
    .var, .block, .ifElse, .loop, .function]

def title : Form → String
  | .literal => "Literal"
  | .grouping => "Grouping"
  | .unary => "Unary"
  | .binary => "Binary"
  | .logical => "Logical"
  | .name => "Variable"
  | .assign => "Assign"
  | .call => "Call"
  | .expression => "Expression"
  | .print => "Print"
  | .var => "Var"
  | .block => "Block"
  | .ifElse => "If"
  | .loop => "While"
  | .function => "Function"

def ofTitle? (title : String) : Option Form := all.find? (·.title == title)

theorem ofTitle?_title (f : Form) : ofTitle? f.title = some f := by cases f <;> decide

end Form

inductive Node where
  | literal (value : Token)
  | grouping (expression : Node)
  | unary (operator : Token) (right : Node)
  | binary (left : Node) (operator : Token) (right : Node)
  | logical (left : Node) (operator : Token) (right : Node)
  | name (token : Token)
  | assign (target : Token) (value : Node)
  | call (callee : Node) (paren : Token) (arguments : List Node)
  | expression (value : Node)
  | print (value : Node)
  | var (target : Token) (initial : Node)
  | block (statements : List Node)
  | ifElse (condition thenBranch elseBranch : Node)
  | loop (condition body : Node)
  | function (target : Token) (params : List Token) (body : List Node)
  | list (items : List Node)
  deriving Inhabited

def Node.form? : Node → Option Form
  | .literal .. => some .literal
  | .grouping .. => some .grouping
  | .unary .. => some .unary
  | .binary .. => some .binary
  | .logical .. => some .logical
  | .name .. => some .name
  | .assign .. => some .assign
  | .call .. => some .call
  | .expression .. => some .expression
  | .print .. => some .print
  | .var .. => some .var
  | .block .. => some .block
  | .ifElse .. => some .ifElse
  | .loop .. => some .loop
  | .function .. => some .function
  | .list .. => none

end Lox
