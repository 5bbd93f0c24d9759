import Lox.Grammar.Rules

/-!
Parsing. Every rule that uses another one goes one level deeper, and a bound on the levels keeps
the recursion finite. A parse that reaches the bound ends with an error and keeps the statements
that were finished before.
-/
namespace Lox.Grammar

open Lox.Parser

mutual

def declaration : Nat → Parser Node
  | 0 => tooDeep
  | d + 1 => declarationRule (declaration d) (statement d) (expression d)

def statement : Nat → Parser Node
  | 0 => tooDeep
  | d + 1 => statementRule (declaration d) (statement d) (expression d)

def expression : Nat → Parser Node
  | 0 => tooDeep
  | d + 1 => assignmentRule (expression d) (chain .or d)

def chain (level : Level) : Nat → Parser Node
  | 0 => tooDeep
  | d + 1 =>
    chainRule level
      (match level.tighter? with
      | some tighter => chain tighter d
      | none => unary d)

def unary : Nat → Parser Node
  | 0 => tooDeep
  | d + 1 => unaryRule (unary d) (call d)

def call : Nat → Parser Node
  | 0 => tooDeep
  | d + 1 => callRule (expression d) (primary d)

def primary : Nat → Parser Node
  | 0 => tooDeep
  | d + 1 => primaryRule (expression d)

end

/-- The statements of a program, the errors in it, and the tokens that were not reached because
the nesting was too deep. -/
structure Parse where
  statements : List Node
  errors : List SyntaxError
  unread : List Token

def programFrom (depth : Nat) : List Token → Cursor → Parse
  | [], c => ⟨[], [], c.rest⟩
  | _ :: turns, c =>
    if c.atEnd then ⟨[], [], []⟩
    else
      match declaration depth c with
      | .tooDeep c errors => ⟨[], errors ++ [⟨c.peek, .nestedTooDeeply⟩], c.rest⟩
      | .done first c errors =>
        let rest := programFrom depth turns c
        ⟨first :: rest.statements, errors ++ rest.errors, rest.unread⟩

def parse (depth : Nat) (tokens : List Token) (last : Token) : Parse :=
  programFrom depth tokens ⟨tokens, last⟩

def maxDepth : Nat := 6600

end Lox.Grammar
