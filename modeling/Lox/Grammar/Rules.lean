import Lox.Grammar.Cursor
import Lox.Node

/-!
The rules of the grammar. Each takes the parsers of its parts, so that a rule can be read, and
reasoned about, on its own; the knot between them is tied elsewhere. Loops are bounded by the
tokens left, since every turn takes at least one.
-/
namespace Lox.Grammar

open Lox.Parser

def maxArguments : Nat := 255

def impliedNil (line : Datum) : Node := .literal (Token.implied .kwNil "nil" line)

def impliedTrue (line : Datum) : Node := .literal (Token.implied .kwTrue "true" line)

/-- `name, name, ...` with at least one name, `count` of which were read before. -/
def parameters (count : Nat) (turns : List Token) : Parser (List Token) := do
  if maxArguments ≤ count then
    report (← peek) .tooManyParameters
  let param ← expect .identifier "parameter name"
  match turns with
  | [] => return [param]
  | _ :: turns =>
    if ← accept .comma then
      return param :: (← parameters (count + 1) turns)
    else return [param]

def arguments (value : Parser Node) (count : Nat) (turns : List Token) : Parser (List Node) := do
  if maxArguments ≤ count then
    report (← peek) .tooManyArguments
  let argument ← value
  match turns with
  | [] => return [argument]
  | _ :: turns =>
    if ← accept .comma then
      return argument :: (← arguments value (count + 1) turns)
    else return [argument]

def declarations (declaration : Parser Node) : List Token → Parser (List Node)
  | [] => return []
  | _ :: turns => do
    if ← check .rightBrace then return []
    else if ← check .eof then return []
    else
      let first ← declaration
      return first :: (← declarations declaration turns)

def block (declaration : Parser Node) : Parser (List Node) := do
  let statements ← bounded (declarations declaration)
  let _ ← expect .rightBrace "'\x7d' after block"
  return statements

def functionDeclaration (declaration : Parser Node) : Parser Node := do
  let target ← expect .identifier "function name"
  let _ ← expect .leftParen "'(' after function name"
  let params ← if ← check .rightParen then pure [] else bounded (parameters 0)
  let _ ← expect .rightParen "')' after parameters"
  let _ ← expect .leftBrace "'\x7b' before function body"
  return .function target params (← block declaration)

/-- A variable after its keyword. Without a value it starts as nil. -/
def varDeclaration (expression : Parser Node) : Parser Node := do
  let target ← expect .identifier "variable name"
  let initial ← if ← accept .equal then expression else pure (impliedNil target.line)
  let _ ← expect .semicolon "';' after variable declaration"
  return .var target initial

def expressionStatement (expression : Parser Node) : Parser Node := do
  let value ← expression
  let _ ← expect .semicolon "';' after expression"
  return .expression value

def printStatement (expression : Parser Node) : Parser Node := do
  let value ← expression
  let _ ← expect .semicolon "';' after value"
  return .print value

/-- A missing else branch is an empty block. -/
def ifStatement (expression statement : Parser Node) : Parser Node := do
  let _ ← expect .leftParen "'(' after 'if'"
  let condition ← expression
  let _ ← expect .rightParen "')' after if condition"
  let thenBranch ← statement
  let elseBranch ← if ← accept .kwElse then statement else pure (.block [])
  return .ifElse condition thenBranch elseBranch

def whileStatement (expression statement : Parser Node) : Parser Node := do
  let _ ← expect .leftParen "'(' after 'while'"
  let condition ← expression
  let _ ← expect .rightParen "')' after while condition"
  return .loop condition (← statement)

def forInitializer (expression : Parser Node) : Parser Node := do
  if ← accept .semicolon then return .block []
  else if ← accept .kwVar then varDeclaration expression
  else expressionStatement expression

def forBlock (initializer condition increment body : Node) : Node :=
  .block [initializer, .loop condition (.block [body, .expression increment])]

/-- A missing condition is true, and a missing increment does nothing. -/
def forStatement (expression statement : Parser Node) : Parser Node := do
  let _ ← expect .leftParen "'(' after 'for'"
  let initializer ← forInitializer expression
  let condition ←
    if ← check .semicolon then pure (impliedTrue (← peek).line) else expression
  let _ ← expect .semicolon "';' after loop condition"
  let increment ←
    if ← check .rightParen then pure (impliedNil (← peek).line) else expression
  let _ ← expect .rightParen "')' after for clauses"
  return forBlock initializer condition increment (← statement)

def statementRule (declaration statement expression : Parser Node) : Parser Node := do
  if ← accept .kwIf then ifStatement expression statement
  else if ← accept .kwPrint then printStatement expression
  else if ← accept .kwWhile then whileStatement expression statement
  else if ← accept .kwFor then forStatement expression statement
  else if ← accept .leftBrace then return .block (← block declaration)
  else expressionStatement expression

def declarationRule (declaration statement expression : Parser Node) : Parser Node := do
  if ← accept .kwFun then functionDeclaration declaration
  else if ← accept .kwVar then varDeclaration expression
  else statement

/-- The levels of binary operators, from the loosest to the tightest. -/
inductive Level where
  | or | and | equality | comparison | term | factor
  deriving DecidableEq

namespace Level

def operators : Level → List Kind
  | .or => [.kwOr]
  | .and => [.kwAnd]
  | .equality => [.bangEqual, .equalEqual]
  | .comparison => [.greater, .greaterEqual, .less, .lessEqual]
  | .term => [.minus, .plus]
  | .factor => [.slash, .star]

def tighter? : Level → Option Level
  | .or => some .and
  | .and => some .equality
  | .equality => some .comparison
  | .comparison => some .term
  | .term => some .factor
  | .factor => none

def join (l : Level) (left : Node) (operator : Token) (right : Node) : Node :=
  match l with
  | .or | .and => .logical left operator right
  | _ => .binary left operator right

end Level

/-- Operators and operands after a first operand, grouped to the left. -/
def chainTail (level : Level) (operand : Parser Node) (left : Node) :
    List Token → Parser Node
  | [] => return left
  | _ :: turns => do
    match ← accept? level.operators with
    | none => return left
    | some operator =>
      let right ← operand
      chainTail level operand (level.join left operator right) turns

def chainRule (level : Level) (operand : Parser Node) : Parser Node := do
  let left ← operand
  bounded (chainTail level operand left)

/-- Assignment groups to the right. Whether the left side can be assigned to is only known, and
reported, once the value has been read. -/
def assignmentRule (assignment chain : Parser Node) : Parser Node := do
  let target ← chain
  match ← accept? [.equal] with
  | none => return target
  | some equals =>
    let value ← assignment
    match target with
    | .name token => return .assign token value
    | _ =>
      report equals .invalidTarget
      return target

def unaryRule (unary call : Parser Node) : Parser Node := do
  match ← accept? [.bang, .minus] with
  | some operator => return .unary operator (← unary)
  | none => call

def finishCall (expression : Parser Node) (callee : Node) : Parser Node := do
  let args ← if ← check .rightParen then pure [] else bounded (arguments expression 0)
  let paren ← expect .rightParen "')' after arguments"
  return .call callee paren args

def callTail (expression : Parser Node) (callee : Node) : List Token → Parser Node
  | [] => return callee
  | _ :: turns => do
    if ← accept .leftParen then
      callTail expression (← finishCall expression callee) turns
    else return callee

def callRule (expression primary : Parser Node) : Parser Node := do
  let callee ← primary
  bounded (callTail expression callee)

def literalKinds : List Kind := [.kwFalse, .kwTrue, .kwNil, .number, .string]

/-- A token that starts no expression is reported and passed over, and nil stands in for it. -/
def primaryRule (expression : Parser Node) : Parser Node := do
  if let some token ← accept? literalKinds then return .literal token
  else if let some token ← accept? [.identifier] then return .name token
  else if ← accept .leftParen then
    let inside ← expression
    let _ ← expect .rightParen "')' after expression"
    return .grouping inside
  else
    let token ← peek
    report token (.expected "expression")
    skip
    return impliedNil token.line

end Lox.Grammar
