import Lox.Machine
import Lox.Machine.Operator

/-!
The evaluator. Blocks and calls run in a new frame below the current one, so a function sees the
variables of its caller. Fuel bounds the length of a run and `calls` the number of further calls
that may become active; running out of the first is no answer, of the second an error of the
program.
-/
namespace Lox

open Exec

def nativeResult (settings : Settings) (_name : String) (_arguments : List Value) : Value :=
  .number settings.now

def shortCircuits (operator : Token) (left : Value) : Bool :=
  if operator.kind = .kwOr then left.isTruthy else !left.isTruthy

mutual

/-- Runs a statement. Only an expression statement has a value other than nil. -/
def execute (settings : Settings) : (fuel calls : Nat) → Node → Exec Value
  | 0, _, _ => outOfFuel
  | fuel + 1, calls, node =>
    match node with
    | .expression value => evaluate settings fuel calls value
    | .print value => do
      let v ← evaluate settings fuel calls value
      print v.display
      return .nil
    | .var target initial => do
      let v ← evaluate settings fuel calls initial
      define target v
      trace settings (.declare target.lexeme v)
      return .nil
    | .block statements => do
      let _ ← inNewFrame (executeAll settings fuel calls .nil statements)
      return .nil
    | .ifElse condition thenBranch elseBranch => do
      let v ← evaluate settings fuel calls condition
      trace settings (.ifCondition v)
      let _ ← execute settings fuel calls (if v.isTruthy then thenBranch else elseBranch)
      return .nil
    | .loop condition body => iterate settings fuel calls condition body
    | .function target params body => do
      let id ← freshId
      define target (.function id ⟨target, params, body⟩)
      trace settings (.function target.lexeme params.length)
      return .nil
    | node => fail (.defect (.misplaced .statement node.label))

/-- Runs statements in order and gives the value of the last one, or `last` if there is none. -/
def executeAll (settings : Settings) : (fuel calls : Nat) → (last : Value) → List Node → Exec Value
  | 0, _, _, _ => outOfFuel
  | _ + 1, _, last, [] => pure last
  | fuel + 1, calls, _, first :: rest => do
    let v ← execute settings fuel calls first
    executeAll settings fuel calls v rest

def iterate (settings : Settings) : (fuel calls : Nat) → (condition body : Node) → Exec Value
  | 0, _, _, _ => outOfFuel
  | fuel + 1, calls, condition, body => do
    let v ← evaluate settings fuel calls condition
    trace settings (.whileCondition v)
    if v.isTruthy then
      let _ ← execute settings fuel calls body
      iterate settings fuel calls condition body
    else return .nil

def evaluate (settings : Settings) : (fuel calls : Nat) → Node → Exec Value
  | 0, _, _ => outOfFuel
  | fuel + 1, calls, node =>
    match node with
    | .literal token => ofExcept token.value
    | .grouping inside => evaluate settings fuel calls inside
    | .name token => lookup token
    | .assign target value => do
      let v ← evaluate settings fuel calls value
      assign target v
      trace settings (.assign target.lexeme v)
      return v
    | .unary operator right => do
      let v ← evaluate settings fuel calls right
      ofExcept (applyUnary operator v)
    | .logical left operator right => do
      let v ← evaluate settings fuel calls left
      if shortCircuits operator v then return v
      else evaluate settings fuel calls right
    | .binary left operator right => do
      let a ← evaluate settings fuel calls left
      let b ← evaluate settings fuel calls right
      ofExcept (applyBinary operator a b)
    | .call callee paren arguments => do
      let f ← evaluate settings fuel calls callee
      invoke settings fuel calls f paren arguments
    | node => fail (.defect (.misplaced .expression node.label))

def evaluateAll (settings : Settings) : (fuel calls : Nat) → List Node → Exec (List Value)
  | 0, _, _ => outOfFuel
  | _ + 1, _, [] => pure []
  | fuel + 1, calls, first :: rest => do
    let v ← evaluate settings fuel calls first
    return v :: (← evaluateAll settings fuel calls rest)

/-- Calls a value. A function checks the number of arguments before they are evaluated and
returns nil; a native takes any number. -/
def invoke (settings : Settings) : (fuel calls : Nat) → Value → Token → List Node → Exec Value
  | 0, _, _, _, _ => outOfFuel
  | fuel + 1, calls, callee, paren, arguments =>
    match callee with
    | .function _ f => do
      if arguments.length ≠ f.params.length then
        error paren (.arity f.params.length arguments.length)
      let values ← evaluateAll settings fuel calls arguments
      trace settings (.call f.name.lexeme values (← depth))
      match calls with
      | 0 => error paren .stackOverflow
      | calls + 1 =>
        let _ ← inNewFrame do
          bindAll f.params values
          executeAll settings fuel calls .nil f.body
        return .nil
    | .native _ name => do
      let values ← evaluateAll settings fuel calls arguments
      trace settings (.native name)
      return nativeResult settings name values
    | _ => error paren .notCallable

end

end Lox
