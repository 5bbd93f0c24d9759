import Lox.Token
import Lox.Value

/-!
What a run lets the outside see: lines printed, lines of the trace, and diagnostics. A trace
entry belongs to a level of verbosity and is made only at that level or above.
-/
namespace Lox

inductive Trace where
  | function (name : Datum) (arity : Nat)
  | call (name : Datum) (arguments : List Value) (depth : Nat)
  | native (name : String)
  | declare (name : Datum) (value : Value)
  | assign (name : Datum) (value : Value)
  | ifCondition (value : Value)
  | whileCondition (value : Value)
  | token (t : Token)

namespace Trace

def level : Trace → Nat
  | .function .. | .call .. | .native .. => 1
  | .declare .. | .assign .. => 2
  | .ifCondition .. | .whileCondition .. => 3
  | .token .. => 4

def text : Trace → Text
  | .function name arity => "define function " ++ name.text ++ "/" ++ natText arity
  | .call name arguments depth =>
    "call " ++ name.text ++ "(" ++ Text.joinWith ", " (arguments.map Value.inspect)
      ++ ") at depth " ++ natText depth
  | .native name => "call native " ++ name
  | .declare name value =>
    "declare " ++ name.text ++ ": " ++ value.typeName ++ " = " ++ value.inspect
  | .assign name value => "assign " ++ name.text ++ " = " ++ value.inspect
  | .ifCondition value =>
    "if condition " ++ value.inspect ++ " -> " ++ (if value.isTruthy then "True" else "False")
  | .whileCondition value => "while condition " ++ value.inspect
  | .token t => "token " ++ t.text ++ " (line " ++ t.line.text ++ ")"

end Trace

inductive Event where
  | printed (line : Text)
  | traced (entry : Trace)
  | reported (d : Diagnostic)

namespace Event

/-- What an event writes to the output. Without a file of its own the trace is written there. -/
def output (traceFile : Bool) : Event → Text
  | .printed line => line ++ "\n"
  | .traced entry => if traceFile then "" else entry.text ++ "\n"
  | .reported _ => ""

def trace (traceFile : Bool) : Event → Text
  | .traced entry => if traceFile then entry.text ++ "\n" else ""
  | _ => ""

def diagnostic? : Event → Option Diagnostic
  | .reported d => some d
  | _ => none

end Event

end Lox
