import Lox.Value

/-!
What can go wrong while a program runs. An error is the program's own, has a cause and is tied to
a token; a defect shows only with trees that no source text has.
-/
namespace Lox

inductive Cause where
  | undefinedVariable (name : Datum)
  | undefinedTarget (name : Datum)
  | operandNotNumber
  | operandsNotNumbers
  | operandsNotAddable
  | notCallable
  | arity (expected given : Nat)
  | stackOverflow
  deriving DecidableEq

def Cause.message : Cause → Text
  | .undefinedVariable name => "Variable '" ++ name.text ++ "' doesn't exist."
  | .undefinedTarget name => "Undefined variable '" ++ name.text ++ "'."
  | .operandNotNumber => "Operand must be a number"
  | .operandsNotNumbers => "Operands must be numbers"
  | .operandsNotAddable => "Operands must be two numbers or two strings"
  | .notCallable => "Can only call functions and classes."
  | .arity expected given =>
    "Expected " ++ natText expected ++ " arguments but got " ++ natText given ++ "."
  | .stackOverflow => "Stack overflow."

structure RuntimeError where
  token : Token
  cause : Cause
  deriving DecidableEq

inductive Role where
  | statement
  | expression
  | record
  deriving DecidableEq

def Role.complaint : Role → String
  | .statement => "execute: unexpected node type "
  | .expression => "evaluate: unexpected node type "
  | .record => "Unsupported AST node for serialization: "

inductive Defect where
  | misplaced (role : Role) (what : String)
  | unaryOperator (lexeme : Datum)
  | literalKind (kind : Kind)
  | binaryOperator (lexeme : Datum)
  | unusableName
  | notStatements
  | unwritableTrace
  deriving DecidableEq

def Defect.message? : Defect → Option Text
  | .misplaced role what => some (role.complaint ++ what)
  | .unaryOperator lexeme => some ("unsupported unary operator " ++ lexeme.text)
  | .literalKind kind => some ("literal holds illegal token type " ++ kind.name)
  | .binaryOperator lexeme => some ("unknown binary operator " ++ lexeme.text)
  | .unusableName | .notStatements | .unwritableTrace => none

def classLabel (name : String) : String := "<class '" ++ name ++ "'>"

def Node.label (n : Node) : String :=
  match n.form? with
  | some form => classLabel ("loxi.ast." ++ form.title)
  | none => classLabel "list"

def Value.label : Value → String
  | .nil => classLabel "loxi.types.NilVal"
  | .bool _ => classLabel "bool"
  | .number _ => classLabel "float"
  | .string _ => classLabel "str"
  | .function .. => classLabel "loxi.function_value.FunctionValue"
  | .native .. => classLabel "loxi.builtin_function.BuiltinFunction"
  | .foreign f _ => classLabel f.typeName

inductive Fault where
  | error (e : RuntimeError)
  | defect (d : Defect)
  deriving DecidableEq

end Lox
