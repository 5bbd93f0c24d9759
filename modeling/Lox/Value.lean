import Lox.Node

/-!
Run-time values. Functions and natives are compared by identity, which is a number given at
their creation. A token that was read from a file may carry data that is no value of the
language; such foreign data can be held, shown and tested, and takes part in no operation.
-/
namespace Lox

structure Declaration where
  name : Token
  params : List Token
  body : List Node

/-- Data that is no value of the language. -/
inductive Foreign where
  | null
  | int (n : Int)
  | list (items : List Datum)
  | object (fields : List (Text × Datum))

namespace Foreign

def datum : Foreign → Datum
  | .null => .null
  | .int n => .int n
  | .list items => .list items
  | .object fields => .object fields

def typeName : Foreign → String
  | .null => "NoneType"
  | .int _ => "int"
  | .list _ => "list"
  | .object _ => "dict"

end Foreign

inductive Value where
  | nil
  | bool (b : Bool)
  | number (x : Number)
  | string (s : Text)
  | function (id : Nat) (declaration : Declaration)
  | native (id : Nat) (name : String)
  | foreign (f : Foreign) (place : Place)

namespace Value

def ofDatum (place : Place) : Datum → Value
  | .bool b => .bool b
  | .num x => .number x
  | .str s => .string s
  | .null => .foreign .null place
  | .int n => .foreign (.int n) place
  | .list items => .foreign (.list items) place
  | .object fields => .foreign (.object fields) place

def typeName : Value → String
  | .nil => "nil"
  | .bool _ => "boolean"
  | .number _ => "number"
  | .string _ => "string"
  | .function .. => "function"
  | .native .. => "function"
  | .foreign f _ => f.typeName

def isCallable : Value → Bool
  | .function .. | .native .. => true
  | _ => false

/-- Only nil and false count as false. -/
def isTruthy : Value → Bool
  | .nil => false
  | .bool b => b
  | _ => true

/-- Equality never converts: values of different kinds differ. Foreign data is the same only if
it comes from the same place. -/
def equal : Value → Value → Bool
  | .nil, .nil => true
  | .bool a, .bool b => a == b
  | .number x, .number y => x.equal y
  | .string s, .string t => s == t
  | .function i _, .function j _ => i == j
  | .native i _, .native j _ => i == j
  | .foreign f p, .foreign g q => p == q && f.datum == g.datum
  | _, _ => false

def display : Value → Text
  | .nil => "nil"
  | .bool b => if b then "true" else "false"
  | .number x => x.display
  | .string s => s
  | .function .. => "<fn>"
  | .native .. => "<native fn>"
  | .foreign f _ => f.datum.text

/-- The text that the prompt and the trace write. -/
def inspect : Value → Text
  | .string s => "\"" ++ s ++ "\""
  | .function .. => "<function>"
  | v => v.display

end Value

end Lox
