import Lox.Fault

/-!
What literals and binary operators mean.
-/
namespace Lox

def Token.value (t : Token) : Except Fault Value :=
  match t.kind with
  | .kwTrue => .ok (.bool true)
  | .kwFalse => .ok (.bool false)
  | .kwNil => .ok .nil
  | .number | .string => .ok (Value.ofDatum t.place t.literal)
  | kind => .error (.defect (.literalKind kind))

def arithmetic? (kind : Kind) (x y : Number) : Option Value :=
  match kind with
  | .minus => some (.number (x.sub y))
  | .star => some (.number (x.mul y))
  | .slash => some (.number (x.div y))
  | .greater => some (.bool (y.less x))
  | .greaterEqual => some (.bool (y.lessEqual x))
  | .less => some (.bool (x.less y))
  | .lessEqual => some (.bool (x.lessEqual y))
  | _ => none

/-- Equality takes any values, addition two numbers or two strings, and whatever else stands as
an operator two numbers. -/
def applyBinary (operator : Token) (a b : Value) : Except Fault Value :=
  match operator.kind with
  | .plus =>
    match a, b with
    | .number x, .number y => .ok (.number (x.add y))
    | .string s, .string t => .ok (.string (s ++ t))
    | _, _ => .error (.error ⟨operator, .operandsNotAddable⟩)
  | .equalEqual => .ok (.bool (a.equal b))
  | .bangEqual => .ok (.bool (!a.equal b))
  | kind =>
    match a, b with
    | .number x, .number y =>
      match arithmetic? kind x y with
      | some v => .ok v
      | none => .error (.defect (.binaryOperator operator.lexeme))
    | _, _ => .error (.error ⟨operator, .operandsNotNumbers⟩)

def applyUnary (operator : Token) (a : Value) : Except Fault Value :=
  match operator.kind with
  | .minus =>
    match a with
    | .number x => .ok (.number x.negate)
    | _ => .error (.error ⟨operator, .operandNotNumber⟩)
  | .bang => .ok (.bool (!a.isTruthy))
  | _ => .error (.defect (.unaryOperator operator.lexeme))

end Lox
