import Lox.Number

/-!
Decimal fractions, the number nearest to one, and the shortest decimal of a number. All work is on
whole numbers: a magnitude stands for a whole multiple of the smallest positive number, and the
magnitude of infinity for the first power of two that is out of range. For the shortest decimal a
value is compared with its two neighbours on the grid of decimals with one digit, then with two,
and so on; seventeen always suffice, and the exact expansion stands behind them.
-/
namespace Lox

/-- The value `digits * 10 ^ exponent`. -/
structure Decimal where
  digits : Nat
  exponent : Int
  deriving DecidableEq

namespace Number

/-- The value of a magnitude, counted in units of `2 ^ -1074`. -/
def units (magnitude : Nat) : Nat :=
  if magnitude / Nat.pow 2 52 = 0 then magnitude
  else (Nat.pow 2 52 + magnitude % Nat.pow 2 52) * Nat.pow 2 (magnitude / Nat.pow 2 52 - 1)

def oneInUnits : Nat := Nat.pow 2 1074

/-- The greatest magnitude, up to infinity, whose units do not exceed `n`. -/
def floorMagnitude (n : Nat) : Nat :=
  let shift := n.log2 - 52
  min infinite (shift * Nat.pow 2 52 + n / Nat.pow 2 shift)

/-- The magnitude nearest to `n / d` units; of two equally near ones the even one. -/
def nearest (n d : Nat) : Nat :=
  let low := floorMagnitude (n / d)
  if low = infinite then infinite
  else
    match compare (2 * n) ((units low + units (low + 1)) * d) with
    | .lt => low
    | .gt => low + 1
    | .eq => low + low % 2

end Number

namespace Decimal

/-- The number of decimal digits of `n`, where zero has none. -/
def width (n : Nat) : Nat := if n = 0 then 0 else width (n / 10) + 1

/-- The magnitude nearest to a decimal. Powers of ten far out of range are settled without
computing them. -/
def magnitude (x : Decimal) : Nat :=
  if x.digits = 0 then 0
  else if 400 < x.exponent then Number.infinite
  else if x.exponent + width x.digits < -400 then 0
  else
    match x.exponent with
    | .ofNat e => Number.nearest (x.digits * Nat.pow 10 e * Number.oneInUnits) 1
    | .negSucc e => Number.nearest (x.digits * Number.oneInUnits) (Nat.pow 10 (e + 1))

end Decimal

namespace Number

def ofDecimal (negative : Bool) (x : Decimal) : Number := ofMagnitude negative x.magnitude

def ofInt? (n : Int) : Option Number :=
  let magnitude := Decimal.magnitude ⟨n.natAbs, 0⟩
  if magnitude = infinite then none else some (ofMagnitude (decide (n < 0)) magnitude)

end Number

namespace Decimal

/-- Moves trailing zeros of the digits into the exponent, looking at no more than `fuel`. -/
def normal : Nat → Decimal → Decimal
  | 0, x => x
  | fuel + 1, x =>
    if x.digits % 10 = 0 then normal fuel ⟨x.digits / 10, x.exponent + 1⟩ else x

def leading (magnitude : Nat) : Int :=
  (width (Number.units magnitude * Nat.pow 10 400 / Number.oneInUnits) : Int) - 401

def overPower (magnitude : Nat) : Int → Nat × Nat
  | .ofNat e => (Number.units magnitude, Number.oneInUnits * Nat.pow 10 e)
  | .negSucc e => (Number.units magnitude * Nat.pow 10 (e + 1), Number.oneInUnits)

/-- The two neighbours on the grid of `10 ^ exponent`, the nearer one first. -/
def neighbours (magnitude : Nat) (exponent : Int) : List Decimal :=
  let (n, d) := overPower magnitude exponent
  let low := n / d
  let below : Decimal := ⟨low, exponent⟩
  let above : Decimal := ⟨low + 1, exponent⟩
  match compare (2 * (n % d)) d with
  | .lt => [below, above]
  | .gt => [above, below]
  | .eq => if low % 2 = 0 then [below, above] else [above, below]

def exact (magnitude : Nat) : Decimal := ⟨Number.units magnitude * Nat.pow 5 1074, -1074⟩

/-- The nearer of the two neighbours with this many digits that reads back. -/
def withDigits? (magnitude count : Nat) : Option Decimal :=
  (neighbours magnitude (leading magnitude - count + 1)).find?
    fun x => decide (x.magnitude = magnitude)

def shortest (magnitude : Nat) : Decimal :=
  let x := ((List.range' 1 17).findSome? (withDigits? magnitude)).getD (exact magnitude)
  normal (width x.digits) x

end Decimal

end Lox
