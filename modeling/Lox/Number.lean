/-!
Numbers are binary64 values, kept as their sixty-four bits. Sign, order, equality and negation
are read off the bits; the four operations are the ones of the hardware.
-/
namespace Lox

structure Number where
  bits : UInt64
  deriving DecidableEq

namespace Number

/-- The bits below the sign. They grow with the absolute value. -/
def magnitude (x : Number) : Nat := x.bits.toNat % Nat.pow 2 63

/-- The sign bit, which is also set for the negative zero. -/
def negative (x : Number) : Bool := decide (Nat.pow 2 63 ≤ x.bits.toNat)

/-- The magnitude of both infinities. Larger magnitudes are not numbers. -/
def infinite : Nat := 2047 * Nat.pow 2 52

def ofMagnitude (negative : Bool) (magnitude : Nat) : Number :=
  ⟨UInt64.ofNat (magnitude + if negative then Nat.pow 2 63 else 0)⟩

def isNaN (x : Number) : Bool := decide (infinite < x.magnitude)

def isInfinite (x : Number) : Bool := decide (x.magnitude = infinite)

def isFinite (x : Number) : Bool := decide (x.magnitude < infinite)

def isZero (x : Number) : Bool := decide (x.magnitude = 0)

/-- Orders everything but the NaNs, and gives both zeros the same place. -/
def rank (x : Number) : Int := if x.negative then -(x.magnitude : Int) else x.magnitude

/-- Equality of values: a NaN equals nothing, and the two zeros are equal. -/
def equal (x y : Number) : Bool := !x.isNaN && !y.isNaN && decide (x.rank = y.rank)

def less (x y : Number) : Bool := !x.isNaN && !y.isNaN && decide (x.rank < y.rank)

def lessEqual (x y : Number) : Bool := !x.isNaN && !y.isNaN && decide (x.rank ≤ y.rank)

def zero : Number := ⟨0⟩

def one : Number := ⟨0x3ff0000000000000⟩

def nan : Number := ⟨0x7ff8000000000000⟩

def negate (x : Number) : Number := ofMagnitude (!x.negative) x.magnitude

def toFloat (x : Number) : Float := Float.ofBits x.bits

def ofFloat (x : Float) : Number := ⟨x.toBits⟩

def add (x y : Number) : Number := ofFloat (x.toFloat + y.toFloat)

def sub (x y : Number) : Number := ofFloat (x.toFloat - y.toFloat)

def mul (x y : Number) : Number := ofFloat (x.toFloat * y.toFloat)

/-- A nonzero number over a zero is infinite with the product of the signs; zero over zero is a
NaN. -/
def div (x y : Number) : Number := ofFloat (x.toFloat / y.toFloat)

end Number

end Lox
