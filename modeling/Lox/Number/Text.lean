import Lox.Number.Decimal

/-!
How numbers are written. Programs show a number without an exponent, whole numbers as all their
digits. Data files write the shortest digits, positionally from `1e-4` up to below `1e16` and
with a signed exponent of at least two digits elsewhere.
-/
namespace Lox

def digitChar (d : Nat) : Char := Char.ofNat (48 + d)

def natDigits (n : Nat) : List Char :=
  if n < 10 then [digitChar n] else natDigits (n / 10) ++ [digitChar (n % 10)]

def natText (n : Nat) : String := String.ofList (natDigits n)

def intText (n : Int) : String := if n < 0 then "-" ++ natText n.natAbs else natText n.natAbs

namespace Decimal

/-- The integer part and the fraction of a decimal, the fraction empty for a whole number. -/
def parts (x : Decimal) : List Char × List Char :=
  let digits := natDigits x.digits
  match x.exponent with
  | .ofNat e => (digits ++ List.replicate e '0', [])
  | .negSucc e =>
    if e + 1 < digits.length then
      (digits.take (digits.length - (e + 1)), digits.drop (digits.length - (e + 1)))
    else (['0'], List.replicate (e + 1 - digits.length) '0' ++ digits)

def positional (x : Decimal) : List Char :=
  match x.parts with
  | (whole, []) => whole
  | (whole, fraction) => whole ++ '.' :: fraction

/-- One digit before the point, and a signed exponent of at least two digits. -/
def scientific (x : Decimal) : List Char :=
  let digits := natDigits x.digits
  let exponent := x.exponent + digits.length - 1
  let size := natDigits exponent.natAbs
  digits.take 1 ++ (if digits.length = 1 then [] else '.' :: digits.drop 1)
    ++ 'e' :: (if exponent < 0 then '-' else '+') :: (if size.length = 1 then '0' :: size else size)

/-- Positional with at least one digit after the point, or scientific for the very small and
the large. -/
def literal (x : Decimal) : List Char :=
  let first := x.exponent + (natDigits x.digits).length - 1
  if -4 ≤ first ∧ first < 16 then
    match x.parts with
    | (whole, []) => whole ++ ['.', '0']
    | (whole, fraction) => whole ++ '.' :: fraction
  else x.scientific

end Decimal

namespace Number

def signed (x : Number) (text : List Char) : List Char := if x.negative then '-' :: text else text

def displayMagnitude (magnitude : Nat) : List Char :=
  if units magnitude % oneInUnits = 0 then natDigits (units magnitude / oneInUnits)
  else (Decimal.shortest magnitude).positional

def display (x : Number) : String :=
  if x.isNaN then "NaN"
  else if x.isInfinite then String.ofList (x.signed ['i', 'n', 'f'])
  else String.ofList (x.signed (displayMagnitude x.magnitude))

/-- The names that a data format gives to the values that have no digits. -/
structure SpecialNames where
  nan : String
  infinity : String

def dataText (names : SpecialNames) (x : Number) : String :=
  if x.isNaN then names.nan
  else if x.isInfinite then String.ofList (x.signed names.infinity.toList)
  else if x.isZero then String.ofList (x.signed ['0', '.', '0'])
  else String.ofList (x.signed (Decimal.shortest x.magnitude).literal)

end Number

end Lox
