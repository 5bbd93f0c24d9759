import Lox.Number.Decimal

/-!
Numerals. Source text and data files have strict ones, made of digits with a point and an
exponent. A number given as free text may have blanks around it, a sign, digits of any script,
underscores between digits, and names for the infinite values and NaN.
-/
namespace Lox.Text

/-- The code points that may stand around a numeral: the blanks of the basic alphabet, the next
line character and the separators of all scripts. -/
def isBlank (c : Char) : Bool :=
  let n := c.toNat
  decide (9 ≤ n ∧ n ≤ 13) || decide (0x2000 ≤ n ∧ n ≤ 0x200a)
    || [0x20, 0x85, 0xa0, 0x1680, 0x2028, 0x2029, 0x202f, 0x205f, 0x3000].contains n

def trim (text : List Char) : List Char :=
  ((text.dropWhile isBlank).reverse.dropWhile isBlank).reverse

def zeroDigits : List Nat :=
  [0x30, 0x660, 0x6f0, 0x7c0, 0x966, 0x9e6, 0xa66, 0xae6, 0xb66, 0xbe6, 0xc66, 0xce6, 0xd66,
   0xde6, 0xe50, 0xed0, 0xf20, 0x1040, 0x1090, 0x17e0, 0x1810, 0x1946, 0x19d0, 0x1a80, 0x1a90,
   0x1b50, 0x1bb0, 0x1c40, 0x1c50, 0xa620, 0xa8d0, 0xa900, 0xa9d0, 0xa9f0, 0xaa50, 0xabf0, 0xff10,
   0x104a0, 0x10d30, 0x11066, 0x110f0, 0x11136, 0x111d0, 0x112f0, 0x11450, 0x114d0, 0x11650,
   0x116c0, 0x11730, 0x118e0, 0x11950, 0x11c50, 0x11d50, 0x11da0, 0x16a60, 0x16ac0, 0x16b50,
   0x1d7ce, 0x1d7d8, 0x1d7e2, 0x1d7ec, 0x1d7f6, 0x1e140, 0x1e2f0, 0x1e950, 0x1fbf0]

def digitValue? (c : Char) : Option Nat :=
  (zeroDigits.find? fun start => decide (start ≤ c.toNat ∧ c.toNat < start + 10)).map (c.toNat - ·)

def isDigit (c : Char) : Bool := (digitValue? c).isSome

end Lox.Text

namespace Lox

def isAsciiDigit (c : Char) : Bool := decide ('0' ≤ c ∧ c ≤ '9')

def digitsValue (digits : List Char) : Nat :=
  digits.foldl (fun n c => 10 * n + (c.toNat - 48)) 0

def spanDigits (text : List Char) : List Char × List Char :=
  (text.takeWhile isAsciiDigit, text.dropWhile isAsciiDigit)

namespace Decimal

def ofDigits (whole fraction : List Char) (exponent : Int) : Decimal :=
  ⟨digitsValue (whole ++ fraction), exponent - fraction.length⟩

def exponent? : List Char → Option Int
  | '+' :: r => if r ≠ [] ∧ r.all isAsciiDigit then some (digitsValue r) else none
  | '-' :: r => if r ≠ [] ∧ r.all isAsciiDigit then some (-(digitsValue r : Int)) else none
  | r => if r ≠ [] ∧ r.all isAsciiDigit then some (digitsValue r) else none

def scale? : List Char → Option Int
  | [] => some 0
  | c :: r => if c = 'e' ∨ c = 'E' then exponent? r else none

/-- Reads a whole text as digits with an optional point and exponent. There is a digit before or
after the point. -/
def ofText? (text : List Char) : Option Decimal :=
  let (whole, r) := spanDigits text
  let (fraction, r) :=
    match r with
    | '.' :: r => spanDigits r
    | r => ([], r)
  if whole = [] ∧ fraction = [] then none
  else (scale? r).map (ofDigits whole fraction)

end Decimal

namespace Number

/-- Takes out the underscores, each of which must stand between two digits. -/
def joinGroups? : Char → List Char → Option (List Char)
  | _, [] => some []
  | last, '_' :: c :: r =>
    if isAsciiDigit last ∧ isAsciiDigit c then (joinGroups? c r).map (c :: ·) else none
  | _, c :: r => if c = '_' then none else (joinGroups? c r).map (c :: ·)

def plainDigit (c : Char) : Char :=
  match Text.digitValue? c with
  | some d => Char.ofNat (48 + d)
  | none => c

def textMagnitude? (text : List Char) : Option Nat :=
  let name := String.ofList (text.map Char.toLower)
  if name = "inf" ∨ name = "infinity" then some infinite
  else if name = "nan" then some nan.magnitude
  else (Decimal.ofText? text).map Decimal.magnitude

def ofText? (text : String) : Option Number := do
  let text ← joinGroups? ' ' ((Text.trim text.toList).map plainDigit)
  match text with
  | '+' :: r => (textMagnitude? r).map (ofMagnitude false)
  | '-' :: r => (textMagnitude? r).map (ofMagnitude true)
  | r => (textMagnitude? r).map (ofMagnitude false)

end Number

end Lox
