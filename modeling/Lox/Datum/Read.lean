import Lox.Datum
import Lox.Number.Numeral

/-!
Reading data files. The text of one datum, with blanks around it and nothing else, is accepted;
the values without digits may be named. Text that is malformed fails with what was expected and
how much text was left there, and so does a whole number of too many digits. A reader that is in
too many lists and objects at once has to give up.
-/
namespace Lox.Datum

inductive ReadFault where
  | value
  | propertyName
  | colon
  | comma
  | extraData
  | unterminated
  | escape
  | unicodeEscape
  | control
  | byteOrderMark
  deriving DecidableEq

def ReadFault.text : ReadFault → String
  | .value => "Expecting value"
  | .propertyName => "Expecting property name enclosed in double quotes"
  | .colon => "Expecting ':' delimiter"
  | .comma => "Expecting ',' delimiter"
  | .extraData => "Extra data"
  | .unterminated => "Unterminated string starting at"
  | .escape => "Invalid \\escape"
  | .unicodeEscape => "Invalid \\uXXXX escape"
  | .control => "Invalid control character at"
  | .byteOrderMark => "Unexpected UTF-8 BOM (decode using utf-8-sig)"

/-- How many digits a whole number may have, and how many lists and objects the reader may be in
at once. -/
structure Limits where
  digits : Nat
  nesting : Nat

inductive ReadError where
  /-- With the number of characters from there to the end. -/
  | malformed (fault : ReadFault) (left : Nat)
  | tooManyDigits (count limit : Nat)
  | tooDeep
  deriving DecidableEq

/-- What is said about an error; nothing about having to give up. A fault comes with line, column
and offset in the text that was read. -/
def ReadError.message? (text : List Char) : ReadError → Option String
  | .malformed fault left =>
    let before := text.take (text.length - left)
    let column := (before.reverse.takeWhile (· ≠ '\n')).length + 1
    some (fault.text ++ ": line " ++ natText (before.count '\n' + 1) ++ " column "
      ++ natText column ++ " (char " ++ natText before.length ++ ")")
  | .tooManyDigits count limit =>
    some ("Exceeds the limit (" ++ natText limit ++ " digits) for integer string conversion: "
      ++ "value has " ++ natText count
      ++ " digits; use sys.set_int_max_str_digits() to increase the limit")
  | .tooDeep => none

def fail {α : Type} (fault : ReadFault) (rest : List Char) : Except ReadError α :=
  .error (.malformed fault rest.length)

def isSpace (c : Char) : Bool := c = ' ' || c = '\t' || c = '\n' || c = '\r'

def skipSpace (text : List Char) : List Char := text.dropWhile isSpace

def hexValue? (c : Char) : Option Nat :=
  if '0' ≤ c ∧ c ≤ '9' then some (c.toNat - 48)
  else if 'a' ≤ c ∧ c ≤ 'f' then some (c.toNat - 87)
  else if 'A' ≤ c ∧ c ≤ 'F' then some (c.toNat - 55)
  else none

def hexCode? (a b c d : Char) : Option Nat := do
  return ((← hexValue? a) * 16 + (← hexValue? b)) * 256 + (← hexValue? c) * 16 + (← hexValue? d)

def simpleEscape? (c : Char) : Option Char :=
  if c = '"' ∨ c = '\\' ∨ c = '/' then some c
  else if c = 'b' then some (Char.ofNat 8)
  else if c = 'f' then some (Char.ofNat 12)
  else if c = 'n' then some '\n'
  else if c = 'r' then some '\r'
  else if c = 't' then some '\t'
  else none

def isHighSurrogate (n : Nat) : Bool := decide (0xd800 ≤ n ∧ n < 0xdc00)

def isLowSurrogate (n : Nat) : Bool := decide (0xdc00 ≤ n ∧ n < 0xe000)

/-- Reads to the closing quote. The two halves of a surrogate pair have to follow each other to
make a character. `start` is the length of the text from the opening quote on. -/
def readPoints (start : Nat) : List Char → Except ReadError (List Point × List Char)
  | [] => .error (.malformed .unterminated start)
  | '"' :: r => .ok ([], r)
  | ['\\'] => .error (.malformed .unterminated start)
  | '\\' :: 'u' :: a :: b :: c :: d :: r =>
    match hexCode? a b c d with
    | none => fail .unicodeEscape ('u' :: a :: b :: c :: d :: r)
    | some high =>
      match r with
      | [] => fail .unicodeEscape ('u' :: a :: b :: c :: d :: r)
      | '\\' :: 'u' :: e :: f :: g :: h :: q :: r' =>
        if isHighSurrogate high then
          match hexCode? e f g h with
          | none => fail .unicodeEscape ('u' :: e :: f :: g :: h :: q :: r')
          | some low =>
            if isLowSurrogate low then do
              let (cs, rest) ← readPoints start (q :: r')
              return (Point.ofCode (0x10000 + (high - 0xd800) * 0x400 + (low - 0xdc00)) :: cs, rest)
            else do
              let (cs, rest) ← readPoints start ('\\' :: 'u' :: e :: f :: g :: h :: q :: r')
              return (Point.ofCode high :: cs, rest)
        else do
          let (cs, rest) ← readPoints start ('\\' :: 'u' :: e :: f :: g :: h :: q :: r')
          return (Point.ofCode high :: cs, rest)
      | x :: r => do
        let (cs, rest) ← readPoints start (x :: r)
        return (Point.ofCode high :: cs, rest)
  | '\\' :: x :: r =>
    if x = 'u' then fail .unicodeEscape (x :: r)
    else
      match simpleEscape? x with
      | none => fail .escape ('\\' :: x :: r)
      | some c => do
        let (cs, rest) ← readPoints start r
        return (.char c :: cs, rest)
  | c :: r =>
    if c.toNat < 32 then fail .control (c :: r)
    else do
      let (cs, rest) ← readPoints start r
      return (.char c :: cs, rest)

def readString (r : List Char) : Except ReadError (Text × List Char) := do
  let (points, rest) ← readPoints (r.length + 1) r
  return (Text.ofPoints points, rest)

def names : List (List Char × Datum) :=
  [("null".toList, .null), ("true".toList, .bool true), ("false".toList, .bool false),
    ("NaN".toList, .num Number.nan),
    ("Infinity".toList, .num (Number.ofMagnitude false Number.infinite)),
    ("-Infinity".toList, .num (Number.ofMagnitude true Number.infinite))]

def readName? (text : List Char) : Option (Datum × List Char) :=
  (names.find? fun (name, _) => name.isPrefixOf text).map
    fun (name, value) => (value, text.drop name.length)

/-- The digits of the whole part: a zero alone, or digits that do not start with one. -/
def readWhole? : List Char → Option (List Char × List Char)
  | '0' :: r => some (['0'], r)
  | text =>
    let (digits, r) := spanDigits text
    if digits = [] then none else some (digits, r)

def readFraction : List Char → List Char × List Char
  | '.' :: r =>
    let (digits, rest) := spanDigits r
    if digits = [] then ([], '.' :: r) else (digits, rest)
  | r => ([], r)

def readExponent : List Char → Option (Int × List Char)
  | [] => none
  | mark :: r =>
    if mark = 'e' ∨ mark = 'E' then
      let (negative, r) :=
        match r with
        | '+' :: r => (false, r)
        | '-' :: r => (true, r)
        | r => (false, r)
      let (digits, rest) := spanDigits r
      if digits = [] then none
      else some (if negative then -(digitsValue digits : Int) else digitsValue digits, rest)
    else none

/-- Reads a number. Without point and exponent it is a whole number. -/
def readNumber? (text : List Char) : Option (Datum × List Char) := do
  let (negative, r) :=
    match text with
    | '-' :: r => (true, r)
    | r => (false, r)
  let (whole, r) ← readWhole? r
  let (fraction, r) := readFraction r
  match readExponent r with
  | some (exponent, r) =>
    return (.num (Number.ofDecimal negative (Decimal.ofDigits whole fraction exponent)), r)
  | none =>
    if fraction = [] then
      return (.int (if negative then -(digitsValue whole : Int) else digitsValue whole), r)
    else return (.num (Number.ofDecimal negative (Decimal.ofDigits whole fraction 0)), r)

/-- Passes on a number unless it is a whole one of too many digits. -/
def permit (limit : Nat) (found : Datum × List Char) : Except ReadError (Datum × List Char) :=
  match found.1 with
  | .int n =>
    let count := (natDigits n.natAbs).length
    if limit < count then .error (.tooManyDigits count limit) else .ok found
  | _ => .ok found

mutual

/-- Reads one datum with room for some lists and objects within each other. The fuel bounds the
nesting and the number of items. -/
def readValue (digits : Nat) : (room fuel : Nat) → List Char → Except ReadError (Datum × List Char)
  | _, 0, text => fail .value text
  | room, fuel + 1, text =>
    match text with
    | '"' :: r => do
      let (s, rest) ← readString r
      return (.str s, rest)
    | '[' :: r =>
      match room with
      | 0 => .error .tooDeep
      | room + 1 =>
        match skipSpace r with
        | ']' :: rest => return (.list [], rest)
        | r => do
          let (items, rest) ← readItems digits room fuel r
          return (.list items, rest)
    | '{' :: r =>
      match room with
      | 0 => .error .tooDeep
      | room + 1 =>
        match skipSpace r with
        | '}' :: rest => return (.object [], rest)
        | r => do
          let (fields, rest) ← readFields digits room fuel [] r
          return (.object fields, rest)
    | text =>
      match readName? text with
      | some found => return found
      | none =>
        match readNumber? text with
        | some found => permit digits found
        | none => fail .value text

def readItems (digits : Nat) :
    (room fuel : Nat) → List Char → Except ReadError (List Datum × List Char)
  | _, 0, text => fail .value text
  | room, fuel + 1, text => do
    let (item, r) ← readValue digits room fuel text
    match skipSpace r with
    | ']' :: rest => return ([item], rest)
    | ',' :: r => do
      let (items, rest) ← readItems digits room fuel (skipSpace r)
      return (item :: items, rest)
    | r => fail .comma r

def readFields (digits : Nat) : (room fuel : Nat) → List (Text × Datum) → List Char →
    Except ReadError (List (Text × Datum) × List Char)
  | _, 0, _, text => fail .value text
  | room, fuel + 1, before, text => do
    match text with
    | '"' :: r => do
      let (key, r) ← readString r
      match skipSpace r with
      | ':' :: r => do
        let (value, r) ← readValue digits room fuel (skipSpace r)
        let fields := insertField key value before
        match skipSpace r with
        | '}' :: rest => return (fields, rest)
        | ',' :: r => readFields digits room fuel fields (skipSpace r)
        | r => fail .comma r
      | r => fail .colon r
    | r => fail .propertyName r

end

def read (limits : Limits) (text : List Char) : Except ReadError Datum := do
  if text.head? = some (Char.ofNat 0xfeff) then fail .byteOrderMark text
  let (value, r) ← readValue limits.digits limits.nesting (2 * text.length + 2) (skipSpace text)
  match skipSpace r with
  | [] => return value
  | rest => fail .extraData rest

end Lox.Datum
