import Lox.Datum
import Lox.Number.Text
import Lox.Text.Quoted

/-!
Data files as they are written: one field or item a line, two blanks for each level, text with
only quotes, backslashes and controls escaped.
-/
namespace Lox.Datum

def fileNames : Number.SpecialNames := ⟨"NaN", "Infinity"⟩

def escapeChar (c : Char) : List Char :=
  if c = '"' ∨ c = '\\' then ['\\', c]
  else if c = '\n' then ['\\', 'n']
  else if c = '\r' then ['\\', 'r']
  else if c = '\t' then ['\\', 't']
  else if c.toNat = 8 then ['\\', 'b']
  else if c.toNat = 12 then ['\\', 'f']
  else if c.toNat < 32 then '\\' :: 'u' :: Text.hexDigits 4 c.toNat
  else [c]

def escape : Point → List Point
  | .char c => (escapeChar c).map .char
  | .half n => [.half n]

def writeString (s : Text) : Text := "\"" ++ Text.ofPoints (s.points.flatMap escape) ++ "\""

def newline (level : Nat) : Text := Text.ofChars ('\n' :: List.replicate (2 * level) ' ')

mutual

def write (level : Nat) : Datum → Text
  | .null => "null"
  | .bool true => "true"
  | .bool false => "false"
  | .int n => intText n
  | .num x => x.dataText fileNames
  | .str s => writeString s
  | .list [] => "[]"
  | .list items => "[" ++ writeItems (level + 1) items ++ newline level ++ "]"
  | .object [] => "\x7b\x7d"
  | .object fields => "\x7b" ++ writeFields (level + 1) fields ++ newline level ++ "\x7d"

def writeItems (level : Nat) : List Datum → Text
  | [] => ""
  | [d] => newline level ++ write level d
  | d :: r => newline level ++ write level d ++ "," ++ writeItems level r

def writeFields (level : Nat) : List (Text × Datum) → Text
  | [] => ""
  | [(k, d)] => newline level ++ writeString k ++ ": " ++ write level d
  | (k, d) :: r =>
    newline level ++ writeString k ++ ": " ++ write level d ++ "," ++ writeFields level r

end

end Lox.Datum
