import Lox.Number.Text
import Lox.Text.Quoted

/-!
Data as files hold it: null, booleans, whole numbers, binary64 numbers, text, lists, and objects
whose fields keep their order. Messages show data with text in quotes, lists in brackets, objects
in braces, and capitalised names for null and the booleans.
-/
namespace Lox

inductive Datum where
  | null
  | bool (b : Bool)
  | int (n : Int)
  | num (x : Number)
  | str (s : Text)
  | list (items : List Datum)
  | object (fields : List (Text × Datum))
  deriving Inhabited

inductive Turn where
  | field (key : Text)
  | item (index : Nat)
  deriving DecidableEq

/-- The way from the top of a file to a datum in it, the last turn first. -/
abbrev Place := List Turn

namespace Datum

mutual

def same : Datum → Datum → Bool
  | .null, .null => true
  | .bool a, .bool b => a == b
  | .int a, .int b => a == b
  | .num a, .num b => a == b
  | .str a, .str b => a == b
  | .list a, .list b => sameItems a b
  | .object a, .object b => sameFields a b
  | _, _ => false

def sameItems : List Datum → List Datum → Bool
  | [], [] => true
  | a :: r, b :: s => same a b && sameItems r s
  | _, _ => false

def sameFields : List (Text × Datum) → List (Text × Datum) → Bool
  | [], [] => true
  | (k, a) :: r, (l, b) :: s => k == l && same a b && sameFields r s
  | _, _ => false

end

mutual

theorem same_iff : ∀ a b : Datum, same a b = true ↔ a = b
  | .null, b => by cases b <;> simp [same]
  | .bool _, b => by cases b <;> simp [same]
  | .int _, b => by cases b <;> simp [same]
  | .num _, b => by cases b <;> simp [same]
  | .str _, b => by cases b <;> simp [same]
  | .list xs, b => by cases b <;> simp [same, sameItems_iff xs]
  | .object fs, b => by cases b <;> simp [same, sameFields_iff fs]

theorem sameItems_iff : ∀ a b : List Datum, sameItems a b = true ↔ a = b
  | [], b => by cases b <;> simp [sameItems]
  | x :: r, b => by cases b <;> simp [sameItems, same_iff x, sameItems_iff r]

theorem sameFields_iff : ∀ a b : List (Text × Datum), sameFields a b = true ↔ a = b
  | [], b => by cases b <;> simp [sameFields]
  | (k, x) :: r, b => by
    rcases b with _ | ⟨⟨l, y⟩, s⟩ <;>
      simp [sameFields, same_iff x, sameFields_iff r, and_assoc]

end

instance : DecidableEq Datum := fun a b => decidable_of_iff _ (same_iff a b)

/-- Whether equal data in a file are one and the same. Lists and objects are made anew wherever
they stand, and so are whole numbers that are not small. -/
def isShared : Datum → Bool
  | .int n => decide (-5 ≤ n ∧ n ≤ 256)
  | .list _ | .object _ => false
  | _ => true

/-- The last field of an object to have a name is the one that counts; it stands where the first
one stood. -/
def insertField (key : Text) (value : Datum) : List (Text × Datum) → List (Text × Datum)
  | [] => [(key, value)]
  | (k, v) :: r => if k = key then (k, value) :: r else (k, v) :: insertField key value r

mutual

def height : Datum → Nat
  | .list items => heightItems items + 1
  | .object fields => heightFields fields + 1
  | _ => 1

def heightItems : List Datum → Nat
  | [] => 0
  | d :: r => max (height d) (heightItems r)

def heightFields : List (Text × Datum) → Nat
  | [] => 0
  | (_, d) :: r => max (height d) (heightFields r)

end

def field? {α : Type} (fields : List (Text × α)) (key : String) : Option α :=
  fields.lookup (key : Text)

def shownNames : Number.SpecialNames := ⟨"nan", "inf"⟩

mutual

def shown : Datum → String
  | .null => "None"
  | .bool true => "True"
  | .bool false => "False"
  | .int n => intText n
  | .num x => x.dataText shownNames
  | .str s => Text.quoted s
  | .list items => "[" ++ shownItems items ++ "]"
  | .object fields => "\x7b" ++ shownFields fields ++ "\x7d"

def shownItems : List Datum → String
  | [] => ""
  | [d] => shown d
  | d :: r => shown d ++ ", " ++ shownItems r

def shownFields : List (Text × Datum) → String
  | [] => ""
  | [(k, d)] => Text.quoted k ++ ": " ++ shown d
  | (k, d) :: r => Text.quoted k ++ ": " ++ shown d ++ ", " ++ shownFields r

end

def text : Datum → Text
  | .str s => s
  | d => shown d

end Datum

end Lox
