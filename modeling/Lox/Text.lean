/-!
Text. Source text and messages are made of characters. An escape in a data file can also name
half of a surrogate pair; text keeps such a half as it is, so that it equals only itself, and two
halves that come to stand side by side stay two. A text is given by its code points, and has one
form: `plain` if all of them are characters, else `broken`.
-/
namespace Lox

/-- A character, or half of a surrogate pair on its own. -/
inductive Point where
  | char (c : Char)
  | half (n : Fin 0x800)
  deriving DecidableEq

namespace Point

def code : Point → Nat
  | .char c => c.toNat
  | .half n => 0xd800 + n

def ofCode (n : Nat) : Point :=
  if h : 0xd800 ≤ n ∧ n < 0xe000 then .half ⟨n - 0xd800, by omega⟩ else .char (Char.ofNat n)

def shown : Point → Char
  | .char c => c
  | .half _ => Char.ofNat 0xfffd

def isHalf : Point → Bool
  | .char _ => false
  | .half _ => true

end Point

inductive Text where
  | plain (s : String)
  | broken (points : List Point) (h : points.any Point.isHalf = true)
  deriving DecidableEq

namespace Text

instance : Coe String Text := ⟨plain⟩

instance : Inhabited Text := ⟨plain ""⟩

def ofChars (cs : List Char) : Text := plain (String.ofList cs)

def points : Text → List Point
  | .plain s => s.toList.map .char
  | .broken points _ => points

def ofPoints (points : List Point) : Text :=
  if h : points.any Point.isHalf = true then broken points h else ofChars (points.map Point.shown)

def string? : Text → Option String
  | .plain s => some s
  | .broken .. => none

/-- Whether a text can be written to a file: halves of pairs cannot. -/
def isWhole : Text → Bool
  | .plain _ => true
  | .broken .. => false

protected def append : Text → Text → Text
  | .plain a, .plain b => plain (a ++ b)
  | a, b => ofPoints (a.points ++ b.points)

instance : Append Text := ⟨Text.append⟩

def join (ts : List Text) : Text := ts.foldl (· ++ ·) (plain "")

def joinWith (between : Text) : List Text → Text
  | [] => plain ""
  | [t] => t
  | t :: r => t ++ between ++ joinWith between r

@[simp] theorem points_plain (s : String) : (plain s).points = s.toList.map .char := rfl

@[simp] theorem points_ofPoints (points : List Point) : (ofPoints points).points = points := by
  unfold ofPoints
  split
  · rfl
  · rename_i h
    simp only [ofChars, points_plain, String.toList_ofList, List.map_map]
    refine (List.map_congr_left fun p hp => ?_).trans (List.map_id points)
    cases p with
    | char c => rfl
    | half n => exact absurd (List.any_eq_true.2 ⟨.half n, hp, rfl⟩) h

/-- A text is determined by its code points. -/
theorem eq_of_points {a b : Text} (h : a.points = b.points) : a = b := by
  have none (s : String) : ¬(s.toList.map Point.char).any Point.isHalf = true := by
    simp [Point.isHalf]
  cases a with
  | plain s =>
    cases b with
    | plain t =>
      have hst : s.toList = t.toList :=
        List.map_inj_right (fun _ _ h => Point.char.inj h) |>.1 h
      rw [String.toList_inj.1 hst]
    | broken points hb =>
      rw [points_plain] at h
      exact absurd (h ▸ hb) (none s)
  | broken points ha =>
    cases b with
    | plain t =>
      rw [points_plain] at h
      exact absurd (h ▸ ha) (none t)
    | broken points' hb =>
      cases (show points = points' from h)
      rfl

@[simp] theorem plain_append (a b : String) : plain a ++ plain b = plain (a ++ b) := rfl

@[simp] theorem points_append (a b : Text) : (a ++ b).points = a.points ++ b.points := by
  cases a with
  | plain s =>
    cases b with
    | plain t => simp
    | broken points h => exact points_ofPoints _
  | broken points h => exact points_ofPoints _

end Text

end Lox
