import Lox.Value

/-!
The store of scope frames. A frame binds names and may have a parent; a frame is always younger
than its parent, so that every chain of parents ends. Looking up and assigning walk the chain
outwards, and defining binds in the frame itself.
-/
namespace Lox

/-- A name under which a value can be bound. Programs have texts; a tree from a file may use
null or a number. -/
inductive Name where
  | text (s : Text)
  | whole (n : Int)
  | fraction (x : Number)
  | null
  deriving DecidableEq

namespace Name

def shown : Name → Datum
  | .text s => .str s
  | .whole n => .int n
  | .fraction x => .num x
  | .null => .null

/-- The name that a datum is. A boolean, and a number without a fraction, is the whole number of
the same value; lists and objects are no names. -/
def ofDatum? : Datum → Option Name
  | .str s => some (.text s)
  | .int n => some (.whole n)
  | .bool b => some (.whole (if b then 1 else 0))
  | .null => some .null
  | .num x =>
    if x.isFinite ∧ Number.units x.magnitude % Number.oneInUnits = 0 then
      let n : Int := Number.units x.magnitude / Number.oneInUnits
      some (.whole (if x.negative then -n else n))
    else some (.fraction x)
  | .list _ | .object _ => none

end Name

structure Frame where
  parent : Option Nat
  bindings : List (Name × Value)

namespace Frame

def get? (f : Frame) (name : Name) : Option Value := f.bindings.lookup name

def binds (f : Frame) (name : Name) : Bool := (f.get? name).isSome

/-- Binds a name in place, or after the others if it is new. -/
def insert (name : Name) (value : Value) : List (Name × Value) → List (Name × Value)
  | [] => [(name, value)]
  | (n, v) :: r => if n = name then (n, value) :: r else (n, v) :: insert name value r

theorem lookup_insert (name n : Name) (value : Value) (bindings : List (Name × Value)) :
    (insert name value bindings).lookup n =
      if n = name then some value else bindings.lookup n := by
  induction bindings with
  | nil =>
    by_cases h : n = name
    · simp [insert, h]
    · simp [insert, List.lookup_cons, beq_false_of_ne h, h]
  | cons b r ih =>
    obtain ⟨m, v⟩ := b
    by_cases hm : m = name
    · subst hm
      by_cases hn : n = m
      · simp [insert, hn]
      · simp [insert, List.lookup_cons, beq_false_of_ne hn, hn]
    · by_cases hn : n = m
      · subst hn
        simp [insert, hm]
      · simp [insert, hm, List.lookup_cons, beq_false_of_ne hn, ih]

def define (f : Frame) (name : Name) (value : Value) : Frame :=
  { f with bindings := insert name value f.bindings }

@[simp] theorem get?_define (f : Frame) (name n : Name) (value : Value) :
    (f.define name value).get? n = if n = name then some value else f.get? n :=
  lookup_insert name n value f.bindings

end Frame

structure Store where
  frames : Array Frame
  parent_lt : ∀ i (h : i < frames.size), ∀ p ∈ frames[i].parent, p < i

namespace Store

def empty : Store := ⟨#[], by simp⟩

/-- Adds a frame below a parent. A parent that does not exist counts as none. -/
def push (s : Store) (parent : Option Nat) : Store where
  frames := s.frames.push ⟨parent.filter (· < s.frames.size), []⟩
  parent_lt := by
    intro i h p hp
    rw [Array.getElem_push] at hp
    split at hp
    · exact s.parent_lt i _ p hp
    · have hi : i = s.frames.size := by simp at h; omega
      have := (Option.mem_filter_iff.1 hp).2
      simp at this
      omega

/-- Binds a name in a frame, hiding what outer frames bind to it. -/
def define (s : Store) (frame : Nat) (name : Name) (value : Value) : Store where
  frames := s.frames.modify frame (·.define name value)
  parent_lt := by
    intro i h p hp
    rw [Array.size_modify] at h
    rw [Array.getElem_modify] at hp
    split at hp <;> exact s.parent_lt i h p hp

/-- The nearest frame that binds a name, starting from a frame and going outwards. -/
def find (s : Store) (frame : Nat) (name : Name) : Option Nat :=
  if h : frame < s.frames.size then
    if s.frames[frame].binds name then some frame
    else
      match hp : s.frames[frame].parent with
      | none => none
      | some parent =>
        have : parent < frame := s.parent_lt frame h parent hp
        find s parent name
  else none
termination_by frame

/-- The number of parents on the way out. -/
def depth (s : Store) (frame : Nat) : Nat :=
  if h : frame < s.frames.size then
    match hp : s.frames[frame].parent with
    | none => 0
    | some parent =>
      have : parent < frame := s.parent_lt frame h parent hp
      depth s parent + 1
  else 0
termination_by frame

def at? (s : Store) (frame : Nat) (name : Name) : Option Value :=
  (s.frames[frame]?).bind (·.get? name)

def get? (s : Store) (frame : Nat) (name : Name) : Option Value :=
  (s.find frame name).bind (s.at? · name)

def assign? (s : Store) (frame : Nat) (name : Name) (value : Value) : Option Store :=
  (s.find frame name).map (s.define · name value)

def bindings (s : Store) (frame : Nat) : List (Name × Value) :=
  match s.frames[frame]? with
  | some f => f.bindings
  | none => []

def natives : List String := ["clock"]

/-- Adds a frame without parent that binds the natives, the first of which gets an identity. -/
def pushGlobal (s : Store) (firstId : Nat) : Store :=
  let frame := s.frames.size
  natives.zipIdx.foldl (fun s (name, i) => s.define frame (.text name) (.native (firstId + i) name))
    (s.push none)

end Store

end Lox
