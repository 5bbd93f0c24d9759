import Lox.Proofs.Store.Chain

/-!
What can be seen from a frame. A name has the value that the first scope on the way out binds to
it, so an empty scope, and a binding behind another one of the same name, make no difference.
-/
namespace Lox

namespace Store

variable {s t : Store} {frame : Nat} {name : Name} {value : Value}

theorem OnChain.le {i : Nat} (h : s.OnChain frame i) : i ≤ frame := by
  induction h with
  | self => exact Nat.le_refl _
  | outward hp _ ih => exact Nat.le_trans ih (Nat.le_of_lt (parent?_lt hp))

theorem Binds.lt (h : s.Binds frame name) : frame < s.frames.size := by
  obtain ⟨v, hv⟩ := Option.isSome_iff_exists.1 h
  obtain ⟨f, hf, -⟩ := Option.bind_eq_some_iff.1 hv
  exact (Array.getElem?_eq_some_iff.1 hf).1

theorem find_outward (s : Store) (frame : Nat) (name : Name) :
    s.find frame name =
      if (s.at? frame name).isSome then some frame
      else (s.parent? frame).bind (s.find · name) := by
  rw [find_eq]
  unfold at? parent?
  cases s.frames[frame]? with
  | none => rfl
  | some f => rfl

theorem get?_outward (s : Store) (frame : Nat) (name : Name) :
    s.get? frame name = (s.at? frame name).or ((s.parent? frame).bind (s.get? · name)) := by
  unfold get?
  rw [find_outward]
  cases hat : s.at? frame name with
  | some v => rw [Option.isSome_some, if_pos rfl, Option.bind_some, hat, Option.some_or]
  | none =>
    rw [Option.isSome_none, if_neg Bool.false_ne_true, Option.none_or, Option.bind_assoc]

/-- A frame that binds the name in both stores or in neither, and shows the same in both, binds the
same. -/
theorem at?_eq_of_get?_eq (hbinds : s.Binds frame name ↔ t.Binds frame name)
    (hget : s.get? frame name = t.get? frame name) : s.at? frame name = t.at? frame name := by
  rw [get?_outward, get?_outward t] at hget
  unfold Binds at hbinds
  cases hs : s.at? frame name with
  | none =>
    rw [hs] at hbinds
    cases ht : t.at? frame name with
    | none => rfl
    | some w =>
      rw [ht] at hbinds
      cases hbinds.2 rfl
  | some v =>
    rw [hs] at hbinds hget
    obtain ⟨w, ht⟩ := Option.isSome_iff_exists.1 (hbinds.1 rfl)
    rw [ht, Option.some_or, Option.some_or] at hget
    rw [ht, hget]

theorem isSome_get? (s : Store) (frame : Nat) (name : Name) :
    (s.get? frame name).isSome = (s.find frame name).isSome := by
  unfold get?
  cases hfind : s.find frame name with
  | none => rfl
  | some i => exact (find_some hfind).2

theorem get?_congr {size : Nat} (hparent : ∀ i < size, t.parent? i = s.parent? i)
    (hat : ∀ i < size, t.at? i name = s.at? i name) (hlt : frame < size) :
    t.get? frame name = s.get? frame name := by
  induction frame using Nat.strongRecOn with
  | ind frame ih =>
    rw [get?_outward, get?_outward s, hparent frame hlt, hat frame hlt]
    cases hp : s.parent? frame with
    | none => rfl
    | some parent =>
      have hlower := parent?_lt hp
      rw [Option.bind_some, Option.bind_some, ih parent hlower (Nat.lt_trans hlower hlt)]

theorem get?_define_ne {n : Name} (hne : n ≠ name) (i : Nat) :
    (s.define i name value).get? frame n = s.get? frame n := by
  apply get?_congr (fun j _ => parent?_define ..) (fun j _ => ?_) (Nat.lt_succ_self frame)
  rw [at?_define, if_neg (fun h => hne h.2.1)]

theorem get?_define_found {i : Nat} (h : s.find frame name = some i) (n : Name) :
    (s.define i name value).get? frame n = if n = name then some value else s.get? frame n := by
  split
  case isFalse hne => exact get?_define_ne hne i
  case isTrue heq =>
    subst heq
    induction frame using Nat.strongRecOn with
    | ind frame ih =>
      rw [get?_outward, at?_define, parent?_define]
      rw [find_outward] at h
      split at h
      · rename_i hbinds
        cases h
        rw [if_pos ⟨rfl, rfl, Binds.lt hbinds⟩, Option.some_or]
      · rename_i hfree
        obtain ⟨parent, hp, hfind⟩ := Option.bind_eq_some_iff.1 h
        have hlower := parent?_lt hp
        have hle := (find_some hfind).1.le
        have hnone : s.at? frame n = none := by simpa using hfree
        have hi : i ≠ frame := Nat.ne_of_lt (Nat.lt_of_le_of_lt hle hlower)
        rw [if_neg (fun h => hi h.1), hnone, Option.none_or, hp, Option.bind_some]
        exact ih parent hlower hfind

theorem get?_define_self (hlt : frame < s.frames.size) (n : Name) :
    (s.define frame name value).get? frame n = if n = name then some value else s.get? frame n := by
  split
  case isFalse hne => exact get?_define_ne hne frame
  case isTrue heq => rw [get?_outward, at?_define, if_pos ⟨rfl, heq, hlt⟩, Option.some_or]

theorem at?_define_outward {parent i : Nat} (h : s.find parent name = some i)
    (hp : s.parent? frame = some parent) (n : Name) :
    (s.define i name value).at? frame n = s.at? frame n := by
  rw [at?_define, if_neg]
  rintro ⟨rfl, -, -⟩
  exact Nat.lt_irrefl _ (Nat.lt_of_le_of_lt (find_some h).1.le (parent?_lt hp))

theorem at?_push_size (parent : Option Nat) : (s.push parent).at? s.frames.size name = none := by
  unfold at?
  rw [getElem?_push, if_pos rfl]
  rfl

theorem lt_size_of_parent? {parent : Nat} (h : s.parent? frame = some parent) :
    frame < s.frames.size := by
  obtain ⟨f, hf, -⟩ := Option.bind_eq_some_iff.1 h
  exact (Array.getElem?_eq_some_iff.1 hf).1

/-- The frames below a bound are the same in another store. -/
structure SameBelow (bound : Nat) (s t : Store) : Prop where
  size : s.frames.size ≤ t.frames.size
  parents : ∀ i < bound, t.parent? i = s.parent? i
  bindings : ∀ i < bound, ∀ n, t.at? i n = s.at? i n

theorem sameBelow_self (bound : Nat) (s : Store) : SameBelow bound s s :=
  ⟨Nat.le_refl _, fun _ _ => rfl, fun _ _ _ => rfl⟩

theorem sameBelow_push (s : Store) (parent : Option Nat) :
    SameBelow s.frames.size s (s.push parent) where
  size := by simp
  parents := fun _ hi => parent?_push hi parent
  bindings := fun _ hi n => at?_push hi parent n

theorem sameBelow_define (s : Store) (frame : Nat) (name : Name) (value : Value) :
    SameBelow frame s (s.define frame name value) where
  size := by simp
  parents := fun _ _ => parent?_define ..
  bindings := by
    intro i hi n
    rw [at?_define, if_neg]
    rintro ⟨rfl, -, -⟩
    exact Nat.lt_irrefl _ hi

/-- What a frame and those on its way out bind, the frame itself first. -/
def scopes (s : Store) (frame : Nat) : List (List (Name × Value)) :=
  if h : frame < s.frames.size then
    s.frames[frame].bindings ::
      match hp : s.frames[frame].parent with
      | none => []
      | some parent =>
        have : parent < frame := s.parent_lt frame h parent hp
        scopes s parent
  else []
termination_by frame

theorem scopes_of_some {f : Frame} (h : s.frames[frame]? = some f) :
    s.scopes frame = f.bindings :: (s.parent? frame).elim [] s.scopes := by
  obtain ⟨hlt, rfl⟩ := Array.getElem?_eq_some_iff.1 h
  have hparent : s.parent? frame = s.frames[frame].parent := by
    rw [parent?, h, Option.bind_some]
  rw [scopes, dif_pos hlt, hparent]
  split
  · rename_i hp
    simp only [hp, Option.elim_none]
  · rename_i hp
    simp only [hp, Option.elim_some]

theorem scopes_of_none (h : s.frames[frame]? = none) : s.scopes frame = [] := by
  rw [scopes, dif_neg (Nat.not_lt.2 (Array.getElem?_eq_none_iff.1 h))]

theorem get?_eq_findSome? (s : Store) (frame : Nat) (name : Name) :
    s.get? frame name = (s.scopes frame).findSome? (·.lookup name) := by
  induction frame using Nat.strongRecOn with
  | ind frame ih =>
    rw [get?_outward]
    cases hf : s.frames[frame]? with
    | none =>
      rw [scopes_of_none hf, at?, parent?, hf]
      rfl
    | some f =>
      have hat : s.at? frame name = f.bindings.lookup name := by
        rw [at?, hf]
        rfl
      have houter : (s.parent? frame).bind (s.get? · name) =
          ((s.parent? frame).elim [] s.scopes).findSome? (·.lookup name) := by
        cases hp : s.parent? frame with
        | none => rfl
        | some parent => exact ih parent (parent?_lt hp)
      rw [scopes_of_some hf, hat, houter, List.findSome?_cons]
      cases f.bindings.lookup name <;> rfl

/-- Rows of scopes that come from one another by taking empty scopes, and bindings of names that a
scope further in binds, in or out at any place. -/
inductive Reshaped : List (List (Name × Value)) → List (List (Name × Value)) → Prop where
  | empty (inner outer : List (List (Name × Value))) : Reshaped (inner ++ outer) (inner ++ [] :: outer)
  | hidden {inner : List (List (Name × Value))} {scope : List (Name × Value)} {name : Name}
      (outer : List (List (Name × Value))) (before after : List (Name × Value)) (value : Value) :
      scope ∈ inner → (scope.lookup name).isSome = true →
      Reshaped (inner ++ (before ++ after) :: outer)
        (inner ++ (before ++ (name, value) :: after) :: outer)
  | refl (scopes : List (List (Name × Value))) : Reshaped scopes scopes
  | symm {left right : List (List (Name × Value))} : Reshaped left right → Reshaped right left
  | trans {left middle right : List (List (Name × Value))} : Reshaped left middle →
      Reshaped middle right → Reshaped left right

theorem Reshaped.findSome? {left right : List (List (Name × Value))} (h : Reshaped left right)
    (n : Name) : left.findSome? (·.lookup n) = right.findSome? (·.lookup n) := by
  induction h with
  | empty inner outer =>
    rw [List.findSome?_append, List.findSome?_append, List.findSome?_cons, List.lookup_nil]
  | @hidden inner scope name outer before after value hscope hbinds =>
    rw [List.findSome?_append, List.findSome?_append]
    by_cases hn : n = name
    · -- the name is found before the place that differs
      subst hn
      have hinner : (inner.findSome? (·.lookup n)).isSome = true :=
        List.findSome?_isSome_iff.2 ⟨scope, hscope, hbinds⟩
      obtain ⟨v, hv⟩ := Option.isSome_iff_exists.1 hinner
      rw [hv, Option.some_or, Option.some_or]
    · have hskip : (before ++ (name, value) :: after).lookup n = (before ++ after).lookup n := by
        rw [List.lookup_append, List.lookup_append, List.lookup_cons, beq_false_of_ne hn]
      rw [List.findSome?_cons, List.findSome?_cons, hskip]
  | refl => rfl
  | symm _ ih => exact ih.symm
  | trans _ _ ih ih' => exact ih.trans ih'

end Store

end Lox
