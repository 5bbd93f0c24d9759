import Lox.Store

/-!
The frames of a store after each operation, what they all bind, and the chain of frames that can
be seen from one of them. Finding a name stays on the chain.
-/
namespace Lox

theorem Frame.mem_insert {name : Name} {value : Value} {bindings : List (Name × Value)}
    {b : Name × Value} (h : b ∈ Frame.insert name value bindings) :
    b ∈ bindings ∨ b.2 = value := by
  induction bindings with
  | nil =>
    simp only [insert, List.mem_singleton] at h
    exact .inr (by rw [h])
  | cons a r ih =>
    unfold insert at h
    split at h
    · obtain rfl | h := List.mem_cons.1 h
      · exact .inr rfl
      · exact .inl (List.mem_cons_of_mem _ h)
    · obtain rfl | h := List.mem_cons.1 h
      · exact .inl List.mem_cons_self
      · obtain h | h := ih h
        · exact .inl (List.mem_cons_of_mem _ h)
        · exact .inr h

theorem Frame.mem_of_get? {f : Frame} {name : Name} {value : Value}
    (h : f.get? name = some value) : (name, value) ∈ f.bindings := by
  obtain ⟨before, after, hsplit, -⟩ := List.lookup_eq_some_iff.1 h
  rw [hsplit]
  simp

namespace Store

theorem getElem?_push (s : Store) (parent : Option Nat) (i : Nat) :
    (s.push parent).frames[i]? =
      if i = s.frames.size then some ⟨parent.filter (· < s.frames.size), []⟩ else s.frames[i]? := by
  simp [push, Array.getElem?_push]

theorem getElem?_define (s : Store) (frame : Nat) (name : Name) (value : Value) (i : Nat) :
    (s.define frame name value).frames[i]? =
      if frame = i then (s.frames[i]?).map (·.define name value) else s.frames[i]? := by
  simp [define, Array.getElem?_modify]

@[simp] theorem size_push (s : Store) (parent : Option Nat) :
    (s.push parent).frames.size = s.frames.size + 1 := by
  simp [push]

@[simp] theorem size_define (s : Store) (frame : Nat) (name : Name) (value : Value) :
    (s.define frame name value).frames.size = s.frames.size := by
  simp [define]

def All (p : Value → Prop) (s : Store) : Prop := ∀ f ∈ s.frames, ∀ b ∈ f.bindings, p b.2

theorem all_push {p : Value → Prop} {s : Store} (h : s.All p) (parent : Option Nat) :
    (s.push parent).All p := by
  intro f hf b hb
  simp only [push, Array.mem_push] at hf
  obtain hf | rfl := hf
  · exact h f hf b hb
  · cases hb

theorem all_define {p : Value → Prop} {s : Store} (h : s.All p) (frame : Nat) (name : Name)
    {value : Value} (hv : p value) : (s.define frame name value).All p := by
  intro f hf b hb
  obtain ⟨i, hi⟩ := Array.mem_iff_getElem?.1 hf
  rw [getElem?_define] at hi
  split at hi
  · obtain ⟨g, hg, rfl⟩ := Option.map_eq_some_iff.1 hi
    obtain hb | hb := Frame.mem_insert hb
    · exact h g (Array.mem_of_getElem? hg) b hb
    · rw [hb]
      exact hv
  · exact h f (Array.mem_of_getElem? hi) b hb

theorem all_get? {p : Value → Prop} {s : Store} (h : s.All p) {frame : Nat} {name : Name}
    {value : Value} (hget : s.get? frame name = some value) : p value := by
  obtain ⟨i, -, hi⟩ := Option.bind_eq_some_iff.1 hget
  obtain ⟨f, hf, hvalue⟩ := Option.bind_eq_some_iff.1 hi
  exact h f (Array.mem_of_getElem? hf) _ (Frame.mem_of_get? hvalue)

/-- The parent of a frame, if both exist. -/
def parent? (s : Store) (frame : Nat) : Option Nat := (s.frames[frame]?).bind Frame.parent

/-- The frames on the way out from a frame, itself included. -/
inductive OnChain (s : Store) : Nat → Nat → Prop where
  | self {frame : Nat} : OnChain s frame frame
  | outward {frame parent i : Nat} : s.parent? frame = some parent → OnChain s parent i →
      OnChain s frame i

theorem parent?_lt {s : Store} {frame parent : Nat} (h : s.parent? frame = some parent) :
    parent < frame := by
  obtain ⟨f, hf, hp⟩ := Option.bind_eq_some_iff.1 h
  obtain ⟨hlt, rfl⟩ := Array.getElem?_eq_some_iff.1 hf
  exact s.parent_lt frame hlt parent hp

theorem OnChain.congr {s t : Store} {size frame i : Nat} (h : t.OnChain frame i)
    (hlt : frame < size) (hparent : ∀ j < size, t.parent? j = s.parent? j) :
    s.OnChain frame i := by
  induction h with
  | self => exact .self
  | outward hp _ ih =>
    rw [hparent _ hlt] at hp
    exact .outward hp (ih (Nat.lt_trans (parent?_lt hp) hlt))

def Binds (s : Store) (frame : Nat) (name : Name) : Prop := (s.at? frame name).isSome = true

theorem find_some {s : Store} {frame i : Nat} {name : Name} (h : s.find frame name = some i) :
    s.OnChain frame i ∧ s.Binds i name := by
  fun_induction find s frame name with
  | case1 frame hlt hbinds =>
    cases h
    refine ⟨.self, ?_⟩
    simpa [Binds, at?, hlt, Frame.binds] using hbinds
  | case2 => cases h
  | case3 frame hlt hbinds parent hp _ ih =>
    obtain ⟨hchain, hi⟩ := ih h
    exact ⟨.outward (by simp [parent?, hlt, hp]) hchain, hi⟩
  | case4 => cases h

theorem at?_define (s : Store) (frame : Nat) (name : Name) (value : Value) (i : Nat) (n : Name) :
    (s.define frame name value).at? i n =
      if frame = i ∧ n = name ∧ i < s.frames.size then some value else s.at? i n := by
  unfold at?
  rw [getElem?_define]
  by_cases hi : frame = i
  · by_cases hlt : i < s.frames.size
    · simp [hi, hlt]
    · simp [hi, hlt]
  · simp [hi]

theorem parent?_define (s : Store) (frame : Nat) (name : Name) (value : Value) (i : Nat) :
    (s.define frame name value).parent? i = s.parent? i := by
  unfold parent?
  rw [getElem?_define]
  split
  · cases s.frames[i]? <;> rfl
  · rfl

theorem parent?_push {s : Store} {i : Nat} (hi : i < s.frames.size) (parent : Option Nat) :
    (s.push parent).parent? i = s.parent? i := by
  unfold parent?
  rw [getElem?_push, if_neg (Nat.ne_of_lt hi)]

theorem parent?_push_size {s : Store} {frame : Nat} (h : frame < s.frames.size) :
    (s.push (some frame)).parent? s.frames.size = some frame := by
  unfold parent?
  rw [getElem?_push, if_pos rfl]
  simp [h]

theorem at?_push {s : Store} {i : Nat} (hi : i < s.frames.size) (parent : Option Nat)
    (name : Name) : (s.push parent).at? i name = s.at? i name := by
  unfold at?
  rw [getElem?_push, if_neg (Nat.ne_of_lt hi)]

theorem binds_define {s : Store} {frame i : Nat} {name n : Name} {value : Value} :
    (s.define frame name value).Binds i n ↔
      s.Binds i n ∨ (frame = i ∧ n = name ∧ i < s.frames.size) := by
  unfold Binds
  rw [at?_define]
  split
  · rename_i h
    simp [h]
  · rename_i h
    simp [h]

theorem find_eq (s : Store) (frame : Nat) (name : Name) :
    s.find frame name =
      match s.frames[frame]? with
      | none => none
      | some f => if f.binds name then some frame else f.parent.bind (s.find · name) := by
  rw [find]
  by_cases hlt : frame < s.frames.size
  · rw [dif_pos hlt, Array.getElem?_eq_getElem hlt]
    dsimp only
    split
    · rfl
    · split
      · rename_i hp
        rw [hp]
        rfl
      · rename_i hp
        rw [hp]
        rfl
  · rw [dif_neg hlt, Array.getElem?_eq_none (Nat.le_of_not_lt hlt)]

theorem depth_eq (s : Store) (frame : Nat) :
    s.depth frame =
      match s.parent? frame with
      | none => 0
      | some parent => s.depth parent + 1 := by
  rw [depth, parent?]
  by_cases hlt : frame < s.frames.size
  · rw [dif_pos hlt, Array.getElem?_eq_getElem hlt]
    split
    · rename_i hp
      rw [Option.bind_some, hp]
    · rename_i hp
      dsimp only
      rw [Option.bind_some, hp]
  · rw [dif_neg hlt, Array.getElem?_eq_none (Nat.le_of_not_lt hlt)]
    rfl

end Store

end Lox
