import Lox.Proofs.Machine.Outcome
import Lox.Proofs.Store.Scopes

/-!
Stores as operations build them. Frames may share parents, so that one binding is seen from many
frames and hidden from others. A frame sees for every name the nearest binding on its way out;
whatever is bound or changed is seen from where it is the nearest, and from nowhere else.
-/
namespace Lox

namespace Store

variable {s t : Store} {frame i : Nat} {outer : Option Nat} {name : Name} {value : Value}

/-- The number of links from a frame out to another one. -/
inductive Links (s : Store) : Nat → Nat → Nat → Prop where
  | self {frame : Nat} : Links s frame frame 0
  | outward {frame parent i n : Nat} : s.parent? frame = some parent → Links s parent i n →
      Links s frame i (n + 1)

/-- Every link goes down by one at least, so no way out comes back. -/
theorem Links.add_le {n : Nat} (h : s.Links frame i n) : i + n ≤ frame := by
  induction h with
  | self => exact Nat.le_refl _
  | outward hp _ ih =>
    have hlt := parent?_lt hp
    omega

theorem exists_links_root (hlt : frame < s.frames.size) :
    ∃ root < s.frames.size, s.parent? root = none ∧ s.Links frame root (s.depth frame) := by
  induction frame using Nat.strongRecOn with
  | ind frame ih =>
    rw [depth_eq]
    cases hp : s.parent? frame with
    | none => exact ⟨frame, hlt, hp, .self⟩
    | some parent =>
      have hlower := parent?_lt hp
      obtain ⟨root, hroot, hnone, hlinks⟩ := ih parent hlower (Nat.lt_trans hlower hlt)
      exact ⟨root, hroot, hnone, .outward hp hlinks⟩

/-- The way out from a frame comes to another one, and no frame before that one binds the name. -/
inductive Clear (s : Store) (name : Name) : Nat → Nat → Prop where
  | here {frame : Nat} : Clear s name frame frame
  | outward {frame parent i : Nat} : ¬s.Binds frame name → s.parent? frame = some parent →
      Clear s name parent i → Clear s name frame i

theorem clear_iff :
    s.Clear name frame i ↔ frame = i ∨
      ¬s.Binds frame name ∧ ∃ parent, s.parent? frame = some parent ∧ s.Clear name parent i := by
  constructor
  · intro h
    cases h with
    | here => exact .inl rfl
    | outward hfree hp h => exact .inr ⟨hfree, _, hp, h⟩
  · rintro (rfl | ⟨hfree, parent, hp, h⟩)
    · exact .here
    · exact .outward hfree hp h

theorem Clear.onChain (h : s.Clear name frame i) : s.OnChain frame i := by
  induction h with
  | here => exact .self
  | outward _ hp _ ih => exact .outward hp ih

theorem find_eq_some_iff : s.find frame name = some i ↔ s.Clear name frame i ∧ s.Binds i name := by
  induction frame using Nat.strongRecOn with
  | ind frame ih =>
    have hhead : (s.at? frame name).isSome = true ↔ s.Binds frame name := Iff.rfl
    rw [find_outward, clear_iff]
    by_cases hbinds : s.Binds frame name
    · rw [if_pos (hhead.2 hbinds), Option.some_inj]
      constructor
      · rintro rfl
        exact ⟨.inl rfl, hbinds⟩
      · rintro ⟨rfl | ⟨hfree, -⟩, -⟩
        · rfl
        · exact absurd hbinds hfree
    · rw [if_neg (mt hhead.1 hbinds), Option.bind_eq_some_iff]
      constructor
      · rintro ⟨parent, hp, hfind⟩
        obtain ⟨hclear, hi⟩ := (ih parent (parent?_lt hp)).1 hfind
        exact ⟨.inr ⟨hbinds, parent, hp, hclear⟩, hi⟩
      · rintro ⟨rfl | ⟨-, parent, hp, hclear⟩, hi⟩
        · exact absurd hi hbinds
        · exact ⟨parent, hp, (ih parent (parent?_lt hp)).2 ⟨hclear, hi⟩⟩

/-- Where a name is found depends on the links and on which frames bind it, not on its values. -/
theorem find_congr (hparent : ∀ i, t.parent? i = s.parent? i)
    (hbinds : ∀ i, t.Binds i name ↔ s.Binds i name) : t.find frame name = s.find frame name := by
  induction frame using Nat.strongRecOn with
  | ind frame ih =>
    have hsame : (t.at? frame name).isSome = (s.at? frame name).isSome :=
      Bool.eq_iff_iff.2 (hbinds frame)
    rw [find_outward, find_outward s, hparent, hsame]
    cases hp : s.parent? frame with
    | none => rfl
    | some parent => rw [Option.bind_some, Option.bind_some, ih parent (parent?_lt hp)]

theorem find_define_found (h : s.find frame name = some i) (g : Nat) (n : Name) :
    (s.define i name value).find g n = s.find g n := by
  refine find_congr (fun j => parent?_define ..) fun j => ?_
  rw [binds_define]
  refine ⟨fun hbinds => ?_, .inl⟩
  obtain hbinds | ⟨rfl, rfl, -⟩ := hbinds
  · exact hbinds
  · exact (find_some h).2

theorem get?_define_iff_found (h : s.find frame name = some i) (g : Nat) (n : Name) :
    (s.define i name value).get? g n =
      if n = name ∧ s.find g name = s.find frame name then some value else s.get? g n := by
  rw [get?, find_define_found h, get?, h]
  by_cases hn : n = name
  · subst hn
    cases hg : s.find g n with
    | none => rw [if_neg (by simp), Option.bind_none, Option.bind_none]
    | some j =>
      rw [Option.bind_some, Option.bind_some, at?_define]
      by_cases hj : i = j
      · subst hj
        rw [if_pos ⟨rfl, rfl, Binds.lt (find_some h).2⟩, if_pos ⟨rfl, rfl⟩]
      · rw [if_neg (fun hi => hj hi.1), if_neg (fun hi => hj (Option.some_inj.1 hi.2).symm)]
  · rw [if_neg (fun h => hn h.1)]
    refine Option.bind_congr fun j _ => ?_
    rw [at?_define, if_neg (fun h => hn h.2.1)]

theorem get?_define_of_clear (hlt : i < s.frames.size) (h : s.Clear name frame i) :
    (s.define i name value).get? frame name = some value := by
  induction h with
  | here => rw [get?_define_self hlt, if_pos rfl]
  | @outward frame parent i hfree hp hclear ih =>
    have hnone : s.at? frame name = none := by simpa [Binds] using hfree
    have hi : i ≠ frame := Nat.ne_of_lt (Nat.lt_of_le_of_lt hclear.onChain.le (parent?_lt hp))
    rw [get?_outward, at?_define, if_neg (fun h => hi h.1), hnone, Option.none_or, parent?_define,
      hp, Option.bind_some, ih hlt]

theorem get?_define_of_not_clear (h : ¬s.Clear name frame i) :
    (s.define i name value).get? frame name = s.get? frame name := by
  induction frame using Nat.strongRecOn with
  | ind frame ih =>
    have hi : i ≠ frame := by
      rintro rfl
      exact h .here
    rw [get?_outward, get?_outward s, at?_define, if_neg (fun h => hi h.1), parent?_define]
    cases hat : s.at? frame name with
    | some v => rw [Option.some_or, Option.some_or]
    | none =>
      cases hp : s.parent? frame with
      | none => rfl
      | some parent =>
        have hfree : ¬s.Binds frame name := by simp [Binds, hat]
        have hclear : ¬s.Clear name parent i := fun hclear => h (.outward hfree hp hclear)
        rw [Option.bind_some, Option.bind_some, ih parent (parent?_lt hp) hclear]

/-- An operation on the frames of a store, which are numbered in the order of their creation. -/
inductive Operation where
  | new (parent : Option Nat)
  | define (frame : Nat) (name : Name) (value : Value)
  | assign (frame : Nat) (name : Name) (value : Value)
  | get (frame : Nat) (name : Name)
  | find (frame : Nat) (name : Name)

def perform (s : Store) : Operation → Store
  | .new parent => s.push parent
  | .define frame name value => s.define frame name value
  | .assign frame name value => (s.assign? frame name value).getD s
  | .get .. | .find .. => s

def built (operations : List Operation) : Store := operations.foldl perform empty

/-- What holds of the frames of a store and of every operation on them. -/
structure Scoped (s : Store) : Prop where
  /-- Every way out comes to a frame without parent, by as many links as the depth says. -/
  ends : ∀ f < s.frames.size,
    ∃ root < s.frames.size, s.parent? root = none ∧ s.Links f root (s.depth f)
  /-- No way out comes back. -/
  acyclic : ∀ f n, s.Links f f n → n = 0
  /-- A new frame is linked to its parent and binds nothing; the others stay as they are. -/
  new : ∀ parent, (∀ p ∈ parent, p < s.frames.size) →
    let s' := s.perform (.new parent)
    s'.parent? s.frames.size = parent ∧ (∀ name, ¬s'.Binds s.frames.size name) ∧
      SameBelow s.frames.size s s'
  /-- A name is found in the nearest frame that binds it. -/
  found : ∀ f i name, s.find f name = some i ↔ s.Clear name f i ∧ s.Binds i name
  /-- To look up and to assign a name fails, and changes nothing, if the name is not found. -/
  missing : ∀ f name value, s.find f name = none →
    s.get? f name = none ∧ s.assign? f name value = none ∧
      s.perform (.assign f name value) = s ∧
      ∀ (m : State) (t : Token), m.store = s → m.frame = f → Name.ofDatum? t.lexeme = some name →
        Exec.lookup t m = .failed (.error ⟨t, .undefinedVariable t.lexeme⟩) m ∧
        Exec.assign t value m = .failed (.error ⟨t, .undefinedTarget t.lexeme⟩) m
  /-- Both succeed if it is found. An assignment changes that one binding, where no name is found
  anew, and is seen from just the frames that find the name there. -/
  assigned : ∀ f i name value, s.find f name = some i →
    let s' := s.perform (.assign f name value)
    s.assign? f name value = some s' ∧
      (∃ v, s.get? f name = some v ∧ s.at? i name = some v ∧
        ∀ (m : State) (t : Token), m.store = s → m.frame = f → Name.ofDatum? t.lexeme = some name →
          Exec.lookup t m = .done v m ∧ Exec.assign t value m = .done () { m with store := s' }) ∧
      s'.frames.size = s.frames.size ∧ (∀ g, s'.parent? g = s.parent? g) ∧
      (∀ g n, s'.at? g n = if g = i ∧ n = name then some value else s.at? g n) ∧
      (∀ g n, s'.find g n = s.find g n) ∧
      ∀ g n, s'.get? g n =
        if n = name ∧ s.find g name = s.find f name then some value else s.get? g n
  /-- A new binding is seen from just the frames that have a clear way to it. -/
  defined : ∀ f < s.frames.size, ∀ name value,
    let s' := s.perform (.define f name value)
    ∀ g n, (n = name ∧ s.Clear name g f → s'.get? g n = some value) ∧
      (¬(n = name ∧ s.Clear name g f) → s'.get? g n = s.get? g n)

theorem missing_of_find (h : s.find frame name = none) (value : Value) :
    s.get? frame name = none ∧ s.assign? frame name value = none ∧
      s.perform (.assign frame name value) = s := by
  have hassign : s.assign? frame name value = none := by rw [assign?, h, Option.map_none]
  refine ⟨by rw [get?, h, Option.bind_none], hassign, ?_⟩
  rw [perform, hassign, Option.getD_none]

theorem assign?_of_find (h : s.find frame name = some i) :
    s.assign? frame name value = some (s.define i name value) := by
  rw [assign?, h, Option.map_some]

theorem perform_assign_of_find (h : s.find frame name = some i) :
    s.perform (.assign frame name value) = s.define i name value := by
  rw [perform, assign?_of_find h, Option.getD_some]

theorem at?_define_found (h : s.find frame name = some i) (g : Nat) (n : Name) :
    (s.define i name value).at? g n = if g = i ∧ n = name then some value else s.at? g n := by
  rw [at?_define]
  have hlt := Binds.lt (find_some h).2
  by_cases hg : g = i
  · subst hg
    simp [hlt]
  · rw [if_neg (fun hi => hg hi.1.symm), if_neg (fun hi => hg hi.1)]

/-- The steps of a machine that look up and assign a name do so in the store, or fail at the token
with the machine as it was. -/
theorem steps_of_missing {m : State} {t : Token} (hname : Name.ofDatum? t.lexeme = some name)
    (h : m.store.find m.frame name = none) (value : Value) :
    Exec.lookup t m = .failed (.error ⟨t, .undefinedVariable t.lexeme⟩) m ∧
      Exec.assign t value m = .failed (.error ⟨t, .undefinedTarget t.lexeme⟩) m := by
  constructor
  · simp only [Exec.lookup_eq, hname, get?, h, Option.bind_none]
  · simp only [Exec.assign_eq, hname, h]

theorem steps_of_found {m : State} {t : Token} {v : Value}
    (hname : Name.ofDatum? t.lexeme = some name) (h : m.store.find m.frame name = some i)
    (hv : m.store.get? m.frame name = some v) (value : Value) :
    Exec.lookup t m = .done v m ∧
      Exec.assign t value m = .done () { m with store := m.store.define i name value } := by
  constructor
  · simp only [Exec.lookup_eq, hname, hv]
  · simp only [Exec.assign_eq, hname, h]

theorem new_linked (h : ∀ p ∈ outer, p < s.frames.size) :
    (s.push outer).parent? s.frames.size = outer ∧ ∀ n, ¬(s.push outer).Binds s.frames.size n := by
  refine ⟨?_, fun n => by simp [Binds, at?_push_size]⟩
  cases outer with
  | none =>
    rw [parent?, getElem?_push, if_pos rfl]
    rfl
  | some p => exact parent?_push_size (h p rfl)

/-- Whatever operations built a store, its frames are scoped: every way out ends, a name is found
in the nearest frame that binds it, what is not found can be neither read nor assigned, and a
binding that is made or changed is seen from where it is the nearest and from nowhere else. -/
theorem scoped_built (operations : List Operation) : (built operations).Scoped := by
  generalize built operations = s
  constructor
  case ends => exact fun f hf => exists_links_root hf
  case acyclic =>
    intro f n h
    have hle := h.add_le
    omega
  case new => exact fun parent h => ⟨(new_linked h).1, (new_linked h).2, sameBelow_push s parent⟩
  case found => exact fun f i name => find_eq_some_iff
  case missing =>
    intro f name value h
    obtain ⟨hget, hassign, hsame⟩ := missing_of_find h value
    refine ⟨hget, hassign, hsame, ?_⟩
    rintro m t rfl rfl hname
    exact steps_of_missing hname h value
  case assigned =>
    intro f i name value h s'
    have hs' : s' = s.define i name value := perform_assign_of_find h
    obtain ⟨v, hv⟩ := Option.isSome_iff_exists.1 (find_some h).2
    have hget : s.get? f name = some v := by rw [get?, h, Option.bind_some, hv]
    rw [hs']
    refine ⟨assign?_of_find h, ⟨v, hget, hv, ?_⟩, size_define .., fun g => parent?_define ..,
      at?_define_found h, find_define_found h, get?_define_iff_found h⟩
    rintro m t rfl rfl hname
    exact steps_of_found hname h hget value
  case defined =>
    intro f hf name value s' g n
    refine ⟨?_, fun hnot => ?_⟩
    · rintro ⟨rfl, hclear⟩
      exact get?_define_of_clear hf hclear
    · by_cases hn : n = name
      · subst hn
        exact get?_define_of_not_clear fun hclear => hnot ⟨rfl, hclear⟩
      · exact get?_define_ne hn f

end Store

end Lox
