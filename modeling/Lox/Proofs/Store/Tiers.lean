import Lox.Proofs.Store.Scopes

/-!
Two stores side by side. From two frames that show the same, running code puts the same frames on
top in both stores, and sometimes an empty one in the left store only. Frame by frame the two
stacks bind the same, so wherever an assignment lands, it lands at the same height in both.
-/
namespace Lox

/-- A place in two stacks of frames: a frame in each, or one in the left stack only, which is then
level with the frame of the right stack below it. -/
inductive Tier where
  | both (left right : Nat)
  | extra (left right : Nat)

namespace Tier

def left : Tier → Nat
  | both left _ | extra left _ => left

def right : Tier → Nat
  | both _ right | extra _ right => right

end Tier

/-- Stacks of frames over two frames that show the same, the top apart from the rest. -/
inductive Stacked (σ τ : Store) : Tier → List Tier → Prop where
  | base {f g : Nat} : f < σ.frames.size → g < τ.frames.size →
      (∀ n, σ.get? f n = τ.get? g n) → Stacked σ τ (.both f g) []
  | both {f g : Nat} {next : Tier} {rest : List Tier} : σ.parent? f = some next.left →
      τ.parent? g = some next.right → (∀ n, σ.at? f n = τ.at? g n) → Stacked σ τ next rest →
      Stacked σ τ (.both f g) (next :: rest)
  | extra {f : Nat} {next : Tier} {rest : List Tier} : σ.parent? f = some next.left →
      (∀ n, σ.at? f n = none) → Stacked σ τ next rest →
      Stacked σ τ (.extra f next.right) (next :: rest)

namespace Stacked

variable {σ τ : Store} {top next : Tier} {rest : List Tier} {f g : Nat}

theorem outer (h : Stacked σ τ top (next :: rest)) : Stacked σ τ next rest := by
  cases h with
  | both _ _ _ h => exact h
  | extra _ _ h => exact h

theorem left_lt (h : Stacked σ τ top rest) : top.left < σ.frames.size := by
  cases h with
  | base hf _ _ => exact hf
  | both hf _ _ _ => exact Store.lt_size_of_parent? hf
  | extra hf _ _ => exact Store.lt_size_of_parent? hf

theorem right_lt (h : Stacked σ τ top rest) : top.right < τ.frames.size := by
  induction h with
  | base _ hg _ => exact hg
  | both _ hg _ _ _ => exact Store.lt_size_of_parent? hg
  | extra _ _ _ ih => exact ih

theorem get?_eq (h : Stacked σ τ top rest) (n : Name) :
    σ.get? top.left n = τ.get? top.right n := by
  induction h with
  | base _ _ hget => exact hget n
  | both hf hg hat _ ih =>
    simp only [Tier.left, Tier.right] at ih ⊢
    rw [Store.get?_outward, Store.get?_outward τ, hat, hf, hg]
    simp only [Option.bind_some, Tier.left, Tier.right, ih]
  | extra hf hat _ ih =>
    simp only [Tier.left, Tier.right] at ih ⊢
    rw [Store.get?_outward, hat, hf, Option.none_or]
    exact ih

theorem get?_of_mem {tier : Tier} (h : Stacked σ τ top rest) (hmem : tier ∈ top :: rest)
    (n : Name) : σ.get? tier.left n = τ.get? tier.right n := by
  induction rest generalizing top with
  | nil =>
    rw [List.mem_singleton] at hmem
    exact hmem ▸ h.get?_eq n
  | cons next rest ih =>
    obtain rfl | hmem := List.mem_cons.1 hmem
    · exact h.get?_eq n
    · exact ih h.outer hmem

theorem congr {σ' τ' : Store} {bound bound' : Nat} (h : Stacked σ τ top rest)
    (hσ : Store.SameBelow bound σ σ') (hτ : Store.SameBelow bound' τ τ') (hleft : top.left < bound)
    (hright : top.right < bound') : Stacked σ' τ' top rest := by
  induction h with
  | @base f g hf hg hget =>
    refine .base (Nat.lt_of_lt_of_le hf hσ.size) (Nat.lt_of_lt_of_le hg hτ.size) fun n => ?_
    have hleft' := Store.get?_congr hσ.parents (fun i hi => hσ.bindings i hi n) hleft
    have hright' := Store.get?_congr hτ.parents (fun i hi => hτ.bindings i hi n) hright
    exact hleft'.trans ((hget n).trans hright'.symm)
  | @both f g next rest hf hg hat _ ih =>
    have hbelow := ih (Nat.lt_trans (Store.parent?_lt hf) hleft)
      (Nat.lt_trans (Store.parent?_lt hg) hright)
    refine .both ((hσ.parents f hleft).trans hf) ((hτ.parents g hright).trans hg) ?_ hbelow
    intro n
    exact (hσ.bindings f hleft n).trans ((hat n).trans (hτ.bindings g hright n).symm)
  | @extra f next rest hf hat _ ih =>
    have hbelow := ih (Nat.lt_trans (Store.parent?_lt hf) hleft) hright
    exact .extra ((hσ.parents f hleft).trans hf) (fun n => (hσ.bindings f hleft n).trans (hat n))
      hbelow

theorem exists_self (s : Store) {frame : Nat} (h : frame < s.frames.size) :
    ∃ rest, Stacked s s (.both frame frame) rest ∧
      ∀ i, s.OnChain frame i → .both i i ∈ Tier.both frame frame :: rest := by
  induction frame using Nat.strongRecOn with
  | ind frame ih =>
    cases hp : s.parent? frame with
    | none =>
      refine ⟨[], .base h h fun _ => rfl, fun i hi => ?_⟩
      cases hi with
      | self => exact List.mem_singleton.2 rfl
      | outward hp' _ =>
        rw [hp] at hp'
        cases hp'
    | some parent =>
      have hlower := Store.parent?_lt hp
      obtain ⟨rest, hrest, hmem⟩ := ih parent hlower (Nat.lt_trans hlower h)
      refine ⟨.both parent parent :: rest, .both hp hp (fun _ => rfl) hrest, fun i hi => ?_⟩
      cases hi with
      | self => exact List.mem_cons_self
      | outward hp' hi =>
        rw [hp] at hp'
        cases hp'
        exact List.mem_cons_of_mem _ (hmem i hi)

theorem push (h : Stacked σ τ top rest) :
    Stacked (σ.push (some top.left)) (τ.push (some top.right))
      (.both σ.frames.size τ.frames.size) (top :: rest) := by
  have hbelow := h.congr (σ.sameBelow_push (some top.left)) (τ.sameBelow_push (some top.right))
    h.left_lt h.right_lt
  refine .both (Store.parent?_push_size h.left_lt) (Store.parent?_push_size h.right_lt) ?_ hbelow
  intro n
  rw [Store.at?_push_size, Store.at?_push_size]

theorem pushLeft (h : Stacked σ τ top rest) :
    Stacked (σ.push (some top.left)) τ (.extra σ.frames.size top.right) (top :: rest) := by
  have hbelow := h.congr (σ.sameBelow_push (some top.left)) (Store.sameBelow_self (top.right + 1) τ)
    h.left_lt (Nat.lt_succ_self _)
  exact .extra (Store.parent?_push_size h.left_lt) (fun n => Store.at?_push_size _) hbelow

theorem define (h : Stacked σ τ (.both f g) rest) (name : Name) (value : Value) :
    Stacked (σ.define f name value) (τ.define g name value) (.both f g) rest := by
  have hf := h.left_lt
  have hg := h.right_lt
  have hσ := σ.sameBelow_define f name value
  have hτ := τ.sameBelow_define g name value
  simp only [Tier.left, Tier.right] at hf hg
  cases h with
  | base _ _ hget =>
    refine .base (by simpa using hf) (by simpa using hg) fun n => ?_
    rw [Store.get?_define_self hf, Store.get?_define_self hg, hget]
  | both hpf hpg hat h =>
    refine .both ?_ ?_ (fun n => ?_) (h.congr hσ hτ (Store.parent?_lt hpf) (Store.parent?_lt hpg))
    · rw [Store.parent?_define, hpf]
    · rw [Store.parent?_define, hpg]
    · rw [Store.at?_define, Store.at?_define, hat]
      simp only [hf, hg, true_and, and_true]

theorem assign (h : Stacked σ τ top rest) (name : Name) (value : Value) :
    (σ.find top.left name = none ∧ τ.find top.right name = none) ∨
      ∃ i j, σ.find top.left name = some i ∧ τ.find top.right name = some j ∧
        Stacked (σ.define i name value) (τ.define j name value) top rest := by
  induction h with
  | @base f g hf hg hget =>
    have hsome : (σ.find f name).isSome = (τ.find g name).isSome := by
      rw [← Store.isSome_get?, ← Store.isSome_get?, hget]
    cases hi : σ.find f name with
    | none =>
      rw [hi, Option.isSome_none, eq_comm, Option.isSome_eq_false_iff, Option.isNone_iff_eq_none] at hsome
      exact .inl ⟨hi, hsome⟩
    | some i =>
      rw [hi, Option.isSome_some, eq_comm] at hsome
      obtain ⟨j, hj⟩ := Option.isSome_iff_exists.1 hsome
      refine .inr ⟨i, j, hi, hj, .base (by simpa using hf) (by simpa using hg) fun n => ?_⟩
      rw [Store.get?_define_found hi, Store.get?_define_found hj, hget]
  | @both f g next rest hf hg hat h ih =>
    have hstacked : Stacked σ τ (.both f g) (next :: rest) := .both hf hg hat h
    simp only [Tier.left, Tier.right] at ih ⊢
    rw [Store.find_outward, Store.find_outward τ, hat, hf, hg]
    -- the two tops bind the same, so the name is in both of them or further out on both sides
    by_cases hbinds : (τ.at? g name).isSome = true
    · rw [if_pos hbinds, if_pos hbinds]
      exact .inr ⟨f, g, rfl, rfl, hstacked.define name value⟩
    · rw [if_neg hbinds, if_neg hbinds, Option.bind_some, Option.bind_some]
      obtain hnone | ⟨i, j, hi, hj, hdefined⟩ := ih
      · exact .inl hnone
      · refine .inr ⟨i, j, hi, hj, .both ?_ ?_ (fun n => ?_) hdefined⟩
        · rw [Store.parent?_define, hf]
        · rw [Store.parent?_define, hg]
        · rw [Store.at?_define_outward hi hf, Store.at?_define_outward hj hg, hat]
  | @extra f next rest hf hat h ih =>
    simp only [Tier.left, Tier.right] at ih ⊢
    rw [Store.find_outward, hat, Option.isSome_none, if_neg Bool.false_ne_true, hf, Option.bind_some]
    obtain hnone | ⟨i, j, hi, hj, hdefined⟩ := ih
    · exact .inl hnone
    · refine .inr ⟨i, j, hi, hj, .extra ?_ (fun n => ?_) hdefined⟩
      · rw [Store.parent?_define, hf]
      · rw [Store.at?_define_outward hi hf, hat]

end Stacked

end Lox
