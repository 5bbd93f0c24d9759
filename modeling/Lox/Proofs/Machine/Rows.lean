import Lox.Proofs.Machine.Frames
import Lox.Proofs.Machine.Fuel
import Lox.Proofs.Machine.Reports

/-!
Rows of statements taken apart. A row that fails has run all statements before the one that
failed, and a row with a value other than the one it started with has it from its last
statement. Only an expression statement gives a value other than nil.
-/
namespace Lox

variable {settings : Settings} {calls : Nat} {last v : Value} {n : Node} {ns ms : List Node}
  {s t : State} {o o' : Outcome Value} {fault : Fault}

namespace Runs

theorem eq (h : Runs settings calls last ns s o) (h' : Runs settings calls last ns s o') :
    o = o' := by
  obtain ⟨-, enough, h⟩ := h
  obtain ⟨-, enough', h'⟩ := h'
  exact (h _ (Nat.le_max_left enough enough')).symm.trans (h' _ (Nat.le_max_right enough enough'))

theorem of_append (h : Runs settings calls last (ns ++ ms) s o) :
    (∃ w m, Runs settings calls last ns s (.done w m) ∧ Runs settings calls w ms m o) ∨
      ∃ fault t, Runs settings calls last ns s (.failed fault t) ∧ o = .failed fault t := by
  induction ns generalizing last s with
  | nil => exact .inl ⟨last, s, .nil, h⟩
  | cons n ns ih =>
    obtain ⟨fuel, ⟨v, t, hfirst, hrest⟩ | ⟨fault, t, hfirst, rfl⟩⟩ := h.of_cons
    · obtain ⟨w, m, hns, hms⟩ | ⟨fault, u, hns, rfl⟩ := ih hrest
      · exact .inl ⟨w, m, .cons hfirst hns, hms⟩
      · exact .inr ⟨fault, u, .cons hfirst hns, rfl⟩
    · exact .inr ⟨fault, t, .cons_failed hfirst, rfl⟩

theorem exists_failing (h : Runs settings calls last ns s (.failed fault t)) :
    ∃ ran failing rest w m fuel, ns = ran ++ failing :: rest ∧
      Runs settings calls last ran s (.done w m) ∧
      execute settings fuel calls failing m = .failed fault t := by
  induction ns generalizing last s with
  | nil => cases h.of_nil
  | cons n ns ih =>
    obtain ⟨fuel, ⟨v, u, hfirst, hrest⟩ | ⟨fault, u, hfirst, hout⟩⟩ := h.of_cons
    · obtain ⟨ran, failing, rest, w, m, fuel', rfl, hran, hfails⟩ := ih hrest
      exact ⟨n :: ran, failing, rest, w, m, fuel', rfl, .cons hfirst hran, hfails⟩
    · cases hout
      exact ⟨[], n, ns, last, s, fuel, rfl, .nil, hfirst⟩

theorem exists_last (h : Runs settings calls last ns s (.done v t)) (hv : v ≠ last) :
    ∃ init n w m fuel, ns = init ++ [n] ∧ Runs settings calls last init s (.done w m) ∧
      execute settings fuel calls n m = .done v t := by
  obtain rfl | ⟨init, n, hns⟩ := List.eq_nil_or_concat ns
  · cases h.of_nil
    exact absurd rfl hv
  · rw [List.concat_eq_append] at hns
    subst hns
    obtain ⟨w, m, hinit, hlast⟩ | ⟨fault, u, -, hout⟩ := h.of_append
    · obtain ⟨fuel, ⟨v', t', hn, hnil⟩ | ⟨fault, u, -, hout⟩⟩ := hlast.of_cons
      · cases hnil.of_nil
        exact ⟨init, n, w, m, fuel, rfl, hinit, hn⟩
      · cases hout
    · cases hout

theorem kept (h : Runs settings calls last ns s (.done v t)) (hs : s.Live) : Kept true s t := by
  obtain ⟨-, enough, h⟩ := h
  have hkept := (Query.executeAll last ns).keeps true settings enough calls nofun s hs
  rw [Query.run, h enough (Nat.le_refl _)] at hkept
  exact hkept

theorem noted (h : Runs settings calls last ns s (.failed fault t)) : s.Noted t := by
  obtain ⟨-, enough, h⟩ := h
  have hnotes := (Query.executeAll last ns).notes settings enough calls s
  rw [Query.run, h enough (Nat.le_refl _)] at hnotes
  exact hnotes

end Runs

namespace Exec

variable {α : Type}

def GivesNil (x : Exec Value) : Prop := ∀ s, (x s).Meets (fun v _ => v = .nil) (fun _ _ => True)

theorem givesNil_pure : GivesNil (pure .nil) := fun _ => rfl

theorem givesNil_outOfFuel : GivesNil outOfFuel := fun _ => trivial

theorem givesNil_bind {x : Exec α} {f : α → Exec Value} (hf : ∀ a, GivesNil (f a)) :
    GivesNil (x >>= f) := by
  intro s
  apply Outcome.Meets.bind
  cases x s with
  | done a t => exact hf a t
  | failed fault t => trivial
  | outOfFuel => trivial

theorem givesNil_iterate (fuel calls : Nat) (condition body : Node) :
    GivesNil (iterate settings fuel calls condition body) := by
  induction fuel with
  | zero =>
    unfold iterate
    exact givesNil_outOfFuel
  | succ fuel ih =>
    unfold iterate
    refine givesNil_bind fun v => givesNil_bind fun _ => ?_
    split
    · exact givesNil_bind fun _ => ih
    · exact givesNil_pure

theorem givesNil_execute (fuel calls : Nat) (hn : ∀ e, n ≠ .expression e) :
    GivesNil (execute settings fuel calls n) := by
  cases fuel with
  | zero =>
    unfold execute
    exact givesNil_outOfFuel
  | succ fuel =>
    unfold execute
    cases n with
    | expression e => exact absurd rfl (hn e)
    | print => exact givesNil_bind fun _ => givesNil_bind fun _ => givesNil_pure
    | var =>
      exact givesNil_bind fun _ => givesNil_bind fun _ => givesNil_bind fun _ => givesNil_pure
    | block => exact givesNil_bind fun _ => givesNil_pure
    | ifElse =>
      exact givesNil_bind fun _ => givesNil_bind fun _ => givesNil_bind fun _ => givesNil_pure
    | loop condition body => exact givesNil_iterate fuel calls condition body
    | function =>
      exact givesNil_bind fun _ => givesNil_bind fun _ => givesNil_bind fun _ => givesNil_pure
    | _ => exact fun _ => trivial

theorem execute_value {fuel : Nat} (h : execute settings fuel calls n s = .done v t)
    (hv : v ≠ .nil) :
    ∃ e fuel', n = .expression e ∧ evaluate settings fuel' calls e s = .done v t := by
  by_cases hn : ∀ e, n ≠ .expression e
  · have hmeets := @givesNil_execute settings _ fuel calls hn s
    rw [h] at hmeets
    exact absurd hmeets hv
  · obtain ⟨e, he⟩ := Classical.not_forall.1 hn
    obtain rfl := Classical.not_not.1 he
    cases fuel with
    | zero =>
      unfold execute at h
      cases h
    | succ fuel =>
      unfold execute at h
      exact ⟨e, fuel, rfl, h⟩

end Exec

end Lox
