import Lox.Proofs.Machine.Plan

/-!
Fuel only decides whether there is an answer. A run that comes to an end does so with more fuel,
too, and in the same way; so statements run one after the other can be run in one go, given enough.
-/
namespace Lox

namespace Exec

variable {α β : Type}

/-- The second step does what the first one does, unless that spends its fuel. -/
def Improves (x y : Exec α) : Prop := ∀ s, x s = .outOfFuel ∨ y s = x s

theorem improves_refl (x : Exec α) : Improves x x := fun _ => .inr rfl

theorem improves_outOfFuel (y : Exec α) : Improves outOfFuel y := fun _ => .inl rfl

theorem Improves.eq_of_ne {x y : Exec α} {s : State} (h : Improves x y) (hne : x s ≠ .outOfFuel) :
    y s = x s := by
  obtain hout | hsame := h s
  · exact absurd hout hne
  · exact hsame

theorem Improves.trans {x y z : Exec α} (hxy : Improves x y) (hyz : Improves y z) :
    Improves x z := by
  intro s
  obtain hx | hy := hxy s
  · exact .inl hx
  · obtain hz | hz := hyz s
    · exact .inl (hy.symm.trans hz)
    · exact .inr (hz.trans hy)

theorem Improves.bind {x y : Exec α} {f g : α → Exec β} (hx : Improves x y)
    (hf : ∀ a, Improves (f a) (g a)) : Improves (x >>= f) (y >>= g) := by
  intro s
  obtain hrun | hy := hx s
  · exact .inl (bind_of_outOfFuel hrun)
  · cases hrun : x s with
    | done a t =>
      rw [hrun] at hy
      rw [bind_of_done hrun, bind_of_done hy]
      exact hf a t
    | failed fault t =>
      rw [hrun] at hy
      rw [bind_of_failed hrun, bind_of_failed hy]
      exact .inr rfl
    | outOfFuel => exact .inl (bind_of_outOfFuel hrun)

theorem improves_bind {x : Exec α} {f g : α → Exec β} (hf : ∀ a, Improves (f a) (g a)) :
    Improves (x >>= f) (x >>= g) :=
  (improves_refl x).bind hf

theorem Improves.inNewFrame {x y : Exec α} (hx : Improves x y) :
    Improves (inNewFrame x) (inNewFrame y) := by
  intro s
  obtain hrun | hy :=
    hx { s with store := s.store.push (some s.frame), frame := s.store.frames.size }
  · left
    simp only [Exec.inNewFrame, hrun, restore]
  · right
    simp only [Exec.inNewFrame, hy]

end Exec

open Exec

variable {settings : Settings} {fuel more calls : Nat}

theorem Plan.improves
    (hquery : ∀ {β : Type} (calls : Nat) (query : Query β),
      Improves (query.run settings fuel calls) (query.run settings more calls))
    {α : Type} (p : Plan α) (calls : Nat) :
    Improves (p.run settings fuel calls) (p.run settings more calls) := by
  induction p generalizing calls with
  | done a => exact improves_refl _
  | step op next ih => exact improves_bind fun b => ih b calls
  | ask query next ih => exact (hquery calls query).bind fun b => ih b calls
  | scope body next ihbody ih => exact (ihbody calls).inNewFrame.bind fun _ => ih calls
  | call paren body next ihbody ih =>
    cases calls with
    | zero => exact improves_refl _
    | succ calls => exact (ihbody calls).inNewFrame.bind fun _ => ih (calls + 1)

/-- More fuel keeps every answer. -/
theorem Query.improves (h : fuel ≤ more) (calls : Nat) {α : Type} (query : Query α) :
    Improves (query.run settings fuel calls) (query.run settings more calls) := by
  induction fuel generalizing more calls α with
  | zero =>
    rw [run_zero]
    exact improves_outOfFuel _
  | succ fuel ih =>
    obtain ⟨more, rfl⟩ := Nat.exists_eq_add_one.2 (Nat.lt_of_lt_of_le fuel.succ_pos h)
    rw [run_succ, run_succ]
    exact query.plan.improves (fun calls query => ih (Nat.le_of_succ_le_succ h) calls query) calls

theorem execute_improves (h : fuel ≤ more) (calls : Nat) (n : Node) :
    Improves (execute settings fuel calls n) (execute settings more calls n) :=
  (Query.execute n).improves h calls

theorem executeAll_improves (h : fuel ≤ more) (calls : Nat) (last : Value) (ns : List Node) :
    Improves (executeAll settings fuel calls last ns) (executeAll settings more calls last ns) :=
  (Query.executeAll last ns).improves h calls

theorem evaluate_improves (h : fuel ≤ more) (calls : Nat) (n : Node) :
    Improves (evaluate settings fuel calls n) (evaluate settings more calls n) :=
  (Query.evaluate n).improves h calls

/-- What a run of statements comes to, given enough fuel. -/
def Runs (settings : Settings) (calls : Nat) (last : Value) (ns : List Node) (s : State)
    (o : Outcome Value) : Prop :=
  o ≠ .outOfFuel ∧ ∃ enough, ∀ fuel ≥ enough, executeAll settings fuel calls last ns s = o

theorem runs_of_executeAll (fuel : Nat) {last : Value} {ns : List Node} {s : State}
    {o : Outcome Value} (h : executeAll settings fuel calls last ns s = o) (ho : o ≠ .outOfFuel) :
    Runs settings calls last ns s o := by
  refine ⟨ho, fuel, fun more hmore => ?_⟩
  obtain hout | hsame := executeAll_improves hmore calls last ns s
  · exact absurd (h.symm.trans hout) ho
  · exact hsame.trans h

namespace Runs

variable {last v : Value} {n : Node} {ns ms : List Node} {s t : State} {o : Outcome Value}
  {fault : Fault}

theorem nil : Runs settings calls last [] s (.done last s) :=
  runs_of_executeAll 1 (by rw [executeAll]; rfl) nofun

theorem cons (h : execute settings fuel calls n s = .done v t)
    (hrest : Runs settings calls v ns t o) : Runs settings calls last (n :: ns) s o := by
  obtain ⟨ho, enough, hrest⟩ := hrest
  let more := max fuel enough
  obtain hout | hsame := execute_improves (Nat.le_max_left fuel enough) calls n s
  · rw [h] at hout
    cases hout
  · apply runs_of_executeAll (more + 1) _ ho
    rw [executeAll, Exec.bind_of_done (hsame.trans h)]
    exact hrest more (Nat.le_max_right fuel enough)

theorem cons_failed (h : execute settings fuel calls n s = .failed fault t) :
    Runs settings calls last (n :: ns) s (.failed fault t) := by
  refine runs_of_executeAll (fuel + 1) ?_ nofun
  rw [executeAll, Exec.bind_of_failed h]

theorem of_cons (h : Runs settings calls last (n :: ns) s o) :
    ∃ fuel, (∃ v t, execute settings fuel calls n s = .done v t ∧ Runs settings calls v ns t o) ∨
      ∃ fault t, execute settings fuel calls n s = .failed fault t ∧ o = .failed fault t := by
  obtain ⟨ho, enough, h⟩ := h
  have hrun := h (enough + 1) (Nat.le_succ enough)
  rw [executeAll] at hrun
  refine ⟨enough, ?_⟩
  cases hfirst : execute settings enough calls n s with
  | done v t =>
    rw [Exec.bind_of_done hfirst] at hrun
    exact .inl ⟨v, t, rfl, runs_of_executeAll enough hrun ho⟩
  | failed fault t =>
    rw [Exec.bind_of_failed hfirst] at hrun
    exact .inr ⟨fault, t, rfl, hrun.symm⟩
  | outOfFuel =>
    rw [Exec.bind_of_outOfFuel hfirst] at hrun
    exact absurd hrun.symm ho

theorem of_nil (h : Runs settings calls last [] s o) : o = .done last s := by
  obtain ⟨-, enough, h⟩ := h
  have hrun := h (enough + 1) (Nat.le_succ enough)
  rw [executeAll] at hrun
  exact hrun.symm

theorem append (hns : Runs settings calls last ns s (.done v t))
    (hms : Runs settings calls v ms t o) : Runs settings calls last (ns ++ ms) s o := by
  induction ns generalizing last s with
  | nil =>
    cases hns.of_nil
    exact hms
  | cons n ns ih =>
    obtain ⟨fuel, ⟨w, u, hfirst, hrest⟩ | ⟨fault, u, -, h⟩⟩ := hns.of_cons
    · exact .cons hfirst (ih hrest)
    · cases h

theorem append_failed (hns : Runs settings calls last ns s (.failed fault t)) (ms : List Node) :
    Runs settings calls last (ns ++ ms) s (.failed fault t) := by
  induction ns generalizing last s with
  | nil => cases hns.of_nil
  | cons n ns ih =>
    obtain ⟨fuel, ⟨w, u, hfirst, hrest⟩ | ⟨fault, u, hfirst, h⟩⟩ := hns.of_cons
    · exact .cons hfirst (ih hrest)
    · cases h
      exact .cons_failed hfirst

theorem with_last (h : Runs settings calls last ns s (.done v t)) (other : Value) :
    (ns = [] ∧ Runs settings calls other ns s (.done other t)) ∨
      (ns ≠ [] ∧ Runs settings calls other ns s (.done v t)) := by
  cases ns with
  | nil =>
    cases h.of_nil
    exact .inl ⟨rfl, .nil⟩
  | cons n ns =>
    obtain ⟨fuel, ⟨w, u, hfirst, hrest⟩ | ⟨fault, u, -, h⟩⟩ := h.of_cons
    · exact .inr ⟨by simp, .cons hfirst hrest⟩
    · cases h

theorem failed_with_last (h : Runs settings calls last ns s (.failed fault t)) (other : Value) :
    Runs settings calls other ns s (.failed fault t) := by
  cases ns with
  | nil => cases h.of_nil
  | cons n ns =>
    obtain ⟨fuel, ⟨w, u, hfirst, hrest⟩ | ⟨fault, u, hfirst, h⟩⟩ := h.of_cons
    · exact .cons hfirst hrest
    · cases h
      exact .cons_failed hfirst

end Runs

end Lox
