import Lox.Proofs.Machine.Stack
import Lox.Proofs.Session.Joining

/-!
Sessions with more room for calls. A run that does not overflow is the same with more room. One
that does gives up at the call that found none, back in the frame it started in, and what it has
written is what the run with more room writes first.
-/
namespace Lox

def Step.allowing (step : Step) (calls : Nat) : Step :=
  { step with session := { step.session with settings := step.session.settings.allowing calls } }

/-- The token of the call that found no room, if a run ended by that. -/
def Ending.overflow? : Ending → Option Token
  | .fault (.error ⟨t, .stackOverflow⟩) => some t
  | _ => none

theorem Ending.overflow?_eq_some {ending : Ending} {t : Token} :
    ending.overflow? = some t ↔ ending = .fault (.error ⟨t, .stackOverflow⟩) := by
  constructor
  · intro h
    unfold overflow? at h
    split at h
    · cases h
      rfl
    · cases h
  · rintro rfl
    rfl

namespace Session

def allowing (s : Session) (calls : Nat) : Session :=
  { s with settings := s.settings.allowing calls }

def watch (s : Session) (fuel : Nat) (statements : List Node) : Watched Value :=
  (Query.executeAll .nil statements).watch s.settings fuel [] { s.state with log := [] }

/-- What a run has written to the output by the time it ended or had spent its fuel. -/
def written (s : Session) (fuel : Nat) (before : List Event) (statements : List Node) : Text :=
  Text.join ((before ++ (s.watch fuel statements).state.log.reverse).map
    (Event.output s.settings.traceFile))

variable {s : Session} {before : List Event} {statements : List Node} {fuel : Nat}

theorem watch_tells (s : Session) (fuel : Nat) (statements : List Node) :
    Tells s.settings [] { s.state with log := [] } (s.watch fuel statements)
      (executeAll s.settings fuel s.settings.maxCalls .nil statements
        { s.state with log := [] }) :=
  (Query.executeAll .nil statements).watches s.settings fuel (Nat.zero_le _)
    { s.state with log := [] }

theorem run_watch (s : Session) (fuel : Nat) (before : List Event) (statements : List Node) :
    s.run fuel before statements = s.ended before (s.watch fuel statements).outcome := by
  rw [run_eq, (s.watch_tells fuel statements).outcome_eq]

/-- A run that overflows does so within as many calls as may be active, and comes back to its
frame. -/
theorem watch_overflow {t : Token}
    (h : (s.run fuel before statements).ending.overflow? = some t) :
    (s.run fuel before statements).session.state.frame = s.state.frame ∧
      ∃ active state, active.length = s.settings.maxCalls ∧
        s.watch fuel statements = .stopped (.overflow t active) state := by
  have htells := s.watch_tells fuel statements
  rw [run_eq, Ending.overflow?_eq_some] at h
  rw [run_eq]
  obtain ⟨state, hfailed⟩ := ended_fault h
  generalize s.watch fuel statements = watched at htells
  rw [hfailed] at htells ⊢
  cases htells with
  | fault _ hfault => exact absurd rfl (hfault t)
  | overflow hframe _ hlength => exact ⟨hframe, _, state, hlength, rfl⟩

theorem output_ended_error (s : Session) (before : List Event) (e : RuntimeError) (t : State) :
    (s.ended before (.failed (.error e) t)).output =
      Text.join ((before ++ t.log.reverse).map (Event.output s.settings.traceFile)) := by
  apply Text.eq_of_points
  simp [ended, Step.output, Event.output, Text.points_join, Text.points_plain]

theorem output_run (h : (s.run fuel before statements).ending ≠ .outOfFuel) :
    (s.run fuel before statements).output = s.written fuel before statements := by
  rw [run_watch] at h ⊢
  unfold written
  generalize s.watch fuel statements = watched at h
  cases watched with
  | done v t => rfl
  | stopped why t =>
    cases why with
    | fault fault =>
      cases fault with
      | error e => exact output_ended_error s before e t
      | defect d => rfl
    | overflow paren active => exact output_ended_error s before ⟨paren, .stackOverflow⟩ t
    | spent => exact absurd rfl h

theorem run_overflow {paren : Token} {active : List Token} {t : State}
    (h : s.watch fuel statements = .stopped (.overflow paren active) t) :
    (s.run fuel before statements).ending.overflow? = some paren := by
  rw [run_watch, h]
  rfl

theorem watch_allowing (s : Session) (fuel : Nat) (statements : List Node) {few many : Nat}
    (hle : few ≤ many) :
    (s.allowing many).watch fuel statements = (s.allowing few).watch fuel statements ∨
      ∃ paren active t,
        (s.allowing few).watch fuel statements = .stopped (.overflow paren active) t :=
  (Query.executeAll .nil statements).watch_same hle fuel [] { s.state with log := [] }

theorem written_append (s : Session) (before : List Event) (statements : List Node)
    {few many : Nat} (hle : few ≤ many) {more : Nat} (hfuel : fuel ≤ more) :
    ∃ rest, (s.allowing many).written more before statements =
      (s.allowing few).written fuel before statements ++ rest := by
  obtain ⟨new, hlog⟩ :=
    (Query.executeAll .nil statements).watch_log hle hfuel [] { s.state with log := [] }
  have hlog : new ++ ((s.allowing few).watch fuel statements).state.log =
      ((s.allowing many).watch more statements).state.log := hlog
  refine ⟨Text.join (new.reverse.map (Event.output s.settings.traceFile)), ?_⟩
  unfold written
  rw [← hlog, List.reverse_append, ← List.append_assoc, List.map_append, Text.join_append]
  rfl

theorem ended_allowing (s : Session) (before : List Event) (few many : Nat) (o : Outcome Value) :
    (s.allowing many).ended before o = ((s.allowing few).ended before o).allowing many := by
  cases o with
  | failed fault t => cases fault <;> rfl
  | _ => rfl

/-- A larger stack only lets a run go on, whatever the session and the program are. A run is watched
as it is. If it does not overflow, the run with more room is the same in all respects, and so is
what can be watched of it. If it does, the error is at the token of the call that found no room
within as many active calls as there may be, the current frame is the one that the run started in,
and what it wrote is what the run with more room starts with, however far that goes. -/
theorem run_goes_on (s : Session) (before : List Event) (statements : List Node) {few many : Nat}
    (hle : few ≤ many) (fuel : Nat) :
    let run (calls fuel : Nat) := (s.allowing calls).run fuel before statements
    let watch (calls fuel : Nat) := (s.allowing calls).watch fuel statements
    let written (calls fuel : Nat) := (s.allowing calls).written fuel before statements
    (∀ calls fuel,
      run calls fuel = (s.allowing calls).ended before (watch calls fuel).outcome ∧
        ((run calls fuel).ending ≠ .outOfFuel → (run calls fuel).output = written calls fuel)) ∧
    ((run few fuel).ending.overflow? = none →
      watch many fuel = watch few fuel ∧ run many fuel = (run few fuel).allowing many) ∧
    ∀ t, (run few fuel).ending.overflow? = some t →
      (run few fuel).session.state.frame = s.state.frame ∧
      (∃ active state, active.length = few ∧
        watch few fuel = .stopped (.overflow t active) state) ∧
      ∀ more ≥ fuel, ∃ rest, written many more = (run few fuel).output ++ rest := by
  intro run watch written
  refine ⟨fun calls fuel => ⟨run_watch .., output_run⟩, fun hnone => ?_, fun t ht => ?_⟩
  · obtain hsame | ⟨paren, active, t, hwatch⟩ := s.watch_allowing fuel statements hle
    · refine ⟨hsame, ?_⟩
      change (s.allowing many).run fuel before statements =
        ((s.allowing few).run fuel before statements).allowing many
      rw [run_watch, run_watch, hsame]
      exact ended_allowing ..
    · cases hnone.symm.trans (run_overflow hwatch)
  · obtain ⟨hframe, active, state, hlength, hwatch⟩ := watch_overflow ht
    refine ⟨hframe, ⟨active, state, hlength, hwatch⟩, fun more hmore => ?_⟩
    have houtput : (run few fuel).output = written few fuel :=
      output_run (by rw [Ending.overflow?_eq_some.1 ht]; nofun)
    rw [houtput]
    exact written_append s before statements hle hmore

/-- A function that wants to be active three times at once. With room for two it is cut short. With
room for three it is not, and more makes no difference. -/
theorem run_goes_on_countdown :
    let statements := statementsOf "fun f(n) \x7b print n; if (n > 0) f(n - 1); \x7d f(2);".toList
    let s : Session := { settings := ⟨0, .zero, 0, false⟩ }
    let run (calls : Nat) := (s.allowing calls).run 40 [] statements
    (∃ t active state rest, (run 2).ending.overflow? = some t ∧
      (s.allowing 2).watch 40 statements = .stopped (.overflow t active) state ∧
      active.length = 2 ∧ (run 2).output = "2\n1\n" ∧
      (s.allowing 3).written 40 [] statements = (run 2).output ++ rest) ∧
    (run 3).output = "2\n1\n0\n" ∧ run 5 = (run 3).allowing 5 := by
  intro statements s run
  have hoverflow : (run 2).ending.overflow?.isSome = true := by decide +kernel
  obtain ⟨t, ht⟩ := Option.isSome_iff_exists.1 hoverflow
  have htwo : (run 2).output = "2\n1\n" := by decide +kernel
  have hthree : (run 3).output = "2\n1\n0\n" := by decide +kernel
  have hnone : (run 3).ending.overflow? = none := by decide +kernel
  obtain ⟨-, -, hshort⟩ := s.run_goes_on [] statements (show 2 ≤ 3 by decide) 40
  obtain ⟨-, hfits, -⟩ := s.run_goes_on [] statements (show 3 ≤ 5 by decide) 40
  obtain ⟨-, ⟨active, state, hlength, hwatch⟩, hrest⟩ := hshort t ht
  obtain ⟨rest, hrest⟩ := hrest 40 (Nat.le_refl _)
  exact ⟨⟨t, active, state, rest, ht, hwatch, hlength, htwo, hrest⟩, hthree, (hfits hnone).2⟩

end Session

end Lox
