import Lox.Proofs.Machine.Tracing
import Lox.Session

/-!
Sessions at two verbosities. A step at the lower one is the step at the higher one without the
entries above its level, and as long as the trace has a file of its own, output and diagnostics
are the same.
-/
namespace Lox

theorem Text.points_join (ts : List Text) : (join ts).points = ts.flatMap points := by
  have hfold (start : Text) :
      (ts.foldl (· ++ ·) start).points = start.points ++ ts.flatMap points := by
    induction ts generalizing start with
    | nil => simp
    | cons t ts ih => rw [List.foldl_cons, ih, points_append, List.flatMap_cons, List.append_assoc]
  rw [join, hfold]
  rfl

theorem Text.join_empty {ts : List Text} (h : ∀ t ∈ ts, t = "") : join ts = "" := by
  apply eq_of_points
  rw [points_join, List.flatMap_eq_nil_iff.2]
  · rfl
  · intro t ht
    rw [h t ht]
    rfl

theorem Text.append_assoc (a b c : Text) : a ++ b ++ c = a ++ (b ++ c) :=
  eq_of_points (by simp)

theorem Text.join_append (ts us : List Text) : join (ts ++ us) = join ts ++ join us :=
  eq_of_points (by simp [points_join])

theorem Text.join_cons (t : Text) (ts : List Text) : join (t :: ts) = t ++ join ts :=
  eq_of_points (by simp [points_join])

/-- The step with the entries left out that other settings do not call for. -/
def Step.upTo (low : Settings) (step : Step) : Step :=
  ⟨{ step.session with settings := low }, step.events.filter (Event.shows low.verbosity),
    step.ending⟩

namespace Session

variable {low : Settings} {s : Session}

@[simp] theorem settings_run (s : Session) (fuel : Nat) (before : List Event)
    (statements : List Node) : (s.run fuel before statements).session.settings = s.settings := by
  unfold Session.run
  dsimp only
  split <;> rfl

theorem runTraced_of_ok (s : Session) (fuel : Nat) {text : List Char} {statements : List Node}
    (h : program text = .ok statements) :
    s.runTraced fuel text = s.run fuel (tokenEvents s.settings (scan text)) statements := by
  have hprogram : (scan text).program = .ok statements := h
  unfold runTraced
  dsimp only
  rw [hprogram]

theorem runTraced_of_error (s : Session) (fuel : Nat) {text : List Char} {r : Rejection}
    (h : program text = .error r) :
    s.runTraced fuel text = s.reject (tokenEvents s.settings (scan text)) r := by
  have hprogram : (scan text).program = .error r := h
  unfold runTraced
  dsimp only
  rw [hprogram]

theorem output_reject {before : List Event} (r : Rejection)
    (h : ∀ e ∈ before, e.output s.settings.traceFile = "") : (s.reject before r).output = "" := by
  apply Text.join_empty
  intro t ht
  obtain ⟨e, he, rfl⟩ := List.mem_map.1 ht
  rcases List.mem_append.1 he with he | he
  · exact h e he
  · obtain ⟨d, -, rfl⟩ := List.mem_map.1 he
    rfl

theorem diagnostics_reject {before : List Event} (r : Rejection)
    (h : ∀ e ∈ before, e.diagnostic? = none) : (s.reject before r).diagnostics = r.errors := by
  have hreported : (r.errors.map Event.reported).filterMap Event.diagnostic? = r.errors := by
    rw [List.filterMap_map]
    exact List.filterMap_some
  unfold reject Step.diagnostics
  dsimp only
  rw [List.filterMap_append, List.filterMap_eq_nil_iff.2 h, hreported, List.nil_append]

theorem run_upTo (h : low.Below s.settings) (fuel : Nat) (before : List Event)
    (statements : List Node) :
    (s.run fuel before statements).ending = .fault (.defect .unwritableTrace) ∨
      Session.run { s with settings := low } fuel (before.filter (Event.shows low.verbosity))
        statements = (s.run fuel before statements).upTo low := by
  obtain ⟨high, state, reporter⟩ := s
  have hrun :=
    (Query.executeAll .nil statements).lowers h fuel high.maxCalls { state with log := [] }
  have hstart : State.upTo low.verbosity { state with log := [] } = { state with log := [] } := rfl
  simp only [Query.run, hstart] at hrun
  unfold Session.run
  dsimp only
  rw [h.maxCalls]
  obtain ⟨t, ht⟩ | hlow := hrun
  · left
    rw [ht]
  · right
    rw [hlow]
    cases executeAll high fuel high.maxCalls .nil statements { state with log := [] } with
    | done v t => simp [Outcome.upTo, State.upTo, Step.upTo]
    | failed fault t =>
      cases fault with
      | error e => simp [Outcome.upTo, State.upTo, Step.upTo, List.filter_cons]
      | defect d => simp [Outcome.upTo, State.upTo, Step.upTo]
    | outOfFuel => rfl

end Session

namespace Step

variable {low : Settings} {step : Step}

theorem diagnostics_upTo : (step.upTo low).diagnostics = step.diagnostics := by
  unfold diagnostics upTo
  dsimp only
  induction step.events with
  | nil => rfl
  | cons e es ih =>
    rw [List.filter_cons]
    split
    · rw [List.filterMap_cons, List.filterMap_cons, ih]
    · rename_i hshows
      cases e with
      | traced entry =>
        rw [ih]
        rfl
      | _ => exact absurd rfl hshows

theorem output_upTo (hhigh : step.session.settings.traceFile = true)
    (hlow : low.traceFile = true ∨ low.verbosity = 0) : (step.upTo low).output = step.output := by
  have hshown (e : Event) (h : e.shows low.verbosity = true) :
      e.output low.traceFile = e.output true := by
    cases e with
    | traced entry =>
      have hlevel : 1 ≤ entry.level := by cases entry <;> simp [Trace.level]
      have hle : entry.level ≤ low.verbosity := of_decide_eq_true h
      rcases hlow with hfile | hzero
      · rw [hfile]
      · omega
    | _ => rfl
  apply Text.eq_of_points
  unfold output upTo
  dsimp only
  rw [Text.points_join, Text.points_join, hhigh]
  induction step.events with
  | nil => rfl
  | cons e es ih =>
    rw [List.filter_cons, List.map_cons, List.flatMap_cons, ← ih]
    split
    · rename_i hshows
      rw [List.map_cons, List.flatMap_cons, hshown e hshows]
    · rename_i hshows
      cases e with
      | traced entry => rfl
      | _ => exact absurd rfl hshows

end Step

end Lox
