import Lox.Proofs.Machine.Reports
import Lox.Proofs.Session.Defects
import Lox.Proofs.Session.Tracing

/-!
Every diagnostic is accounted for. Whatever is done with a session, its reporter holds what was
written since it was last cleared, in that order; and a text that is run adds to it what the way
the step ends calls for: what is wrong with a text that is rejected, the one error that ended a
run, and nothing otherwise.
-/
namespace Lox

inductive Action where
  | source (fuel : Nat) (text : List Char)
  | clear
  | close

def Action.text? : Action → Option (List Char)
  | .source _ text => some text
  | _ => none

namespace Session

def act (s : Session) : Action → Session
  | .source fuel text => (s.runSource fuel text).session
  | .clear => s.clear
  | .close => s.close

def writes (s : Session) : Action → List Diagnostic
  | .source fuel text => (s.runSource fuel text).diagnostics
  | _ => []

def acted (s : Session) (actions : List Action) : Session := actions.foldl act s

/-- What a row of actions has written since the last time that it cleared the reporter, or since
`earlier` was written. -/
def writtenSince (s : Session) (earlier : List Diagnostic) : List Action → List Diagnostic
  | [] => earlier
  | .clear :: actions => s.clear.writtenSince [] actions
  | a :: actions => (s.act a).writtenSince (earlier ++ s.writes a) actions

end Session

/-- The ways in which a step may end that runs a text, each with what the step has reported. -/
inductive Step.Accounted (s : Session) (text : List Char) (step : Step) : Prop where
  /-- The rejection tells of all that the reporter holds, and nothing has run. -/
  | rejected (stage : Stage) :
      step.ending = .rejected stage →
      step.diagnostics ≠ [] →
      s.reporter.program text =
        (step.session.reporter, .error ⟨stage, step.session.reporter.held⟩) →
      (stage = .lexing → step.diagnostics = (scan text).errors.map LexicalError.diagnostic) →
      step.output = "" → step.trace = "" → step.session.state = s.state → Accounted s text step
  | failed (e : RuntimeError) (statements : List Node) :
      step.ending = .fault (.error e) →
      s.reporter.program text = (s.reporter, .ok statements) →
      step.diagnostics = [Diagnostic.atToken e.token e.cause.message] → Accounted s text step
  | returned (v : Value) (statements : List Node) :
      step.ending = .value v →
      s.reporter.program text = (s.reporter, .ok statements) →
      step.diagnostics = [] → Accounted s text step
  | unfinished : step.ending = .outOfFuel → Accounted s text step

namespace Reporter

variable (r : Reporter)

theorem report_nil : r.report [] = r := by
  obtain ⟨held⟩ := r
  simp [report]

/-- The reporter takes in the errors of a rejection, and the rejection then tells of all that it
holds. -/
theorem program_eq (text : List Char) :
    r.program text =
      match Lox.program text with
      | .ok statements => (r, .ok statements)
      | .error e => (r.report e.errors, .error ⟨e.stage, (r.report e.errors).held⟩) := by
  unfold program Lox.program Scan.program
  cases hscan : (scan text).errors with
  | nil =>
    cases hparse : (scan text).parse.errors with
    | nil => simp [hscan, hparse, report_nil]
    | cons e es => simp [hscan, hparse, report_nil]
  | cons e es => simp [hscan]

end Reporter

theorem Rejection.errors_of_program {text : List Char} {e : Rejection}
    (h : program text = .error e) :
    e.errors ≠ [] ∧
      (e.stage = .lexing → e.errors = (scan text).errors.map LexicalError.diagnostic) := by
  unfold program Scan.program at h
  dsimp only at h
  split at h
  · split at h
    · cases h
    · rename_i hparse
      cases h
      exact ⟨by simpa using hparse, fun hstage => by cases hstage⟩
  · rename_i hscan
    cases h
    exact ⟨by simpa using hscan, fun _ => rfl⟩

namespace Session

variable (s : Session) (fuel : Nat)

theorem run_reports (statements : List Node) :
    let step := s.run fuel [] statements
    step.session.reporter.held = s.reporter.held ++ step.diagnostics ∧
      match step.ending with
      | .fault (.error e) => step.diagnostics = [Diagnostic.atToken e.token e.cause.message]
      | _ => step.diagnostics = [] := by
  have hnotes := (Query.executeAll .nil statements).notes s.settings fuel s.settings.maxCalls
    { s.state with log := [] }
  rw [Query.run] at hnotes
  have hlog {t : State} (h : State.Noted { s.state with log := [] } t) :
      t.log.reverse.filterMap Event.diagnostic? = [] := by
    rw [List.filterMap_reverse]
    exact congrArg List.reverse h.reported
  unfold Session.run Step.diagnostics
  dsimp only
  split
  · rename_i v t hrun
    rw [hrun] at hnotes
    simp [hlog hnotes]
  · rename_i e t hrun
    rw [hrun] at hnotes
    simp [hlog hnotes, Reporter.report, Event.diagnostic?]
  · rename_i f t hdefect hrun
    rw [hrun] at hnotes
    cases f with
    | error e => exact absurd rfl (hdefect e)
    | defect d => simp [hlog hnotes]
  · simp

theorem runSource_of_error {text : List Char} {e : Rejection} (h : program text = .error e) :
    s.runSource fuel text = s.reject [] e := by
  simp only [runSource, h]

theorem runSource_of_ok {text : List Char} {statements : List Node}
    (h : program text = .ok statements) : s.runSource fuel text = s.run fuel [] statements := by
  simp only [runSource, h]

theorem held_runSource (text : List Char) :
    (s.runSource fuel text).session.reporter.held =
      s.reporter.held ++ (s.runSource fuel text).diagnostics := by
  cases h : program text with
  | ok statements =>
    rw [runSource_of_ok s fuel h]
    exact (s.run_reports fuel statements).1
  | error e =>
    rw [runSource_of_error s fuel h, diagnostics_reject e (by simp)]
    rfl

theorem reject_accounted {text : List Char} {e : Rejection} (h : program text = .error e) :
    (s.reject [] e).Accounted s text := by
  have hdiagnostics : (s.reject [] e).diagnostics = e.errors := diagnostics_reject e (by simp)
  obtain ⟨hsome, hlexing⟩ := Rejection.errors_of_program h
  have htold := s.reporter.program_eq text
  rw [h] at htold
  refine .rejected e.stage rfl ?_ htold ?_ ?_ ?_ rfl
  · rw [hdiagnostics]
    exact hsome
  · rw [hdiagnostics]
    exact hlexing
  · exact output_reject e (by simp)
  · apply Text.join_empty
    simp [reject, Event.trace]

theorem runSource_accounted {texts : List (List Char)} {text : List Char} (htext : text ∈ texts)
    (hs : s.state.store.Proper (Scanned texts) (DeclaredIn texts)) :
    (s.runSource fuel text).Accounted s text := by
  cases h : program text with
  | error e =>
    rw [runSource_of_error s fuel h]
    exact s.reject_accounted h
  | ok statements =>
    have haccepted := s.reporter.program_eq text
    rw [h] at haccepted
    have hreports := (s.run_reports fuel statements).2
    have hdefined := (runSource_proper fuel htext ⟨statements, h⟩ hs).2
    rw [runSource_of_ok s fuel h] at hdefined ⊢
    cases hend : (s.run fuel [] statements).ending with
    | value v =>
      rw [hend] at hreports
      exact .returned v statements hend haccepted hreports
    | rejected stage =>
      rw [hend] at hdefined
      exact hdefined.elim
    | fault f =>
      rw [hend] at hdefined hreports
      cases f with
      | error e => exact .failed e statements hend haccepted hreports
      | defect d => exact hdefined.elim
    | outOfFuel => exact .unfinished hend

theorem act_proper {texts : List (List Char)} {a : Action} (ha : ∀ text ∈ a.text?, text ∈ texts)
    (hs : s.state.store.Proper (Scanned texts) (DeclaredIn texts)) :
    (s.act a).state.store.Proper (Scanned texts) (DeclaredIn texts) := by
  cases a with
  | source fuel text =>
    cases h : program text with
    | ok statements => exact (runSource_proper fuel (ha text rfl) ⟨statements, h⟩ hs).1
    | error e =>
      dsimp only [act]
      rw [runSource_of_error s fuel h]
      exact hs
  | clear => exact hs
  | close => exact hs

theorem acted_proper {s : Session} {texts : List (List Char)} {actions : List Action}
    (hactions : ∀ a ∈ actions, ∀ text ∈ a.text?, text ∈ texts)
    (hs : s.state.store.Proper (Scanned texts) (DeclaredIn texts)) :
    (s.acted actions).state.store.Proper (Scanned texts) (DeclaredIn texts) := by
  induction actions generalizing s with
  | nil => exact hs
  | cons a actions ih =>
    have ha := s.act_proper (hactions a (by simp)) hs
    exact ih (fun b hb => hactions b (by simp [hb])) ha

theorem held_acted {s : Session} (actions : List Action) :
    (s.acted actions).reporter.held = s.writtenSince s.reporter.held actions := by
  induction actions generalizing s with
  | nil => rfl
  | cons a actions ih =>
    have hrest : (s.acted (a :: actions)).reporter.held =
        (s.act a).writtenSince (s.act a).reporter.held actions := ih
    cases a with
    | source fuel text =>
      have hheld : (s.act (.source fuel text)).reporter.held =
          s.reporter.held ++ s.writes (.source fuel text) := s.held_runSource fuel text
      rw [hrest, hheld]
      rfl
    | clear => exact hrest
    | close =>
      have hheld : (s.act .close).reporter.held = s.reporter.held ++ s.writes .close :=
        (List.append_nil _).symm
      rw [hrest, hheld]
      rfl

/-- After any actions the reporter holds what was written since it was last cleared, and the next
text ends in one of the accounted ways. -/
theorem accounts (settings : Settings) (actions : List Action) :
    let s : Session := Session.acted { settings } actions
    s.reporter.held = Session.writtenSince { settings } [] actions ∧
      ∀ fuel text, (s.runSource fuel text).Accounted s text := by
  intro s
  refine ⟨held_acted actions, fun fuel text => ?_⟩
  -- All texts count as run, the one to come among them.
  let texts := text :: actions.filterMap Action.text?
  have hactions : ∀ a ∈ actions, ∀ t ∈ a.text?, t ∈ texts := fun a ha t ht =>
    List.mem_cons_of_mem _ (List.mem_filterMap.2 ⟨a, ha, ht⟩)
  have htext : text ∈ texts := List.mem_cons_self ..
  exact s.runSource_accounted fuel htext (acted_proper hactions State.proper_initial)

end Session

end Lox
