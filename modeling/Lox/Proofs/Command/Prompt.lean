import Lox.Proofs.Command.Levels
import Lox.Proofs.Machine.Reports
import Lox.Proofs.Machine.Rows
import Lox.Proofs.Session.Accounting
import Lox.Proofs.Session.Joining
import Lox.Proofs.Session.Names

/-!
The prompt folds over its good lines. Each line is a step from where the lines before it have led
to, and the prompt shows the steps one after the other. A line that is rejected changes nothing
that a later line could see; a line that fails keeps what it did before; and the value of a line is
shown if its last statement is an expression with a value other than nil.
-/
namespace Lox

namespace Command

open Session

def promptSteps (s : Session) (fuel : Nat) : List (List Char) → List Step
  | [] => []
  | line :: rest =>
    let step := promptStep s fuel line
    step :: promptSteps step.session fuel rest

def promptAfter (s : Session) (fuel : Nat) (lines : List (List Char)) : Session :=
  lines.foldl (fun s line => (promptStep s fuel line).session) s

/-- What the output shows for a step, the prompt before it included. -/
def shown (step : Step) : Text := promptText ++ step.output ++ echo step.ending

def told (step : Step) : Text := Diagnostic.written step.diagnostics

/-- All lines are read, each with a prompt of its own, and the prompt ends normally after one
more. -/
structure Finishes (s : Session) (fuel : Nat) (lines : List (List Char)) : Prop where
  exit : (promptLines s fuel lines).exit = .code 0
  all : (promptSteps s fuel lines).length = lines.length
  output : (promptLines s fuel lines).output =
    Text.join ((promptSteps s fuel lines).map shown) ++ promptText ++ "\n"
  errors : (promptLines s fuel lines).errors = Text.join ((promptSteps s fuel lines).map told)

variable {s t : Session} {fuel : Nat} {line : List Char} {lines texts : List (List Char)}

theorem promptStep_rejected {r : Rejection} (h : program line = .error r) :
    promptStep s fuel line = s.clear.reject (tokenEvents s.settings (scan line)) r :=
  runTraced_of_error s.clear fuel h

theorem promptStep_ran {statements : List Node} (h : program line = .ok statements) :
    promptStep s fuel line = s.clear.ended (tokenEvents s.settings (scan line))
      (executeAll s.settings fuel s.settings.maxCalls .nil statements
        { s.state with log := [] }) :=
  (runTraced_of_ok s.clear fuel h).trans (run_eq ..)

theorem promptSteps_append (s : Session) (fuel : Nat) (before after : List (List Char)) :
    promptSteps s fuel (before ++ after) =
      promptSteps s fuel before ++ promptSteps (promptAfter s fuel before) fuel after := by
  induction before generalizing s with
  | nil => rfl
  | cons line before ih => exact congrArg _ (ih _)

theorem length_promptSteps (s : Session) (fuel : Nat) (lines : List (List Char)) :
    (promptSteps s fuel lines).length = lines.length := by
  induction lines generalizing s with
  | nil => rfl
  | cons line lines ih => exact congrArg _ (ih _)

theorem reachable_promptAfter (hs : s.Reachable) : (promptAfter s fuel lines).Reachable := by
  induction lines generalizing s with
  | nil => exact hs
  | cons line lines ih => exact ih (.traced fuel line (.clear hs))

theorem settings_promptAfter : (promptAfter s fuel lines).settings = s.settings := by
  induction lines generalizing s with
  | nil => rfl
  | cons line lines ih => exact ih.trans (settings_take s ⟨.prompted, fuel, line⟩)

theorem promptStep_defined (hline : line ∈ texts)
    (hs : s.state.store.Proper (Scanned texts) (DeclaredIn texts)) :
    (promptStep s fuel line).session.state.store.Proper (Scanned texts) (DeclaredIn texts) ∧
      ∀ d, (promptStep s fuel line).ending ≠ .fault (.defect d) := by
  cases hprogram : program line with
  | error r =>
    rw [promptStep_rejected hprogram]
    exact ⟨hs, nofun⟩
  | ok statements =>
    rw [promptStep, runTraced_of_ok s.clear fuel hprogram]
    obtain ⟨hstore, hending⟩ := run_proper (s := s.clear) fuel
      (tokenEvents s.clear.settings (scan line)) (fun t => Scanned.lexeme) hs
      (program_proper_scanned hline hprogram)
    refine ⟨hstore, fun d hdefect => ?_⟩
    rw [hdefect] at hending
    exact hending

theorem finishes (hlines : ∀ line ∈ lines, line ∈ texts)
    (hs : s.state.store.Proper (Scanned texts) (DeclaredIn texts))
    (hends : ∀ step ∈ promptSteps s fuel lines, step.ending ≠ .outOfFuel) :
    Finishes s fuel lines := by
  induction lines generalizing s with
  | nil => exact ⟨rfl, rfl, rfl, rfl⟩
  | cons line lines ih =>
    obtain ⟨hstore, hdefined⟩ := @promptStep_defined s fuel line texts (hlines line (by simp)) hs
    have hend : (promptStep s fuel line).ending ≠ .outOfFuel := hends _ (by simp [promptSteps])
    have hrest := ih (fun other h => hlines other (by simp [h])) hstore fun step h =>
      hends step (by simp [promptSteps, h])
    have hlines : promptLines s fuel (line :: lines) =
        let after := promptLines (promptStep s fuel line).session fuel lines
        { after with
          output := shown (promptStep s fuel line) ++ after.output
          errors := Diagnostic.written (promptStep s fuel line).diagnostics ++ after.errors
          trace := after.trace.map ((promptStep s fuel line).trace ++ ·) } := by
      rw [promptLines]
      dsimp only
      split
      · exact absurd ‹_› (hdefined _)
      · exact absurd ‹_› hend
      · rfl
    constructor
    case exit =>
      rw [hlines]
      exact hrest.exit
    case all => exact length_promptSteps ..
    case output =>
      rw [hlines, promptSteps, List.map_cons, Text.join_cons]
      simp only [hrest.output, Text.append_assoc]
    case errors =>
      rw [hlines, promptSteps, List.map_cons, Text.join_cons, ← hrest.errors]
      rfl

/-- The prompt does without a rejected line: all other steps stay as they are, and the output and
the errors lose one prompt and the diagnostics of the line. -/
structure Dispensable (s : Session) (fuel : Nat) (before : List (List Char)) (line : List Char)
    (after : List (List Char)) (rejection : Rejection) : Prop where
  steps : promptSteps s fuel (before ++ after) =
    promptSteps s fuel before ++
      promptSteps (promptStep (promptAfter s fuel before) fuel line).session fuel after
  shown : shown (promptStep (promptAfter s fuel before) fuel line) = promptText
  diagnostics : (promptStep (promptAfter s fuel before) fuel line).diagnostics = rejection.errors
  state : (promptStep (promptAfter s fuel before) fuel line).session.state =
    (promptAfter s fuel before).state
  finishes : Finishes s fuel (before ++ after)
  output : ∃ later,
    (promptLines s fuel (before ++ line :: after)).output =
        Text.join ((promptSteps s fuel before).map Command.shown) ++ promptText ++ later ∧
      (promptLines s fuel (before ++ after)).output =
        Text.join ((promptSteps s fuel before).map Command.shown) ++ later
  errors : ∃ later,
    (promptLines s fuel (before ++ line :: after)).errors =
        Text.join ((promptSteps s fuel before).map told) ++ Diagnostic.written rejection.errors ++
          later ∧
      (promptLines s fuel (before ++ after)).errors =
        Text.join ((promptSteps s fuel before).map told) ++ later

theorem promptSteps_of_clear (h : s.clear = t.clear) (fuel : Nat) (lines : List (List Char)) :
    promptSteps s fuel lines = promptSteps t fuel lines := by
  cases lines with
  | nil => rfl
  | cons line lines =>
    unfold promptSteps promptStep
    rw [h]

theorem promptAfter_of_clear (h : s.clear = t.clear) (fuel : Nat) (lines : List (List Char)) :
    (promptAfter s fuel lines).clear = (promptAfter t fuel lines).clear := by
  cases lines with
  | nil => exact h
  | cons line lines =>
    unfold promptAfter List.foldl promptStep
    rw [h]

theorem shown_rejected {r : Rejection}
    (hfile : s.settings.traceFile = true ∨ s.settings.verbosity = 0)
    (h : program line = .error r) :
    shown (promptStep s fuel line) = promptText ∧
      (promptStep s fuel line).diagnostics = r.errors := by
  have hsilent := tokenEvents_silent hfile (scan line)
  have houtput : (s.clear.reject (tokenEvents s.settings (scan line)) r).output = "" :=
    output_reject r fun e he => (hsilent e he).1
  rw [promptStep_rejected h]
  constructor
  · rw [shown, houtput]
    rfl
  · exact diagnostics_reject r fun e he => (hsilent e he).2

theorem clear_rejected {r : Rejection} (h : program line = .error r) :
    (promptStep s fuel line).session.clear = s.clear := by
  rw [promptStep_rejected h]
  rfl

def isAccepted (line : List Char) : Bool := (program line).isOk

def isRejection (step : Step) : Bool :=
  match step.ending with
  | .rejected _ => true
  | _ => false

theorem isRejection_promptStep (s : Session) (fuel : Nat) (line : List Char) :
    isRejection (promptStep s fuel line) = !isAccepted line := by
  unfold isAccepted
  cases h : program line with
  | error r =>
    rw [promptStep_rejected h]
    rfl
  | ok statements =>
    rw [promptStep_ran h]
    generalize executeAll s.settings fuel s.settings.maxCalls .nil statements _ = o
    cases o with
    | failed fault t => cases fault <;> rfl
    | _ => rfl

theorem exists_rejection (h : isAccepted line = false) : ∃ r, program line = .error r := by
  unfold isAccepted at h
  cases hprogram : program line with
  | error r => exact ⟨r, rfl⟩
  | ok statements =>
    rw [hprogram] at h
    cases h

theorem promptSteps_good (s : Session) (fuel : Nat) (lines : List (List Char)) :
    promptSteps s fuel (lines.filter isAccepted) =
      (promptSteps s fuel lines).filter fun step => !isRejection step := by
  induction lines generalizing s with
  | nil => rfl
  | cons line lines ih =>
    rw [promptSteps, List.filter_cons, List.filter_cons, isRejection_promptStep, Bool.not_not]
    cases haccepted : isAccepted line with
    | true => exact congrArg _ (ih _)
    | false =>
      obtain ⟨r, hr⟩ := exists_rejection haccepted
      rw [if_neg (by decide), if_neg (by decide), ← ih]
      exact promptSteps_of_clear (clear_rejected hr).symm ..

theorem promptAfter_good (s : Session) (fuel : Nat) (lines : List (List Char)) :
    (promptAfter s fuel (lines.filter isAccepted)).clear = (promptAfter s fuel lines).clear := by
  induction lines generalizing s with
  | nil => rfl
  | cons line lines ih =>
    rw [List.filter_cons]
    cases haccepted : isAccepted line with
    | true => exact ih _
    | false =>
      obtain ⟨r, hr⟩ := exists_rejection haccepted
      rw [if_neg (by decide), ih]
      exact promptAfter_of_clear (clear_rejected hr).symm ..

theorem dispensable {before after : List (List Char)} {r : Rejection}
    (hfile : s.settings.traceFile = true ∨ s.settings.verbosity = 0)
    (hrejected : program line = .error r)
    (hlines : ∀ other ∈ before ++ line :: after, other ∈ texts)
    (hs : s.state.store.Proper (Scanned texts) (DeclaredIn texts))
    (hends : ∀ step ∈ promptSteps s fuel (before ++ line :: after), step.ending ≠ .outOfFuel) :
    Dispensable s fuel before line after r := by
  let start := promptAfter s fuel before
  have hsettings : start.settings = s.settings := settings_promptAfter
  obtain ⟨hshown, hdiagnostics⟩ := @shown_rejected start fuel line r (hsettings ▸ hfile) hrejected
  have hclear : (promptStep start fuel line).session.clear = start.clear :=
    clear_rejected hrejected
  have hsteps : promptSteps s fuel (before ++ after) =
      promptSteps s fuel before ++
        promptSteps (promptStep start fuel line).session fuel after := by
    rw [promptSteps_append, promptSteps_of_clear hclear.symm]
  have hall := finishes hlines hs hends
  have hwithout : Finishes s fuel (before ++ after) := by
    refine finishes (fun other hother => hlines other ?_) hs fun step hmem => hends step ?_
    · obtain hother | hother := List.mem_append.1 hother <;> simp [hother]
    · rw [hsteps] at hmem
      rw [promptSteps_append, promptSteps]
      obtain hmem | hmem := List.mem_append.1 hmem
      · exact List.mem_append_left _ hmem
      · exact List.mem_append_right _ (List.mem_cons_of_mem _ hmem)
  constructor
  case steps => exact hsteps
  case shown => exact hshown
  case diagnostics => exact hdiagnostics
  case state =>
    have hstate := congrArg Session.state hclear
    exact hstate
  case finishes => exact hwithout
  case output =>
    let later := (promptSteps (promptStep start fuel line).session fuel after).map shown
    refine ⟨Text.join later ++ promptText ++ "\n", ?_, ?_⟩
    · rw [hall.output, promptSteps_append, promptSteps, List.map_append, List.map_cons,
        Text.join_append, Text.join_cons, hshown]
      simp only [Text.append_assoc]
      rfl
    · rw [hwithout.output, hsteps, List.map_append, Text.join_append]
      simp only [Text.append_assoc]
      rfl
  case errors =>
    let later := (promptSteps (promptStep start fuel line).session fuel after).map told
    refine ⟨Text.join later, ?_, ?_⟩
    · rw [hall.errors, promptSteps_append, promptSteps, List.map_append, List.map_cons,
        Text.join_append, Text.join_cons, told, hdiagnostics, ← Text.append_assoc]
    · rw [hwithout.errors, hsteps, List.map_append, Text.join_append]

theorem promptStep_accepted {statements : List Node} (h : program line = .ok statements)
    (hend : (promptStep s fuel line).ending ≠ .outOfFuel) :
    ∃ o, Runs s.settings s.settings.maxCalls .nil statements { s.state with log := [] } o ∧
      promptStep s fuel line = s.clear.ended (tokenEvents s.settings (scan line)) o := by
  refine ⟨_, runs_of_executeAll fuel rfl fun hout => hend ?_, promptStep_ran h⟩
  rw [promptStep_ran h, hout]
  rfl

theorem accepted_of_ending (h : ∀ stage, (promptStep s fuel line).ending ≠ .rejected stage) :
    ∃ statements, program line = .ok statements := by
  cases hprogram : program line with
  | ok statements => exact ⟨statements, rfl⟩
  | error r =>
    rw [promptStep_rejected hprogram] at h
    exact absurd rfl (h r.stage)

theorem promptStep_more {more : Nat} (hmore : fuel ≤ more)
    (hend : (promptStep s fuel line).ending ≠ .outOfFuel) :
    promptStep s more line = promptStep s fuel line := by
  cases hprogram : program line with
  | error r => rw [promptStep_rejected hprogram, promptStep_rejected hprogram]
  | ok statements =>
    rw [promptStep_ran hprogram, promptStep_ran hprogram,
      (executeAll_improves hmore _ _ _).eq_of_ne]
    intro hout
    rw [promptStep_ran hprogram, hout] at hend
    exact hend rfl

theorem promptSteps_more {more : Nat} (hmore : fuel ≤ more)
    (hends : ∀ step ∈ promptSteps s fuel lines, step.ending ≠ .outOfFuel) :
    promptSteps s more lines = promptSteps s fuel lines := by
  induction lines generalizing s with
  | nil => rfl
  | cons line lines ih =>
    have hstep : promptStep s more line = promptStep s fuel line :=
      promptStep_more hmore (hends _ (by simp [promptSteps]))
    rw [promptSteps, promptSteps, hstep, ih fun step h => hends step (by simp [promptSteps, h])]

def written (settings : Settings) (s : State) : Text :=
  Text.join (s.log.reverse.map (Event.output settings.traceFile))

/-- A line fails at a statement: those before it have run to one state, and it has failed in
another. The line leaves what it has printed and bound up to then, and echoes nothing. -/
structure FailsAt (s : Session) (line : List Char) (step : Step) (e : RuntimeError)
    (ran : List Node) (failing : Node) (before after : State) : Prop where
  accepted : ∃ rest, program line = .ok (ran ++ failing :: rest)
  runs : ∃ w, Runs s.settings s.settings.maxCalls .nil ran { s.state with log := [] }
    (.done w before)
  fails : ∃ fuel, execute s.settings fuel s.settings.maxCalls failing before =
    .failed (.error e) after
  echo : Command.echo step.ending = ""
  output : step.output = written s.settings after
  printed : ∃ late, written s.settings after = written s.settings before ++ late
  diagnostics : step.diagnostics = [Diagnostic.atToken e.token e.cause.message]
  state : step.session.state = { after with log := [] }
  bindings : Kept true before after

theorem written_of_noted {settings : Settings} {s t : State} (h : s.Noted t) :
    ∃ late, written settings t = written settings s ++ late := by
  obtain ⟨new, hlog, -⟩ := h
  refine ⟨Text.join (new.reverse.map (Event.output settings.traceFile)), ?_⟩
  rw [written, hlog, List.reverse_append, List.map_append, Text.join_append]
  rfl

theorem failsAt {e : RuntimeError}
    (hfile : s.settings.traceFile = true ∨ s.settings.verbosity = 0) (hs : s.state.Grounded)
    (h : (promptStep s fuel line).ending = .fault (.error e)) :
    ∃ ran failing before after,
      FailsAt s line (promptStep s fuel line) e ran failing before after := by
  obtain ⟨statements, hprogram⟩ := accepted_of_ending fun stage => by rw [h]; exact nofun
  obtain ⟨o, hruns, hstep⟩ := promptStep_accepted hprogram (by rw [h]; exact nofun)
  rw [hstep] at h
  obtain ⟨after, rfl⟩ := ended_fault h
  obtain ⟨ran, failing, rest, w, before, k, rfl, hran, hfails⟩ := hruns.exists_failing
  have hlive : before.Live := (hran.kept hs.live).live hs.live
  have hkept :=
    (Query.execute failing).keeps true s.settings k s.settings.maxCalls nofun before hlive
  have hnoted := (Query.execute failing).notes s.settings k s.settings.maxCalls before
  rw [Query.run, hfails] at hkept hnoted
  have hsilent := tokenEvents_silent hfile (scan line)
  let d := Diagnostic.atToken e.token e.cause.message
  have hevents : (promptStep s fuel line).events =
      tokenEvents s.settings (scan line) ++ after.log.reverse ++ [.reported d] := by
    rw [hstep]
    simp [ended, d]
  have hsettings : (promptStep s fuel line).session.settings = s.settings :=
    settings_take s ⟨.prompted, fuel, line⟩
  refine ⟨ran, failing, before, after, ?_⟩
  constructor
  case accepted => exact ⟨rest, hprogram⟩
  case runs => exact ⟨w, hran⟩
  case fails => exact ⟨k, hfails⟩
  case echo =>
    rw [hstep]
    rfl
  case output =>
    have htokens : Text.join ((tokenEvents s.settings (scan line)).map
        (Event.output s.settings.traceFile)) = "" := by
      apply Text.join_empty
      intro t ht
      obtain ⟨event, hevent, rfl⟩ := List.mem_map.1 ht
      exact (hsilent event hevent).1
    rw [Step.output, hsettings, hevents, List.map_append, List.map_append, Text.join_append,
      Text.join_append, htokens]
    exact Text.eq_of_points (by simp [written, Text.join, Event.output])
  case printed => exact written_of_noted hnoted
  case diagnostics =>
    have hlog : after.log.reverse.filterMap Event.diagnostic? = [] := by
      rw [List.filterMap_reverse]
      exact congrArg List.reverse hruns.noted.reported
    rw [Step.diagnostics, hevents, List.filterMap_append, List.filterMap_append, hlog,
      List.filterMap_eq_nil_iff.2 fun event hevent => (hsilent event hevent).2]
    rfl
  case state =>
    rw [hstep]
    rfl
  case bindings => exact hkept

/-- The statements of a line run, and the last one is an expression with a value. -/
def Yields (s : Session) (line : List Char) (v : Value) : Prop :=
  ∃ init expression w m t fuel, program line = .ok (init ++ [.expression expression]) ∧
    Runs s.settings s.settings.maxCalls .nil init { s.state with log := [] } (.done w m) ∧
    evaluate s.settings fuel s.settings.maxCalls expression m = .done v t

theorem yields_of_value {v : Value} (h : (promptStep s fuel line).ending = .value v)
    (hv : v ≠ .nil) : Yields s line v := by
  obtain ⟨statements, hprogram⟩ := accepted_of_ending fun stage => by rw [h]; exact nofun
  obtain ⟨o, hruns, hstep⟩ := promptStep_accepted hprogram (by rw [h]; exact nofun)
  rw [hstep] at h
  obtain ⟨t, rfl⟩ := ended_value h
  obtain ⟨init, n, w, m, k, rfl, hinit, hlast⟩ := hruns.exists_last hv
  obtain ⟨expression, k, rfl, hvalue⟩ := Exec.execute_value hlast hv
  exact ⟨init, expression, w, m, t, k, hprogram, hinit, hvalue⟩

theorem Yields.ending {v : Value} (h : Yields s line v)
    (hend : (promptStep s fuel line).ending ≠ .outOfFuel) :
    (promptStep s fuel line).ending = .value v := by
  obtain ⟨init, expression, w, m, t, k, hprogram, hinit, hvalue⟩ := h
  have hlast : execute s.settings (k + 1) s.settings.maxCalls (.expression expression) m =
      .done v t := by
    rw [execute]
    exact hvalue
  obtain ⟨o, hruns, hstep⟩ := promptStep_accepted hprogram hend
  obtain rfl := hruns.eq (hinit.append (.cons hlast .nil))
  rw [hstep]
  rfl

theorem echo_value {v : Value} (h : v ≠ .nil) : echo (.value v) = v.inspect ++ "\n" := by
  cases v with
  | nil => exact absurd rfl h
  | _ => rfl

theorem append_ne_empty (t : Text) : t ++ "\n" ≠ "" := by
  intro h
  have hpoints := congrArg Text.points h
  simp at hpoints

/-- A line is echoed if it yields a value other than nil, and only then. -/
theorem echo_iff (hend : (promptStep s fuel line).ending ≠ .outOfFuel) :
    (echo (promptStep s fuel line).ending ≠ "" ↔ ∃ v, v ≠ .nil ∧ Yields s line v) ∧
      ∀ v, v ≠ .nil → Yields s line v →
        echo (promptStep s fuel line).ending = v.inspect ++ "\n" := by
  have hshows : ∀ v, v ≠ .nil → Yields s line v →
      echo (promptStep s fuel line).ending = v.inspect ++ "\n" := by
    intro v hv hyields
    rw [hyields.ending hend, echo_value hv]
  refine ⟨⟨fun hecho => ?_, fun ⟨v, hv, hyields⟩ => ?_⟩, hshows⟩
  · cases hending : (promptStep s fuel line).ending with
    | value v =>
      have hv : v ≠ .nil := by
        rintro rfl
        rw [hending] at hecho
        exact hecho rfl
      exact ⟨v, hv, yields_of_value hending hv⟩
    | _ =>
      rw [hending] at hecho
      exact absurd rfl hecho
  · rw [hshows v hv hyields]
    exact append_ne_empty _

/-- The prompt on any lines whose programs end. It reads all of them and ends normally, more fuel
would change nothing, and the good lines alone take the same steps to the same state. Each line is
one step from where the lines before it have led to, in the global frame: a rejected line can be
left out, a failing line keeps what it did until then, and a line is echoed if its last statement
is an expression with a value other than nil. -/
theorem prompt_folds (now : Number) (maxCalls verbosity fuel : Nat) (lines : List (List Char))
    (hends : ∀ step ∈ promptSteps { settings := settings now maxCalls verbosity } fuel lines,
      step.ending ≠ .outOfFuel) :
    let s : Session := { settings := settings now maxCalls verbosity }
    Finishes s fuel lines ∧
    (∀ more ≥ fuel, promptSteps s more lines = promptSteps s fuel lines) ∧
    (promptSteps s fuel (lines.filter isAccepted) =
        (promptSteps s fuel lines).filter fun step => !isRejection step) ∧
    (promptAfter s fuel (lines.filter isAccepted)).state = (promptAfter s fuel lines).state ∧
    ∀ before line after, lines = before ++ line :: after →
      let start := promptAfter s fuel before
      let step := promptStep start fuel line
      promptSteps s fuel lines =
        promptSteps s fuel before ++ step :: promptSteps step.session fuel after ∧
      start.state.Grounded ∧ step.session.state.Grounded ∧
      (∀ r, program line = .error r → Dispensable s fuel before line after r) ∧
      (∀ e, step.ending = .fault (.error e) → ∃ ran failing earlier later,
        FailsAt start line step e ran failing earlier later) ∧
      (echo step.ending ≠ "" ↔ ∃ v, v ≠ .nil ∧ Yields start line v) ∧
      ∀ v, v ≠ .nil → Yields start line v → echo step.ending = v.inspect ++ "\n" := by
  intro s
  have hfile : s.settings.traceFile = true ∨ s.settings.verbosity = 0 := settings_traced verbosity
  have hs : s.state.store.Proper (Scanned lines) (DeclaredIn lines) := State.proper_initial
  have hgood := congrArg Session.state (promptAfter_good s fuel lines)
  refine ⟨finishes (fun _ h => h) hs hends, fun more h => promptSteps_more h hends,
    promptSteps_good s fuel lines, hgood, ?_⟩
  rintro before line after rfl
  intro start step
  have hsteps : promptSteps s fuel (before ++ line :: after) =
      promptSteps s fuel before ++ step :: promptSteps step.session fuel after :=
    promptSteps_append ..
  have hend : step.ending ≠ .outOfFuel := hends step (by rw [hsteps]; simp)
  have hstart : start.Reachable := reachable_promptAfter (.start s.settings)
  have hnext : step.session.Reachable := .traced fuel line (.clear hstart)
  have hsettings : start.settings = s.settings := settings_promptAfter
  refine ⟨hsteps, hstart.grounded, hnext.grounded, ?_, ?_, echo_iff hend⟩
  · exact fun r hr => dispensable hfile hr (fun _ h => h) hs hends
  · exact fun e he => failsAt (hsettings ▸ hfile) hstart.grounded he

/-- A session with a value, an error, and a rejected line that can be left out. -/
theorem prompt_folds_rejected :
    let s : Session := { settings := settings .zero 10 0 }
    let before := ["var a = 1;".toList, "a + 1;".toList, "print nope;".toList]
    let line := "print @;".toList
    let lines := before ++ line :: ["a;".toList]
    (∀ step ∈ promptSteps s 50 lines, step.ending ≠ .outOfFuel) ∧ Finishes s 50 lines ∧
      (promptLines s 50 lines).output = "> > 2\n> > > 1\n> \n" ∧
      ∃ r, program line = .error r ∧ Dispensable s 50 before line ["a;".toList] r := by
  intro s before line lines
  have hends : ∀ step ∈ promptSteps s 50 lines, step.ending ≠ .outOfFuel := by
    have hall : (promptSteps s 50 lines).all (fun step =>
        match step.ending with
        | .outOfFuel => false
        | _ => true) = true := by
      decide +kernel
    intro step hstep hout
    have hstep := List.all_eq_true.1 hall step hstep
    rw [hout] at hstep
    cases hstep
  have hrejected : ∃ r, program line = .error r := by
    have hrun : (program line).toOption.isNone = true := by decide +kernel
    cases hprogram : program line with
    | error r => exact ⟨r, rfl⟩
    | ok statements =>
      rw [hprogram] at hrun
      cases hrun
  obtain ⟨r, hr⟩ := hrejected
  obtain ⟨hfinishes, -, -, -, hlines⟩ := prompt_folds .zero 10 0 50 lines hends
  obtain ⟨-, -, -, hdispensable, -⟩ := hlines before line ["a;".toList] rfl
  exact ⟨hends, hfinishes, by decide +kernel, r, hr, hdispensable r hr⟩

end Command

end Lox
