import Lox.Machine.Evaluate
import Lox.Program

/-!
Sessions: source texts and trees run one after the other on one machine, with one reporter. What
a step defines, later steps see. A step that is rejected or fails is reported and leaves the
session usable.
-/
namespace Lox

structure Session where
  settings : Settings
  state : State := State.initial
  reporter : Reporter := {}

inductive Ending where
  | value (v : Value)
  | rejected (stage : Stage)
  | fault (f : Fault)
  | outOfFuel

/-- The session after a step, what the step let the outside see, and how it ended. -/
structure Step where
  session : Session
  events : List Event
  ending : Ending

namespace Step

def output (s : Step) : Text := Text.join (s.events.map (Event.output s.session.settings.traceFile))

def trace (s : Step) : Text := Text.join (s.events.map (Event.trace s.session.settings.traceFile))

def diagnostics (s : Step) : List Diagnostic := s.events.filterMap Event.diagnostic?

end Step

namespace Session

def clear (s : Session) : Session := { s with reporter := s.reporter.clear }

/-- Closes the trace file; what is noted afterwards goes to the output. -/
def close (s : Session) : Session := { s with settings := { s.settings with traceFile := false } }

def reject (s : Session) (before : List Event) (r : Rejection) : Step :=
  ⟨{ s with reporter := s.reporter.report r.errors }, before ++ r.errors.map Event.reported,
    .rejected r.stage⟩

/-- Runs statements. The value of a step is that of its last statement, nil if there is none; an
error of the program is reported at its token. -/
def run (s : Session) (fuel : Nat) (before : List Event) (statements : List Node) : Step :=
  let { settings, state, reporter } := s
  match executeAll settings fuel settings.maxCalls .nil statements { state with log := [] } with
  | .done v state =>
    ⟨⟨settings, { state with log := [] }, reporter⟩, before ++ state.log.reverse,
      .value v⟩
  | .failed (.error e) state =>
    let d := Diagnostic.atToken e.token e.cause.message
    ⟨⟨settings, { state with log := [] }, reporter.report [d]⟩,
      before ++ (Event.reported d :: state.log).reverse, .fault (.error e)⟩
  | .failed fault state =>
    ⟨⟨settings, { state with log := [] }, reporter⟩, before ++ state.log.reverse,
      .fault fault⟩
  | .outOfFuel => ⟨⟨settings, State.initial, reporter⟩, before, .outOfFuel⟩

def runTree (s : Session) (fuel : Nat) : Node → Step
  | .list statements => s.run fuel [] statements
  | _ => ⟨s, [], .fault (.defect .notStatements)⟩

def runSource (s : Session) (fuel : Nat) (source : List Char) : Step :=
  match program source with
  | .ok statements => s.run fuel [] statements
  | .error r => s.reject [] r

def tokenEvents (settings : Settings) (scan : Scan) : List Event :=
  if 4 ≤ settings.verbosity then
    (scan.tokens ++ [scan.endToken]).map fun t => .traced (.token t)
  else []

def runTraced (s : Session) (fuel : Nat) (source : List Char) : Step :=
  let scanned := scan source
  let tokens := tokenEvents s.settings scanned
  match scanned.program with
  | .ok statements => s.run fuel tokens statements
  | .error r => s.reject tokens r

def globals (s : Session) : List (Name × Value) := s.state.store.bindings 0

def depth (s : Session) : Nat := s.state.store.depth s.state.frame

end Session

/-- Runs a source text in a session of its own. A text that is rejected starts none. -/
def runProgram (settings : Settings) (fuel : Nat) (source : List Char) : Except Rejection Step :=
  (program source).map (Session.run { settings } fuel [])

end Lox
