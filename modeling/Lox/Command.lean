import Lox.Command.Files
import Lox.Command.Options
import Lox.Datum.Read
import Lox.Datum.Write
import Lox.Node.Depth
import Lox.Session
import Lox.Text.Utf8

/-!
The command: it runs a script, writes the tree of a script, runs a tree from a file, or reads
lines at a prompt and runs each. Exit codes tell wrong usage, bad data and a missing file apart.
-/
namespace Lox.Command

def exitUsage : Nat := 64

def exitData : Nat := 65

def exitNoInput : Nat := 66

def traceFileName : String := "debug.txt"

/-- What ends a run without an exit code. -/
inductive Escape where
  | undecodable (e : Text.DecodeError)
  | load (e : LoadError)
  | defect (d : Defect)
  /-- The stack of the host has no room. -/
  | tooDeep
  | path (f : ReadFailure)
  | traceFile
  | optionValue
  | outOfFuel
  deriving DecidableEq

inductive Exit where
  | code (n : Nat)
  | escaped (e : Escape)
  deriving DecidableEq

/-- What a run leaves behind. There is a trace only if its file was opened. -/
structure Result where
  exit : Exit
  output : Text := ""
  errors : Text := ""
  trace : Option Text := none

def usage : String :=
  "usage: loxi [-h] [-v] [--emit-ast LOX_FILE | --ast AST_JSON_FILE] [script]\n"

def help : String :=
  usage ++ "\nLox language interpreter\n"
    ++ "\npositional arguments:\n"
    ++ "  script               Lox script to execute; omit for a prompt\n"
    ++ "\noptions:\n"
    ++ "  -h, --help           show this help message and exit\n"
    ++ "  -v                   increase debug verbosity (can be repeated)\n"
    ++ "  --emit-ast LOX_FILE  print the AST of the given script as JSON\n"
    ++ "  --ast AST_JSON_FILE  execute AST from a JSON file\n"

inductive Job where
  | emitTree (path : String)
  | runTree (path : String)
  | script (path : String)
  | prompt

/-- An option or a script whose value is empty counts as absent. -/
def given? : Option String → Option String
  | some "" => none
  | value => value

def Options.job (o : Options) : Job :=
  match given? o.emitTree, given? o.runTree, given? o.script with
  | some path, _, _ => .emitTree path
  | none, some path, _ => .runTree path
  | none, none, some path => .script path
  | none, none, none => .prompt

def Job.path? : Job → Option String
  | .emitTree path | .runTree path | .script path => some path
  | .prompt => none

def stopped : Stop → Result
  | .help => { exit := .code 0, output := help }
  | .usage e => { exit := .code exitUsage, errors := usage ++ "loxi: error: " ++ e.message ++ "\n" }
  | .unusableValue => { exit := .escaped .optionValue }

def decodeMessage (e : Text.DecodeError) : String :=
  let reason :=
    match e.fault with
    | .start => "invalid start byte"
    | .continuation => "invalid continuation byte"
    | .endOfData => "unexpected end of data"
  let place :=
    if e.count = 1 then
      "byte 0x" ++ String.ofList (Text.hexDigits 2 e.byte) ++ " in position " ++ natText e.first
    else "bytes in position " ++ natText e.first ++ "-" ++ natText (e.first + e.count - 1)
  "'utf-8' codec can't decode " ++ place ++ ": " ++ reason

abbrev Content := Except ReadFailure (List Nat)

/-- The text of a file with its line ends made equal, or the result of a run that got none. -/
def sourceText (path : String) : Content → Except Result (List Char)
  | .error .nullInPath => .error { exit := .escaped (.path .nullInPath) }
  | .error failure =>
    .error
      { exit := .code exitNoInput
        errors := "Couldn't read " ++ Path.normal path ++ ": " ++ failure.reason ++ "\n" }
  | .ok bytes =>
    match Text.decode bytes with
    | .ok text => .ok (Text.unixLines text)
    | .error e => .error { exit := .escaped (.undecodable e) }

def rejected (stage : Stage) (diagnostics : List Diagnostic) : Result :=
  { exit := .code exitData
    errors := Diagnostic.written diagnostics ++ stage.message ++ "\n" }

/-- What the host has room for: in a data file, and on its stack while a tree is loaded or
recorded. -/
structure Host where
  reading : Datum.Limits
  loading : Nat
  recording : Nat

/-- The usual host. Its stack grows once something was parsed, which is always so before a tree is
recorded and never before one is loaded. -/
def Host.usual : Host := ⟨⟨4300, 991⟩, 995, 9995⟩

def tooDeep : Result := { exit := .escaped .tooDeep }

def writeTree (host : Host) (source : List Char) : Result :=
  match program source with
  | .ok statements =>
    match (Node.list statements).recordWithin host.recording with
    | some d => { exit := .code 0, output := d.write 0 ++ "\n" }
    | none => tooDeep
  | .error r => rejected r.stage r.errors

def ofStep (step : Step) : Result :=
  let errors := Diagnostic.written step.diagnostics
  let trace := if step.session.settings.traceFile then some step.trace else none
  match step.ending with
  | .value _ => { exit := .code 0, output := step.output, errors, trace }
  | .rejected stage => { rejected stage step.diagnostics with output := step.output, trace }
  | .fault (.error _) => { exit := .code exitData, output := step.output, errors, trace }
  | .fault (.defect d) => { exit := .escaped (.defect d), output := step.output, errors, trace }
  | .outOfFuel => { exit := .escaped .outOfFuel, output := step.output, errors, trace }

/-- What a run knows of its surroundings: the settings, the fuel of a step, and whether the trace
file cannot be opened. -/
structure Setup where
  settings : Settings
  fuel : Nat
  traceBlocked : Bool := false

def Setup.start (setup : Setup) (go : Session → Result) : Result :=
  if setup.traceBlocked && setup.settings.traceFile then { exit := .escaped .traceFile }
  else go { settings := setup.settings }

def runScript (setup : Setup) (source : List Char) : Result :=
  setup.start fun s => ofStep (s.runTraced setup.fuel source)

def invalidTree (path : String) (reason : Text) : Result :=
  { exit := .code exitData
    errors := "Error: invalid AST file " ++ path ++ ": " ++ reason ++ "\n" }

/-- Why a text is no tree: it is no data, data of another shape, or too deep for the host. -/
inductive TreeError where
  | read (e : Datum.ReadError)
  | load (e : LoadError)
  | tooDeep

def parseTree (host : Host) (text : List Char) : Except TreeError Node :=
  match Datum.read host.reading text with
  | .error e => .error (.read e)
  | .ok d =>
    match Node.loadWithin host.loading d with
    | none => .error .tooDeep
    | some (.error e) => .error (.load e)
    | some (.ok tree) => .ok tree

/-- Runs a tree file. What is wrong with its bytes, its text or its shape is all reported the
same way, as far as there is anything to say about it. -/
def runTreeFile (host : Host) (setup : Setup) (path : String) (content : Content) : Result :=
  match sourceText path content with
  | .error { exit := .escaped (.undecodable e), .. } => invalidTree path (decodeMessage e)
  | .error { exit := .escaped (.path failure), .. } => invalidTree path failure.reason
  | .error result => result
  | .ok text =>
    match parseTree host text with
    | .error (.read e) =>
      match e.message? text with
      | some reason => invalidTree path reason
      | none => tooDeep
    | .error (.load e) =>
      match e.message? with
      | some reason => invalidTree path reason
      | none => { exit := .escaped (.load e) }
    | .error .tooDeep => tooDeep
    | .ok tree => setup.start fun s => ofStep (s.runTree setup.fuel tree)

def promptText : String := "> "

/-- What the prompt shows of a step: its value unless that is nil. -/
def echo : Ending → Text
  | .value .nil => ""
  | .value v => v.inspect ++ "\n"
  | _ => ""

/-- Runs one line of the prompt. Diagnostics of earlier lines are forgotten. -/
def promptStep (s : Session) (fuel : Nat) (line : List Char) : Step :=
  s.clear.runTraced fuel line

def promptLines (s : Session) (fuel : Nat) : List (List Char) → Result
  | [] =>
    { exit := .code 0, output := promptText ++ "\n"
      trace := if s.settings.traceFile then some "" else none }
  | line :: rest =>
    let step := promptStep s fuel line
    let shown := promptText ++ step.output ++ echo step.ending
    let errors := Diagnostic.written step.diagnostics
    let trace := if s.settings.traceFile then some step.trace else none
    match step.ending with
    | .fault (.defect d) => { exit := .escaped (.defect d), output := shown, errors, trace }
    | .outOfFuel => { exit := .escaped .outOfFuel, output := shown, errors, trace }
    | _ =>
      let after := promptLines step.session fuel rest
      { after with
        output := shown ++ after.output
        errors := errors ++ after.errors
        trace := after.trace.map (step.trace ++ ·) }

def Job.perform (host : Host) (setup : Setup) (content : Content) (typed : List Char) :
    Job → Result
  | .emitTree path =>
    match sourceText path content with
    | .ok source => writeTree host source
    | .error result => result
  | .runTree path => runTreeFile host setup path content
  | .script path =>
    match sourceText path content with
    | .ok source => runScript setup source
    | .error result => result
  | .prompt =>
    setup.start fun s => promptLines s setup.fuel (Text.lines (Text.unixLines typed))

def settings (now : Number) (maxCalls verbosity : Nat) : Settings := { verbosity, now, maxCalls }

def run (host : Host) (now : Number) (maxCalls fuel : Nat) (folder : Folder) (typed : List Char)
    (arguments : List String) : Result :=
  match parseOptions arguments with
  | .error stop => stopped stop
  | .ok options =>
    let content :=
      match options.job.path? with
      | some path => folder.read path
      | none => .error .missing
    let traceBlocked :=
      match folder.find [traceFileName] with
      | .folder => true
      | _ => false
    let settings := settings now maxCalls options.verbosity
    options.job.perform host { settings, fuel, traceBlocked } content typed

end Lox.Command
