import Lox.Command
import Std.Time.DateTime.Timestamp

/-!
The program: it reads the files and the lines that a command asks for, and writes what comes out.
-/
namespace Lox.Command

def fuelOfRun : Nat := Nat.pow 2 60

def currentTime : IO Number := do
  let time ← Std.Time.Timestamp.now
  return Number.ofDecimal false ⟨time.toNanosecondsSinceUnixEpoch.val.toNat, -9⟩

def failureOf : IO.Error → ReadFailure
  | .noFileOrDirectory .. => .missing
  | .inappropriateType _ code _ =>
    if code = 20 then .notFolder else .isFolder
  | e => .other (toString e)

def readContent (path : String) : IO Content := do
  if path.toList.contains (Char.ofNat 0) then return .error .nullInPath
  try
    let bytes ← IO.FS.readBinFile path
    return .ok (bytes.toList.map (·.toNat))
  catch e => return .error (failureOf e)

/-- The characters of a text, with a mark for each half of a surrogate pair. -/
def plain (t : Text) : String := String.ofList (t.points.map Point.shown)

def describeEscape : Escape → Text
  | .undecodable e => decodeMessage e
  | .load e => (e.message?).getD "unexpected data in the tree"
  | .defect d => (d.message?).getD "unexpected data in the tree"
  | .tooDeep => "the tree is nested too deeply"
  | .path failure => failure.reason
  | .traceFile => "the trace file cannot be opened"
  | .optionValue => "unusable option value"
  | .outOfFuel => "the run was too long"

def finish (r : Result) : IO UInt32 := do
  IO.print (plain r.output)
  IO.eprint (plain r.errors)
  if let some trace := r.trace then IO.FS.writeFile traceFileName (plain trace)
  match r.exit with
  | .code n => return UInt32.ofNat n
  | .escaped e =>
    IO.eprintln (plain (describeEscape e))
    return 1

partial def promptLoop (s : Session) (input : IO.FS.Stream) (pending : List (List Char))
    (trace : String) : IO UInt32 := do
  IO.print promptText
  (← IO.getStdout).flush
  let lines ←
    if pending.isEmpty then pure (Text.lines (Text.unixLines (← input.getLine).toList))
    else pure pending
  match lines with
  | [] =>
    IO.println ""
    return 0
  | line :: pending =>
    let now ← currentTime
    let step := promptStep { s with settings := { s.settings with now := now } } fuelOfRun line
    IO.print (plain (step.output ++ echo step.ending))
    IO.eprint (plain (Diagnostic.written step.diagnostics))
    let trace := trace ++ plain step.trace
    if s.settings.traceFile then IO.FS.writeFile traceFileName trace
    promptLoop step.session input pending trace

end Lox.Command

open Lox Lox.Command in
def main (arguments : List String) : IO UInt32 := do
  match parseOptions arguments with
  | .error stop => finish (stopped stop)
  | .ok options =>
    let settings := settings (← currentTime) Settings.defaultMaxCalls options.verbosity
    match options.job.path? with
    | none =>
      if 0 < options.verbosity then IO.FS.writeFile traceFileName ""
      promptLoop { settings } (← IO.getStdin) [] ""
    | some path =>
      let content ← readContent path
      finish (options.job.perform .usual { settings, fuel := fuelOfRun } content [])
