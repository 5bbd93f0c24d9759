import Lox.Command
import Lox.Proofs.Datum.Room
import Lox.Proofs.Session.Defects
import Lox.Proofs.Session.Tracing
import Lox.Proofs.Tree.Record

/-!
The routes by which a source text can be run agree: as a script, as a tree that was written and
read back, and as a program in a session of its own. They print the same, report the same and end
in the same way, and a text that is rejected is rejected by all of them alike.
-/
namespace Lox

variable {source : List Char} {statements : List Node}

theorem Session.run_defined (h : program source = .ok statements) (settings : Settings)
    (fuel : Nat) : (Session.run { settings } fuel [] statements).ending.Defined [source] := by
  have hproper := runSource_proper (s := { settings }) fuel (List.mem_singleton_self source)
    ⟨statements, h⟩ State.proper_initial
  have hrun : Session.runSource { settings } fuel source =
      Session.run { settings } fuel [] statements := by
    rw [runSource, h]
  rw [← hrun]
  exact hproper.2

namespace Command

theorem settings_traceFile {now : Number} {maxCalls n : Nat} (h : 0 < n) :
    (settings now maxCalls n).traceFile = true :=
  decide_eq_true h

theorem settings_traced {now : Number} {maxCalls : Nat} (n : Nat) :
    (settings now maxCalls n).traceFile = true ∨ (settings now maxCalls n).verbosity = 0 := by
  obtain rfl | hpos := Nat.eq_zero_or_pos n
  · exact .inr rfl
  · exact .inl (settings_traceFile hpos)

variable (now : Number) (maxCalls fuel : Nat)

def freshStep (verbosity : Nat) (statements : List Node) : Step :=
  Session.run { settings := settings now maxCalls verbosity } fuel [] statements

theorem freshStep_quiet (h : program source = .ok statements) (verbosity : Nat) :
    let step := freshStep now maxCalls fuel verbosity statements
    let quiet := freshStep now maxCalls fuel 0 statements
    quiet.ending = step.ending ∧ quiet.output = step.output ∧
      quiet.diagnostics = step.diagnostics := by
  intro step quiet
  by_cases hzero : verbosity = 0
  · subst hzero
    exact ⟨rfl, rfl, rfl⟩
  have hbelow : (settings now maxCalls 0).Below (settings now maxCalls verbosity) :=
    ⟨Nat.zero_le _, rfl, rfl, fun hfile => by cases hfile⟩
  have hquiet : quiet = step.upTo (settings now maxCalls 0) := by
    obtain hblocked | hquiet := Session.run_upTo
      (s := { settings := settings now maxCalls verbosity }) hbelow fuel [] statements
    · have hdefined := Session.run_defined h (settings now maxCalls verbosity) fuel
      rw [hblocked] at hdefined
      exact hdefined.elim
    · exact hquiet
  have hfile : step.session.settings.traceFile = true := by
    rw [show step.session.settings = settings now maxCalls verbosity from Session.settings_run ..]
    exact settings_traceFile (Nat.pos_of_ne_zero hzero)
  rw [hquiet]
  exact ⟨rfl, Step.output_upTo hfile (.inr rfl), Step.diagnostics_upTo⟩

/-- A program ends in the same way, prints the same and reports the same at all verbosities. -/
theorem freshStep_levels (h : program source = .ok statements) (verbosity level : Nat) :
    let step := freshStep now maxCalls fuel verbosity statements
    let other := freshStep now maxCalls fuel level statements
    other.ending = step.ending ∧ other.output = step.output ∧
      other.diagnostics = step.diagnostics := by
  intro step other
  obtain ⟨hending, houtput, hdiagnostics⟩ := freshStep_quiet now maxCalls fuel h verbosity
  obtain ⟨hending', houtput', hdiagnostics'⟩ := freshStep_quiet now maxCalls fuel h level
  exact ⟨hending'.symm.trans hending, houtput'.symm.trans houtput,
    hdiagnostics'.symm.trans hdiagnostics⟩

def treeText (statements : List Node) : Text := (Node.list statements).toDatum.write 0 ++ "\n"

theorem lasting_treeText (h : program source = .ok statements) : (treeText statements).Lasting :=
  (Datum.lasting_write _ 0 (Node.writable_toDatum _
    (program_writable h (Nat.lt_pow_self (by decide))))).append
    (Text.lasting_plain (by decide))

variable {host : Host}

theorem writeTree_accepted (h : program source = .ok statements) :
    host.recording < (Node.list statements).recordDepth ∧ writeTree host source = tooDeep ∨
      writeTree host source = { exit := .code 0, output := treeText statements } := by
  unfold writeTree Node.recordWithin
  rw [h]
  dsimp only
  split_ifs with hroom
  · exact .inr rfl
  · exact .inl ⟨Nat.lt_of_not_le hroom, rfl⟩

structure Host.Holds (host : Host) (d : Datum) : Prop where
  reading : d.height ≤ host.reading.nesting
  loading : Node.loadDepth d ≤ host.loading

theorem parseTree_treeText (h : program source = .ok statements)
    (hlines : source.count '\n' + 1 < 10 ^ host.reading.digits) :
    let parsed := parseTree host (treeText statements).chars
    ¬host.Holds (Node.list statements).toDatum ∧
        (parsed = .error (.read .tooDeep) ∨ parsed = .error .tooDeep) ∨
      parsed = .ok (.list statements) := by
  intro parsed
  have hwritable := Node.writable_toDatum (.list statements) (program_writable h hlines)
  have htext : (treeText statements).chars =
      ((Node.list statements).toDatum.write 0).chars ++ ['\n'] := by
    rw [treeText, Text.chars_append, Text.chars_plain]
    rfl
  have hwide : Datum.read
      { host.reading with
        nesting := max host.reading.nesting (Node.list statements).toDatum.height }
      (((Node.list statements).toDatum.write 0).chars ++ ['\n']) =
        .ok (Node.list statements).toDatum :=
    Datum.read_write hwritable (Nat.le_max_right ..)
  unfold parsed parseTree
  rw [htext]
  obtain hcut | hcut := Datum.read_cuts host.reading (Nat.le_max_left _ _)
    (((Node.list statements).toDatum.write 0).chars ++ ['\n'])
  · rw [hcut]
    refine .inl ⟨fun hholds => ?_, .inl rfl⟩
    rw [Datum.read_write hwritable hholds.reading] at hcut
    cases hcut
  · rw [hcut, hwide]
    dsimp only
    unfold Node.loadWithin
    split_ifs with hload
    · rw [Node.ofDatum_toDatum (program_portable h)]
      exact .inr rfl
    · exact .inl ⟨fun hholds => hload hholds.loading, .inr rfl⟩

theorem sourceText_utf8 (path : String) {text : List Char} (h : '\r' ∉ text) :
    sourceText path (.ok (Text.utf8 text)) = .ok text := by
  simp only [sourceText, Text.decode_utf8, Text.unixLines_of_not_mem h]

/-- A command line with the folder it is run in and what is typed meanwhile. -/
structure Invocation where
  folder : Folder
  arguments : List String
  typed : List Char

namespace Invocation

variable {host : Host} {now maxCalls fuel} {i : Invocation} {verbosity : Nat} {text : List Char}

def result (i : Invocation) (host : Host) (now : Number) (maxCalls fuel : Nat) : Result :=
  run host now maxCalls fuel i.folder i.typed i.arguments

/-- The command line asks for a job on a file with a text, at a verbosity. -/
def Asks (i : Invocation) (job : String → Job) (verbosity : Nat) (text : List Char) : Prop :=
  ∃ path options, parseOptions i.arguments = .ok options ∧ options.job = job path ∧
    options.verbosity = verbosity ∧ i.folder.read path = .ok (Text.utf8 text)

/-- The trace file can be opened if there is to be one. -/
def Traceable (i : Invocation) (verbosity : Nat) : Prop :=
  0 < verbosity → i.folder.find [traceFileName] ≠ .folder

theorem Asks.result {job : String → Job} (h : i.Asks job verbosity text)
    (hjob : ∀ path, (job path).path? = some path) :
    ∃ path blocked, (i.folder.find [traceFileName] ≠ .folder → blocked = false) ∧
      i.result host now maxCalls fuel =
        (job path).perform host ⟨settings now maxCalls verbosity, fuel, blocked⟩
          (.ok (Text.utf8 text)) i.typed := by
  obtain ⟨path, options, hoptions, hpath, hverbosity, hread⟩ := h
  unfold Invocation.result run
  rw [hoptions]
  dsimp only
  rw [hpath, hjob, hverbosity]
  dsimp only
  rw [hread]
  refine ⟨path, _, ?_, rfl⟩
  intro hopen
  split
  · rename_i hfolder
    exact absurd hfolder hopen
  · rfl

theorem Traceable.start {blocked : Bool} (h : i.Traceable verbosity)
    (hblocked : i.folder.find [traceFileName] ≠ .folder → blocked = false)
    (go : Session → Result) :
    Setup.start ⟨settings now maxCalls verbosity, fuel, blocked⟩ go =
      go { settings := settings now maxCalls verbosity } := by
  have hopen : (blocked && decide (0 < verbosity)) = false := by
    by_cases hpos : 0 < verbosity
    · rw [hblocked (h hpos), Bool.false_and]
    · rw [decide_eq_false hpos, Bool.and_false]
  unfold Setup.start
  rw [if_neg]
  intro hstart
  exact absurd (hopen.symm.trans hstart) (by decide)

theorem result_emit (h : i.Asks .emitTree verbosity text) (hreturn : '\r' ∉ text) :
    i.result host now maxCalls fuel = writeTree host text := by
  obtain ⟨path, blocked, -, hresult⟩ := h.result fun _ => rfl
  rw [hresult, Job.perform, sourceText_utf8 path hreturn]

theorem result_script (h : i.Asks .script verbosity text) (ht : i.Traceable verbosity)
    (hreturn : '\r' ∉ text) :
    i.result host now maxCalls fuel =
      ofStep (Session.runTraced { settings := settings now maxCalls verbosity } fuel text) := by
  obtain ⟨path, blocked, hblocked, hresult⟩ := h.result fun _ => rfl
  rw [hresult, Job.perform, sourceText_utf8 path hreturn]
  exact ht.start hblocked _

theorem result_tree (h : i.Asks .runTree verbosity text) (ht : i.Traceable verbosity)
    (hreturn : '\r' ∉ text) {tree : Node} (htree : parseTree host text = .ok tree) :
    i.result host now maxCalls fuel =
      ofStep (Session.runTree { settings := settings now maxCalls verbosity } fuel tree) := by
  obtain ⟨path, blocked, hblocked, hresult⟩ := h.result fun _ => rfl
  rw [hresult, Job.perform, runTreeFile, sourceText_utf8 path hreturn]
  dsimp only
  rw [htree]
  exact ht.start hblocked _

theorem result_tooDeep (h : i.Asks .runTree verbosity text) (hreturn : '\r' ∉ text)
    (htree : parseTree host text = .error (.read .tooDeep) ∨ parseTree host text = .error .tooDeep) :
    i.result host now maxCalls fuel = tooDeep := by
  obtain ⟨path, blocked, -, hresult⟩ := h.result fun _ => rfl
  rw [hresult, Job.perform, runTreeFile, sourceText_utf8 path hreturn]
  dsimp only
  obtain htree | htree := htree
  · rw [htree]
    rfl
  · rw [htree]

end Invocation

theorem runTraced_accepted (h : program source = .ok statements) {verbosity : Nat}
    (hverbosity : verbosity ≤ 3) :
    Session.runTraced { settings := settings now maxCalls verbosity } fuel source =
      freshStep now maxCalls fuel verbosity statements := by
  have htokens : Session.tokenEvents (settings now maxCalls verbosity) (scan source) = [] :=
    if_neg (by change ¬4 ≤ verbosity; omega)
  rw [Session.runTraced_of_ok _ fuel h, htokens]
  rfl

theorem runProgram_accepted (h : program source = .ok statements) (debug : Nat) :
    runProgram (settings now maxCalls debug) fuel source =
      .ok (freshStep now maxCalls fuel debug statements) := by
  rw [runProgram, h]
  rfl

theorem ofStep_defined {step : Step} {texts : List (List Char)} (h : step.ending.Defined texts) :
    (ofStep step).output = step.output ∧
      (ofStep step).errors = Diagnostic.written step.diagnostics ∧
      ((∃ v, step.ending = .value v) ↔ (ofStep step).exit = .code 0) ∧
      ((∃ e, step.ending = .fault (.error e)) ↔ (ofStep step).exit = .code exitData) ∧
      (step.ending = .outOfFuel ↔
        (ofStep step).exit ≠ .code 0 ∧ (ofStep step).exit ≠ .code exitData) := by
  unfold ofStep
  cases hending : step.ending with
  | value v => simp [exitData]
  | rejected stage =>
    rw [hending] at h
    exact h.elim
  | fault f =>
    cases f with
    | error e => simp [exitData]
    | defect d =>
      rw [hending] at h
      exact h.elim
  | outOfFuel => simp

/-- A program in a session shows what the script shows, whatever the two verbosities. -/
theorem freshStep_ofStep (h : program source = .ok statements) (verbosity debug : Nat) :
    let step := freshStep now maxCalls fuel debug statements
    let result := ofStep (freshStep now maxCalls fuel verbosity statements)
    step.output = result.output ∧ Diagnostic.written step.diagnostics = result.errors ∧
      ((∃ v, step.ending = .value v) ↔ result.exit = .code 0) ∧
      ((∃ e, step.ending = .fault (.error e)) ↔ result.exit = .code exitData) ∧
      (step.ending = .outOfFuel ↔ result.exit ≠ .code 0 ∧ result.exit ≠ .code exitData) := by
  intro step result
  have hdefined := Session.run_defined h (settings now maxCalls verbosity) fuel
  obtain ⟨houtput, herrors, hends⟩ := ofStep_defined hdefined
  obtain ⟨hending, houtput', hdiagnostics⟩ := freshStep_levels now maxCalls fuel h verbosity debug
  rw [hending, houtput', hdiagnostics]
  exact ⟨houtput.symm, herrors.symm, hends⟩

theorem mem_tokenEvents {settings : Settings} {scanned : Scan} {e : Event}
    (h : e ∈ Session.tokenEvents settings scanned) :
    4 ≤ settings.verbosity ∧ ∃ entry, e = .traced entry := by
  unfold Session.tokenEvents at h
  split at h
  · rename_i hverbosity
    obtain ⟨t, -, rfl⟩ := List.mem_map.1 h
    exact ⟨hverbosity, _, rfl⟩
  · cases h

theorem tokenEvents_silent {settings : Settings}
    (hfile : settings.traceFile = true ∨ settings.verbosity = 0) (scanned : Scan) :
    ∀ e ∈ Session.tokenEvents settings scanned,
      e.output settings.traceFile = "" ∧ e.diagnostic? = none := by
  intro e he
  obtain ⟨hverbosity, entry, rfl⟩ := mem_tokenEvents he
  obtain hfile | hzero := hfile
  · rw [hfile]
    exact ⟨rfl, rfl⟩
  · omega

theorem runTraced_rejected {r : Rejection} (h : program source = .error r) (verbosity : Nat) :
    let result := ofStep
      (Session.runTraced { settings := settings now maxCalls verbosity } fuel source)
    result.exit = .code exitData ∧ result.output = "" ∧
      result.errors = (rejected r.stage r.errors).errors := by
  intro result
  have hresult : result = ofStep (Session.reject { settings := settings now maxCalls verbosity }
      (Session.tokenEvents (settings now maxCalls verbosity) (scan source)) r) :=
    congrArg ofStep (Session.runTraced_of_error _ fuel h)
  have hsilent := tokenEvents_silent (@settings_traced now maxCalls verbosity) (scan source)
  rw [hresult]
  refine ⟨rfl, Session.output_reject r fun e he => (hsilent e he).1, ?_⟩
  change (rejected r.stage (Session.reject _ _ r).diagnostics).errors = _
  rw [Session.diagnostics_reject r fun e he => (hsilent e he).2]

/-- The command on a source text without carriage returns, as a script, as a tree file that the
command wrote, and as a program in a session. Only a host without room for the tree can keep it
from being written, read or loaded. -/
theorem routes_agree (host : Host) (now : Number) (maxCalls fuel : Nat) {source : List Char}
    (hreturn : '\r' ∉ source) {emit script : Invocation} {level verbosity : Nat}
    (hemit : emit.Asks .emitTree level source) (hscript : script.Asks .script verbosity source)
    (htraceable : script.Traceable verbosity) :
    let emitted := emit.result host now maxCalls fuel
    let ran := script.result host now maxCalls fuel
    (∀ statements, program source = .ok statements →
      (host.recording < (Node.list statements).recordDepth ∧ emitted = tooDeep ∨
        emitted.exit = .code 0 ∧ emitted.errors = "" ∧ emitted.output.isWhole = true ∧
        (verbosity ≤ 3 → source.count '\n' + 1 < 10 ^ host.reading.digits →
          ∀ tree : Invocation, tree.Asks .runTree verbosity emitted.output.chars →
            tree.Traceable verbosity →
            ¬host.Holds (Node.list statements).toDatum ∧
                tree.result host now maxCalls fuel = tooDeep ∨
              tree.result host now maxCalls fuel = ran)) ∧
      (verbosity ≤ 3 →
        ∀ debug, ∃ step, runProgram (settings now maxCalls debug) fuel source = .ok step ∧
          step.output = ran.output ∧ Diagnostic.written step.diagnostics = ran.errors ∧
          ((∃ v, step.ending = .value v) ↔ ran.exit = .code 0) ∧
          ((∃ e, step.ending = .fault (.error e)) ↔ ran.exit = .code 65) ∧
          (step.ending = .outOfFuel ↔ ran.exit ≠ .code 0 ∧ ran.exit ≠ .code 65))) ∧
    (∀ r, program source = .error r →
      emitted.exit = .code 65 ∧ ran.exit = .code 65 ∧ emitted.output = "" ∧ ran.output = "" ∧
      emitted.errors = Diagnostic.written r.errors ++ r.stage.message ++ "\n" ∧
      ran.errors = emitted.errors ∧
      ∀ debug, runProgram (settings now maxCalls debug) fuel source = .error r) := by
  intro emitted ran
  have hemitted : emitted = writeTree host source := Invocation.result_emit hemit hreturn
  have hran : ran = ofStep
      (Session.runTraced { settings := settings now maxCalls verbosity } fuel source) :=
    Invocation.result_script hscript htraceable hreturn
  constructor
  · intro statements hprogram
    have haccepted : verbosity ≤ 3 →
        ran = ofStep (freshStep now maxCalls fuel verbosity statements) := by
      intro hverbosity
      rw [hran, runTraced_accepted now maxCalls fuel hprogram hverbosity]
    constructor
    · obtain ⟨hroom, hgiven⟩ | hwritten := @writeTree_accepted _ _ host hprogram
      · exact .inl ⟨hroom, hemitted.trans hgiven⟩
      have hlasting := lasting_treeText hprogram
      rw [hwritten] at hemitted
      rw [hemitted]
      refine .inr ⟨rfl, rfl, hlasting.whole, fun hverbosity hlines tree htree ht => ?_⟩
      obtain ⟨hholds, hgiven⟩ | hparsed := parseTree_treeText hprogram hlines
      · exact .inl ⟨hholds, Invocation.result_tooDeep htree hlasting.noReturn hgiven⟩
      · exact .inr ((Invocation.result_tree htree ht hlasting.noReturn hparsed).trans
          (haccepted hverbosity).symm)
    · intro hverbosity debug
      rw [haccepted hverbosity]
      exact ⟨_, runProgram_accepted now maxCalls fuel hprogram debug,
        freshStep_ofStep now maxCalls fuel hprogram verbosity debug⟩
  · intro r hprogram
    have hrejected : emitted = rejected r.stage r.errors := by
      rw [hemitted, writeTree, hprogram]
    obtain ⟨hexit, houtput, herrors⟩ := runTraced_rejected now maxCalls fuel hprogram verbosity
    rw [hran, hrejected]
    refine ⟨rfl, hexit, rfl, houtput, rfl, herrors, fun debug => ?_⟩
    rw [runProgram, hprogram]
    rfl

/-- A script that prints a text of two lines and then fails does so as a tree, too. -/
theorem routes_agree_failing :
    let source := "print \"a\nb\"; x;".toList
    let emit : Invocation :=
      ⟨⟨[(["s.lox"], some (Text.utf8 source))]⟩, ["--emit-ast", "s.lox"], []⟩
    let script : Invocation := ⟨emit.folder, ["-vv", "s.lox"], []⟩
    let emitted := emit.result .usual .zero 10 100
    let tree : Invocation :=
      ⟨⟨[(["s.json"], some (Text.utf8 emitted.output.chars))]⟩, ["-vv", "--ast", "s.json"], []⟩
    '\r' ∉ source ∧ emit.Asks .emitTree 0 source ∧ script.Asks .script 2 source ∧
      script.Traceable 2 ∧ (∃ statements, program source = .ok statements) ∧
      source.count '\n' + 1 < 10 ^ Host.usual.reading.digits ∧ emitted.exit = .code 0 ∧
      tree.result .usual .zero 10 100 = script.result .usual .zero 10 100 := by
  intro source emit script emitted tree
  have hreturn : '\r' ∉ source := by decide
  have hemit : emit.Asks .emitTree 0 source := ⟨"s.lox", _, rfl, rfl, rfl, rfl⟩
  have hscript : script.Asks .script 2 source := ⟨"s.lox", _, rfl, rfl, rfl, rfl⟩
  have htree : tree.Asks .runTree 2 emitted.output.chars := ⟨"s.json", _, rfl, rfl, rfl, rfl⟩
  have hscriptTrace : script.Traceable 2 := fun _ h => nomatch h
  have htreeTrace : tree.Traceable 2 := fun _ h => nomatch h
  have haccepted : ∃ statements, program source = .ok statements :=
    exists_program (by decide +kernel)
  obtain ⟨statements, hprogram⟩ := haccepted
  have hlines : source.count '\n' + 1 < 10 ^ Host.usual.reading.digits := by decide +kernel
  have hfits : ∀ l ∈ (program source).toOption,
      (Node.list l).recordDepth ≤ Host.usual.recording ∧
        (Node.list l).toDatum.height ≤ Host.usual.reading.nesting ∧
        Node.loadDepth (Node.list l).toDatum ≤ Host.usual.loading := by decide +kernel
  obtain ⟨hrecording, hreading, hloading⟩ := hfits statements (by rw [hprogram]; rfl)
  refine ⟨hreturn, hemit, hscript, hscriptTrace, ⟨statements, hprogram⟩, hlines, ?_⟩
  obtain ⟨⟨hroom, -⟩ | ⟨hexit, -, -, hreads⟩, -⟩ :=
    (routes_agree .usual .zero 10 100 hreturn hemit hscript hscriptTrace).1 statements hprogram
  · exact absurd hrecording (Nat.not_le.2 hroom)
  obtain ⟨hholds, -⟩ | hsame := hreads (by decide) hlines tree htree htreeTrace
  · exact absurd ⟨hreading, hloading⟩ hholds
  · exact ⟨hexit, hsame⟩

end Command

end Lox
