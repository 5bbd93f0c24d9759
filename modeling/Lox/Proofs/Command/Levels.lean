import Lox.Proofs.Command.Routes
import Lox.Proofs.Session.Levels

/-!
The command at two verbosities. A script and a prompt show the same whatever the number of flags
that ask for a trace. So does a tree file if its texts are whole; one that is not may hold a text
that the trace file cannot take, and then the run is given up where it would have been traced.
-/
namespace Lox.Command

def Options.louder (o : Options) : Options := { o with verbosity := o.verbosity + 1 }

namespace Reading

def louder (r : Reading) : Reading := { r with options := r.options.louder }

variable (r : Reading)

@[simp] theorem placed_louder : r.louder.placed = r.placed := rfl

@[simp] theorem skip_louder (text : String) : r.louder.skip text = (r.skip text).louder := rfl

@[simp] theorem place_louder (script : Option String) :
    r.louder.place script = (r.place script).louder := rfl

theorem bind_louder {x y : Except Stop Reading} {f : Reading → Except Stop Reading}
    (hx : y = x.map louder) (hf : ∀ r, f r.louder = (f r).map louder) :
    (y >>= f) = (x >>= f).map louder := by
  subst hx
  cases x with
  | error stop => rfl
  | ok r => exact hf r

theorem raise_louder (flag : Flag) : r.louder.raise flag = (r.raise flag).map louder := by
  cases flag <;> rfl

theorem raiseAll_louder (flags : List Flag) :
    r.louder.raiseAll flags = (r.raiseAll flags).map louder := by
  induction flags generalizing r with
  | nil => rfl
  | cons flag flags ih =>
    exact bind_louder (raise_louder r flag) ih

theorem give_louder (flag : Flag) (value : String) :
    r.louder.give flag value = (r.give flag value).map louder := by
  have hrun : r.louder.options.runTree = r.options.runTree := rfl
  have hemit : r.louder.options.emitTree = r.options.emitTree := rfl
  unfold give
  rw [hrun, hemit]
  split
  · rfl
  · split <;> split <;> rfl

theorem giveInline_louder (flag : Flag) (short : Bool) (value : String) :
    r.louder.giveInline flag short value = (r.giveInline flag short value).map louder := by
  unfold giveInline
  split
  · exact give_louder r flag value
  · split
    · cases joined flag value.toList with
      | error e => rfl
      | ok flags => exact raiseAll_louder r flags
    · rfl

end Reading

theorem takeIn_raise (r : Reading) {flag : Flag} (short : Bool) (h : ¬flag.takesValue = true)
    (rest : List Item) :
    takeIn r (.flag flag short none :: rest) = r.raise flag >>= fun next => takeIn next rest := by
  rw [takeIn.eq_def]
  exact if_neg h

theorem takeIn_louder (r : Reading) (items : List Item) :
    takeIn r.louder items = (takeIn r items).map Reading.louder := by
  fun_induction takeIn r items with
  | case1 => rfl
  | case2 r text rest ih => exact ih
  | case3 | case4 | case5 | case6 | case7 | case8 | case9 | case10 => simp [takeIn, *]
  | case11 r flag short value rest ih => exact Reading.bind_louder (r.giveInline_louder ..) ih
  | case12 r flag short htakes value rest ih =>
    simp only [takeIn, htakes, if_true]
    exact Reading.bind_louder (r.give_louder ..) ih
  | case13 r flag short rest htakes hplain =>
    simp only [takeIn, htakes, if_true]
    rfl
  | case14 r flag short rest htakes ih =>
    rw [takeIn_raise _ _ htakes]
    exact Reading.bind_louder (r.raise_louder ..) ih

theorem classifyAll_verbose (arguments : List String) :
    classifyAll ("-v" :: arguments) =
      (classifyAll arguments).map (Item.flag .verbose true none :: ·) := by
  have hclassify : classify "-v" = .ok (.flag .verbose true none) := rfl
  rw [classifyAll, if_neg (by decide), hclassify]
  cases classifyAll arguments <;> rfl

/-- One flag more in front of a command line raises the verbosity and changes nothing else. -/
theorem parseOptions_verbose (arguments : List String) :
    parseOptions ("-v" :: arguments) = (parseOptions arguments).map Options.louder := by
  unfold parseOptions
  rw [classifyAll_verbose]
  cases classifyAll arguments with
  | error e => rfl
  | ok items =>
    have hverbose : takeIn {} (.flag .verbose true none :: items) =
        (takeIn {} items).map Reading.louder := by
      rw [← takeIn_louder, takeIn_raise _ _ (by decide)]
      rfl
    simp only [Except.map]
    rw [hverbose]
    cases takeIn {} items with
    | error stop => rfl
    | ok r =>
      simp only [Except.map, Bind.bind, Except.bind]
      have hextras : r.louder.extras = r.extras := rfl
      rw [hextras]
      split <;> rfl

/-- Two results that differ in the trace only. -/
structure Result.Same (a b : Result) : Prop where
  exit : a.exit = b.exit
  output : a.output = b.output
  errors : a.errors = b.errors

theorem Result.same_refl (r : Result) : r.Same r := ⟨rfl, rfl, rfl⟩

variable {low : Settings}

theorem ofStep_upTo {step : Step} (h : (step.upTo low).output = step.output) :
    (ofStep (step.upTo low)).Same (ofStep step) := by
  have hending : (step.upTo low).ending = step.ending := rfl
  unfold ofStep
  rw [hending, Step.diagnostics_upTo, h]
  cases step.ending with
  | fault f => cases f <;> exact ⟨rfl, rfl, rfl⟩
  | _ => exact ⟨rfl, rfl, rfl⟩

theorem promptLines_same {s : Session} {texts : List (List Char)} (hbelow : low.Below s.settings)
    (hhigh : s.settings.traceFile = true) (hlow : low.traceFile = true ∨ low.verbosity = 0)
    (hs : s.state.store.Proper (Scanned texts) (DeclaredIn texts)) (fuel : Nat)
    (lines : List (List Char)) (htexts : ∀ line ∈ lines, line ∈ texts) :
    (promptLines { s with settings := low } fuel lines).Same (promptLines s fuel lines) := by
  induction lines generalizing s with
  | nil => exact ⟨rfl, rfl, rfl⟩
  | cons line rest ih =>
    have hsettings : (promptStep s fuel line).session.settings = s.settings :=
      Session.settings_take s ⟨.prompted, fuel, line⟩
    have htake : (promptStep s fuel line).session.state.store.Proper _ _ ∧
        promptStep { s with settings := low } fuel line = (promptStep s fuel line).upTo low :=
      Session.take_upTo (i := ⟨.prompted, fuel, line⟩) hbelow (htexts line (by simp)) hs
    obtain ⟨hstore, hstep⟩ := htake
    unfold promptLines
    dsimp only
    rw [hstep]
    generalize promptStep s fuel line = step at hsettings hstore ⊢
    have houtput : (step.upTo low).output = step.output :=
      Step.output_upTo (hsettings ▸ hhigh) hlow
    have hending : (step.upTo low).ending = step.ending := rfl
    have hrest : (promptLines (step.upTo low).session fuel rest).Same
        (promptLines step.session fuel rest) :=
      ih (hsettings ▸ hbelow) (hsettings ▸ hhigh) hstore fun other h => htexts other (by simp [h])
    rw [houtput, hending, Step.diagnostics_upTo]
    -- The trace aside, both go on to the rest unless the step ends the prompt.
    split
    · exact ⟨rfl, rfl, rfl⟩
    · exact ⟨rfl, rfl, rfl⟩
    · exact ⟨hrest.exit, congrArg (_ ++ ·) hrest.output, congrArg (_ ++ ·) hrest.errors⟩

variable {now : Number} {maxCalls n m : Nat}

theorem settings_below (h : n ≤ m) :
    (settings now maxCalls n).Below (settings now maxCalls m) where
  verbosity := h
  now := rfl
  maxCalls := rfl
  traceFile hfile := decide_eq_true (Nat.lt_of_lt_of_le (of_decide_eq_true hfile) h)

namespace Job

/-- A tree file whose run is given up for the sake of the trace. -/
def GivesUp (host : Host) (job : Job) (content : Content) (result : Result) : Prop :=
  ∃ path text tree, job = .runTree path ∧ sourceText path content = .ok text ∧
    parseTree host text = .ok tree ∧ ¬tree.All Token.Whole ∧
    result.exit = .escaped (.defect .unwritableTrace)

variable {host : Host} {fuel : Nat} {content : Content} {typed : List Char}

theorem runScript_same (h : n ≤ m) (hm : 0 < m) (source : List Char) :
    (runScript ⟨settings now maxCalls n, fuel, false⟩ source).Same
      (runScript ⟨settings now maxCalls m, fuel, false⟩ source) := by
  let i : Input := ⟨.noted, fuel, source⟩
  let s : Session := { settings := settings now maxCalls m }
  have hstep := (Session.take_upTo (s := s) (settings_below h) (List.mem_singleton_self i.text)
    State.proper_initial).2
  have hfile : (s.take i).session.settings.traceFile = true := by
    rw [Session.settings_take]
    exact settings_traceFile hm
  change (ofStep (Session.take { settings := settings now maxCalls n } i)).Same
    (ofStep (s.take i))
  rw [show Session.take { settings := settings now maxCalls n } i = _ from hstep]
  exact ofStep_upTo (Step.output_upTo hfile (settings_traced n))

theorem runTree_same (h : n ≤ m) (hm : 0 < m) (tree : Node) :
    let low : Step := Session.runTree { settings := settings now maxCalls n } fuel tree
    let high : Step := Session.runTree { settings := settings now maxCalls m } fuel tree
    (ofStep low).Same (ofStep high) ∨
      ¬tree.All Token.Whole ∧ (ofStep high).exit = .escaped (.defect .unwritableTrace) := by
  intro low high
  cases tree with
  | list statements =>
    let s : Session := { settings := settings now maxCalls m }
    obtain hblocked | hlow := Session.run_upTo (s := s) (settings_below h) fuel [] statements
    · right
      refine ⟨fun hwhole => Session.run_written hwhole _ _ hblocked, ?_⟩
      have hending : high.ending = .fault (.defect .unwritableTrace) := hblocked
      unfold ofStep
      rw [hending]
    · left
      have hfile : high.session.settings.traceFile = true := by
        rw [show high.session.settings = _ from Session.settings_run ..]
        exact settings_traceFile hm
      rw [show low = high.upTo _ from hlow]
      exact ofStep_upTo (Step.output_upTo hfile (settings_traced n))
  | _ => exact .inl ⟨rfl, rfl, rfl⟩

theorem runTreeFile_cases (path : String) (content : Content) :
    (∃ result, ∀ setup, runTreeFile host setup path content = result) ∨
      ∃ text tree, sourceText path content = .ok text ∧ parseTree host text = .ok tree ∧
        ∀ setup, runTreeFile host setup path content =
          setup.start fun s => ofStep (s.runTree setup.fuel tree) := by
  unfold runTreeFile
  cases hsource : sourceText path content with
  | error result =>
    left
    obtain ⟨exit, output, errors, trace⟩ := result
    cases exit with
    | code n => exact ⟨_, fun _ => rfl⟩
    | escaped e => cases e <;> exact ⟨_, fun _ => rfl⟩
  | ok text =>
    cases htree : parseTree host text with
    | error e =>
      left
      cases e with
      | read e =>
        cases hreason : e.message? text with
        | some reason => exact ⟨invalidTree path reason, fun _ => by simp only [htree, hreason]⟩
        | none => exact ⟨tooDeep, fun _ => by simp only [htree, hreason]⟩
      | load e =>
        cases hreason : e.message? with
        | some reason => exact ⟨invalidTree path reason, fun _ => by simp only [htree, hreason]⟩
        | none => exact ⟨{ exit := .escaped (.load e) }, fun _ => by simp only [htree, hreason]⟩
      | tooDeep => exact ⟨tooDeep, fun _ => by simp only [htree]⟩
    | ok tree => exact .inr ⟨text, tree, rfl, htree, fun _ => by simp only [htree]⟩

theorem perform_same (h : n ≤ m) (hm : 0 < m) (job : Job) :
    let low := job.perform host ⟨settings now maxCalls n, fuel, false⟩ content typed
    let high := job.perform host ⟨settings now maxCalls m, fuel, false⟩ content typed
    low.Same high ∨ job.GivesUp host content high := by
  intro low high
  cases job with
  | emitTree path => exact .inl (Result.same_refl _)
  | script path =>
    left
    subst low high
    dsimp only [Job.perform]
    cases sourceText path content with
    | error result => exact Result.same_refl _
    | ok source => exact runScript_same h hm source
  | prompt =>
    left
    exact promptLines_same (s := { settings := settings now maxCalls m }) (settings_below h)
      (settings_traceFile hm) (settings_traced n) State.proper_initial fuel _ fun _ hline => hline
  | runTree path =>
    change Result.Same (runTreeFile _ _ _ _) (runTreeFile _ _ _ _) ∨
      GivesUp _ _ _ (runTreeFile _ _ _ _)
    obtain ⟨result, hresult⟩ | ⟨text, tree, hsource, htree, hstarts⟩ :=
      runTreeFile_cases path content
    · rw [hresult, hresult]
      exact .inl (Result.same_refl _)
    · rw [hstarts, hstarts]
      obtain hsame | ⟨hhalf, hexit⟩ := runTree_same h hm tree
      · exact .inl hsame
      · exact .inr ⟨path, text, tree, rfl, hsource, htree, hhalf, hexit⟩

end Job

theorem parseOptions_replicate (k : Nat) (arguments : List String) :
    parseOptions (List.replicate k "-v" ++ arguments) =
      (parseOptions arguments).map fun o => { o with verbosity := o.verbosity + k } := by
  induction k with
  | zero =>
    rw [List.replicate_zero, List.nil_append]
    cases parseOptions arguments <;> rfl
  | succ k ih =>
    rw [List.replicate_succ, List.cons_append, parseOptions_verbose, ih]
    cases parseOptions arguments <;> rfl

namespace Invocation

variable {host : Host} {i : Invocation} {options : Options} {fuel : Nat}

def content (i : Invocation) (job : Job) : Content :=
  match job.path? with
  | some path => i.folder.read path
  | none => .error .missing

def traceBlocked (i : Invocation) : Bool :=
  match i.folder.find [traceFileName] with
  | .folder => true
  | _ => false

theorem result_eq (h : parseOptions i.arguments = .ok options) :
    i.result host now maxCalls fuel =
      options.job.perform host ⟨settings now maxCalls options.verbosity, fuel, i.traceBlocked⟩
        (i.content options.job) i.typed := by
  unfold result run
  rw [h]
  rfl

theorem Traceable.not_blocked (h : i.Traceable m) (hm : 0 < m) : i.traceBlocked = false := by
  unfold traceBlocked
  split
  · rename_i hfolder
    exact absurd hfolder (h hm)
  · rfl

theorem result_same (h : n ≤ m) {louder : List String}
    (hlow : parseOptions i.arguments = .ok { options with verbosity := n })
    (hhigh : parseOptions louder = .ok { options with verbosity := m }) (ht : i.Traceable m) :
    let low := i.result host now maxCalls fuel
    let high := Invocation.result { i with arguments := louder } host now maxCalls fuel
    low.Same high ∨ options.job.GivesUp host (i.content options.job) high := by
  intro low high
  have hlowResult : low = _ := result_eq hlow
  have hhighResult : high = _ := result_eq (i := { i with arguments := louder }) hhigh
  obtain rfl | hm := Nat.eq_zero_or_pos m
  · obtain rfl := Nat.le_zero.1 h
    left
    rw [hlowResult, hhighResult]
    exact Result.same_refl _
  · rw [ht.not_blocked hm] at hlowResult
    rw [Traceable.not_blocked (i := { i with arguments := louder }) ht hm] at hhighResult
    rw [hlowResult, hhighResult]
    exact Job.perform_same h hm options.job

end Invocation

/-- Two verbosities. The texts that a session takes in show the same at both, step by step, but
for the entries above the lower level. The command shows the same at both, too, unless it runs a
tree file with a text that is not whole and gives up when that has to be traced; and any number of
flags changes the verbosity alone. -/
theorem levels_agree (host : Host) (now : Number) (maxCalls fuel : Nat) {n m : Nat} (h : n ≤ m) :
    (∀ inputs : List Input, List.Forall₂ (Step.Quieter n)
      (Session.takeAll { settings := settings now maxCalls n } inputs)
      (Session.takeAll { settings := settings now maxCalls m } inputs)) ∧
    (∀ (i : Invocation) (louder : List String) (options : Options),
      parseOptions i.arguments = .ok { options with verbosity := n } →
      parseOptions louder = .ok { options with verbosity := m } → i.Traceable m →
      let low := i.result host now maxCalls fuel
      let high := Invocation.result { i with arguments := louder } host now maxCalls fuel
      low.Same high ∨ options.job.GivesUp host (i.content options.job) high) ∧
    ∀ (k : Nat) (arguments : List String),
      parseOptions (List.replicate k "-v" ++ arguments) =
        (parseOptions arguments).map fun o => { o with verbosity := o.verbosity + k } := by
  refine ⟨fun inputs => ?_, fun i louder options hlow hhigh ht => ?_, parseOptions_replicate⟩
  · have hfiles : (settings now maxCalls m).traceFile = true ∧
        ((settings now maxCalls n).traceFile = true ∨ (settings now maxCalls n).verbosity = 0) ∨
        settings now maxCalls n = settings now maxCalls m := by
      obtain rfl | hm := Nat.eq_zero_or_pos m
      · exact .inr (by rw [Nat.le_zero.1 h])
      · exact .inl ⟨settings_traceFile hm, settings_traced n⟩
    exact Session.takeAll_quieter (settings_below h) hfiles inputs
  · exact Invocation.result_same h hlow hhigh ht

/-- A script that calls a function and then fails, without a trace and with the fullest one. -/
theorem levels_agree_script :
    let source := "fun f(a) \x7b print a; \x7d f(1); x;".toList
    let i : Invocation := ⟨⟨[(["s.lox"], some (Text.utf8 source))]⟩, ["s.lox"], []⟩
    let louder := ["-vv", "s.lox", "-vv"]
    (∃ options : Options, parseOptions i.arguments = .ok { options with verbosity := 0 } ∧
      parseOptions louder = .ok { options with verbosity := 4 }) ∧ i.Traceable 4 ∧
      (i.result .usual .zero 10 100).Same
        (Invocation.result { i with arguments := louder } .usual .zero 10 100) := by
  intro source i louder
  let options : Options := { script := some "s.lox" }
  have hlow : parseOptions i.arguments = .ok { options with verbosity := 0 } := rfl
  have hhigh : parseOptions louder = .ok { options with verbosity := 4 } := rfl
  have ht : i.Traceable 4 := fun _ h => nomatch h
  refine ⟨⟨options, hlow, hhigh⟩, ht, ?_⟩
  obtain hsame | ⟨path, text, tree, hjob, -⟩ :=
    (levels_agree .usual .zero 10 100 (by decide)).2.1 i louder options hlow hhigh ht
  · exact hsame
  · cases hjob

def halfTree : List Char :=
  ["[\x7b\"type\":\"Var\",", "\"name\":\x7b\"type\":\"IDENTIFIER\",",
    "\"lexeme\":\"a\",\"line\":1\x7d,", "\"initializer\":\x7b\"type\":\"Literal\",",
    "\"value\":\x7b\"type\":\"STRING\",", "\"lexeme\":\"s\",\"line\":1,",
    "\"literal\":\"\\ud800\"\x7d\x7d\x7d]"].flatMap String.toList

/-- The declaration is traced from the second level on, where the run is given up. -/
theorem levels_differ_half :
    let i : Invocation :=
      ⟨⟨[(["j.json"], some (Text.utf8 halfTree))]⟩, ["-v", "--ast", "j.json"], []⟩
    let louder := ["-vv", "--ast", "j.json"]
    (i.result .usual .zero 10 100).exit = .code 0 ∧
      (Invocation.result { i with arguments := louder } .usual .zero 10 100).exit =
        .escaped (.defect .unwritableTrace) := by
  decide +kernel

end Lox.Command
