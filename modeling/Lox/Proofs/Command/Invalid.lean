import Lox.Proofs.Command.Levels
import Lox.Proofs.Tree.Depth
import Lox.Proofs.Tree.Shape

/-!
Tree files without a tree. Nothing is run, and nothing comes out but the reason: the bytes are no
text, the text is no data, or the data are no tree. There is no reason to give in two cases, and
the command does not finish then: the data are misshapen, or the host has no room for them.
-/
namespace Lox.Command

variable {host : Host} {path : String} {bytes : List Nat}

def datumOf? (host : Host) (bytes : List Nat) : Option Datum :=
  match Text.decode bytes with
  | .ok text => (Datum.read host.reading (Text.unixLines text)).toOption
  | .error _ => none

def treeOf? (host : Host) (bytes : List Nat) : Option Node :=
  (datumOf? host bytes).bind fun d => (Node.loadWithin host.loading d).bind Except.toOption

/-- Why a file has no tree, for those reasons that there is a message for. -/
inductive Explained (host : Host) (bytes : List Nat) : Text → Prop
  | undecodable {e : Text.DecodeError} :
      Text.decode bytes = .error e → Explained host bytes (decodeMessage e)
  | unread {text : List Char} {e : Datum.ReadError} {reason : String} :
      Text.decode bytes = .ok text → Datum.read host.reading (Text.unixLines text) = .error e →
      e.message? (Text.unixLines text) = some reason → Explained host bytes reason
  | unloaded {d : Datum} {e : LoadError} {reason : Text} :
      datumOf? host bytes = some d → Node.ofDatum d = .error e → e.message? = some reason →
      Explained host bytes reason

/-- The result says why there is no tree, and nothing else. -/
structure Result.Reports (r : Result) (host : Host) (path : String) (bytes : List Nat) :
    Prop where
  exit : r.exit = .code exitData
  output : r.output = ""
  errors : ∃ reason, Explained host bytes reason ∧
    r.errors = "Error: invalid AST file " ++ path ++ ": " ++ reason ++ "\n"
  trace : r.trace = none

/-- The run is given up at misshapen data, before anything has been said. -/
structure Result.Breaks (r : Result) (host : Host) (bytes : List Nat) : Prop where
  misshapen : ∃ d, datumOf? host bytes = some d ∧ d.Misshapen
  exit : r.exit = .escaped (.load .wrongShape) ∨ r.exit = .escaped (.load .tooLarge)
  output : r.output = ""
  errors : r.errors = ""
  trace : r.trace = none

/-- The host has no room for what is in a file with these bytes. -/
inductive Host.Overrun (host : Host) (bytes : List Nat) : Prop
  | reading {text : List Char} :
      Text.decode bytes = .ok text →
      Datum.read host.reading (Text.unixLines text) = .error .tooDeep → Overrun host bytes
  | loading {d : Datum} :
      datumOf? host bytes = some d → host.loading < Node.loadDepth d → Overrun host bytes

theorem LoadError.eq_of_message? {e : LoadError} (h : e.message? = none) :
    e = .wrongShape ∨ e = .tooLarge := by
  cases e with
  | wrongShape => exact .inl rfl
  | tooLarge => exact .inr rfl
  | _ => cases h

theorem ReadError.eq_of_message? {text : List Char} {e : Datum.ReadError}
    (h : e.message? text = none) : e = .tooDeep := by
  cases e with
  | tooDeep => rfl
  | _ => cases h

theorem reports_invalidTree {reason : Text} (h : Explained host bytes reason) :
    (invalidTree path reason).Reports host path bytes :=
  ⟨rfl, rfl, ⟨reason, h, rfl⟩, rfl⟩

theorem datumOf?_eq {text : List Char} (hdecode : Text.decode bytes = .ok text) :
    datumOf? host bytes = (Datum.read host.reading (Text.unixLines text)).toOption := by
  rw [datumOf?, hdecode]

theorem datumOf?_of_read {text : List Char} {d : Datum} (hdecode : Text.decode bytes = .ok text)
    (hread : Datum.read host.reading (Text.unixLines text) = .ok d) :
    datumOf? host bytes = some d := by
  rw [datumOf?_eq hdecode, hread]
  rfl

theorem read_of_datumOf? {d : Datum} (hd : datumOf? host bytes = some d) :
    ∃ text, Text.decode bytes = .ok text ∧
      Datum.read host.reading (Text.unixLines text) = .ok d := by
  cases hdecode : Text.decode bytes with
  | error e =>
    rw [datumOf?, hdecode] at hd
    cases hd
  | ok text =>
    rw [datumOf?_eq hdecode] at hd
    cases hread : Datum.read host.reading (Text.unixLines text) with
    | error e =>
      rw [hread] at hd
      cases hd
    | ok d' =>
      rw [hread] at hd
      cases hd
      exact ⟨text, rfl, hread⟩

theorem treeOf?_of_misshapen {d : Datum} (hd : datumOf? host bytes = some d) (h : d.Misshapen) :
    treeOf? host bytes = none := by
  rw [treeOf?, hd, Option.bind_some, Node.loadWithin]
  split_ifs
  · cases hload : Node.ofDatum d with
    | error e => rfl
    | ok n => exact absurd hload (Node.not_misshapen h [] n)
  · rfl

theorem opens_unixLines (text : List Char) :
    Datum.opens (Text.unixLines text) = Datum.opens text := by
  fun_induction Text.unixLines text with
  | case1 => rfl
  | case2 r ih | case3 r hr ih =>
    simp only [Datum.opens, List.countP_cons] at ih ⊢
    rw [ih]
    rfl
  | case4 c r hc hr ih =>
    simp only [Datum.opens, List.countP_cons] at ih ⊢
    rw [ih]

theorem Host.not_overrun {text : List Char} (hdecode : Text.decode bytes = .ok text)
    (hreading : Datum.opens text ≤ host.reading.nesting)
    (hloading : 2 * Datum.opens text + 5 ≤ host.loading) : ¬host.Overrun bytes := by
  obtain ⟨hheight, hdeep⟩ := Datum.read_spends host.reading (Text.unixLines text)
  rw [opens_unixLines] at hheight hdeep
  intro hover
  cases hover with
  | reading hdecode' hread =>
    rw [hdecode] at hdecode'
    cases hdecode'
    have := hdeep hread
    omega
  | @loading d hd hroom =>
    obtain ⟨text, hdecode', hread⟩ := read_of_datumOf? hd
    rw [hdecode] at hdecode'
    cases hdecode'
    have := hheight _ hread
    have := Node.loadDepth_le d
    omega

theorem runTreeFile_of_overrun (h : host.Overrun bytes) (setup : Setup) :
    treeOf? host bytes = none ∧ runTreeFile host setup path (.ok bytes) = tooDeep := by
  cases h with
  | reading hdecode hread =>
    constructor
    · rw [treeOf?, datumOf?_eq hdecode, hread]
      rfl
    · simp only [runTreeFile, sourceText, hdecode, parseTree, hread, Datum.ReadError.message?]
  | @loading d hd hroom =>
    obtain ⟨text, hdecode, hread⟩ := read_of_datumOf? hd
    have hwithin : Node.loadWithin host.loading d = none := if_neg (Nat.not_le.2 hroom)
    constructor
    · rw [treeOf?, hd, Option.bind_some, hwithin]
      rfl
    · simp only [runTreeFile, sourceText, hdecode, parseTree, hread, hwithin]

theorem runTreeFile_of_unread {text : List Char} {e : Datum.ReadError}
    (hdecode : Text.decode bytes = .ok text)
    (hread : Datum.read host.reading (Text.unixLines text) = .error e)
    (hroom : ¬host.Overrun bytes) (setup : Setup) :
    (runTreeFile host setup path (.ok bytes)).Reports host path bytes := by
  cases hreason : e.message? (Text.unixLines text) with
  | some reason =>
    have hresult : runTreeFile host setup path (.ok bytes) = invalidTree path reason := by
      simp only [runTreeFile, sourceText, hdecode, parseTree, hread, hreason]
    rw [hresult]
    exact reports_invalidTree (.unread hdecode hread hreason)
  | none =>
    obtain rfl := ReadError.eq_of_message? hreason
    exact absurd (.reading hdecode hread) hroom

theorem runTreeFile_of_unloaded {text : List Char} {d : Datum} {e : LoadError}
    (hdecode : Text.decode bytes = .ok text)
    (hread : Datum.read host.reading (Text.unixLines text) = .ok d)
    (hroom : Node.loadDepth d ≤ host.loading) (hload : Node.ofDatum d = .error e)
    (setup : Setup) :
    (runTreeFile host setup path (.ok bytes)).Reports host path bytes ∨
      (runTreeFile host setup path (.ok bytes)).Breaks host bytes := by
  have hd := datumOf?_of_read hdecode hread
  have hwithin : Node.loadWithin host.loading d = some (.error e) := by
    rw [← hload]
    exact if_pos hroom
  cases hreason : e.message? with
  | some reason =>
    have hresult : runTreeFile host setup path (.ok bytes) = invalidTree path reason := by
      simp only [runTreeFile, sourceText, hdecode, parseTree, hread, hwithin, hreason]
    rw [hresult]
    exact .inl (reports_invalidTree (.unloaded hd hload hreason))
  | none =>
    have hresult : runTreeFile host setup path (.ok bytes) = { exit := .escaped (.load e) } := by
      simp only [runTreeFile, sourceText, hdecode, parseTree, hread, hwithin, hreason]
    have hmisshapen : d.Misshapen := Node.blames_loadAt d [] e hload hreason
    rw [hresult]
    refine .inr ⟨⟨d, hd, hmisshapen⟩, ?_, rfl, rfl, rfl⟩
    obtain rfl | rfl := LoadError.eq_of_message? hreason
    · exact .inl rfl
    · exact .inr rfl

theorem runTreeFile_of_none (h : treeOf? host bytes = none) (hroom : ¬host.Overrun bytes)
    (setup : Setup) :
    (runTreeFile host setup path (.ok bytes)).Reports host path bytes ∨
      (runTreeFile host setup path (.ok bytes)).Breaks host bytes := by
  cases hdecode : Text.decode bytes with
  | error e =>
    have hresult : runTreeFile host setup path (.ok bytes) =
        invalidTree path (decodeMessage e) := by
      simp only [runTreeFile, sourceText, hdecode]
    rw [hresult]
    exact .inl (reports_invalidTree (.undecodable hdecode))
  | ok text =>
    cases hread : Datum.read host.reading (Text.unixLines text) with
    | error e => exact .inl (runTreeFile_of_unread hdecode hread hroom setup)
    | ok d =>
      have hd := datumOf?_of_read hdecode hread
      have hfits : Node.loadDepth d ≤ host.loading :=
        Nat.le_of_not_lt fun hlt => hroom (.loading hd hlt)
      cases hload : Node.ofDatum d with
      | ok n =>
        rw [treeOf?, hd, Option.bind_some, Node.loadWithin, if_pos hfits, hload] at h
        cases h
      | error e => exact runTreeFile_of_unloaded hdecode hread hfits hload setup

/-- A command line that asks for a tree file to be run. If there is no tree in the file, whatever
else is in it, the result is one line with the reason and the exit code for bad data; but if there
are misshapen data in it, of which there never is a tree, the run may also be given up instead,
and it always is if the host has no room. A few brackets never take too much room. -/
theorem no_tree_reported (host : Host) (now : Number) (maxCalls fuel : Nat) {i : Invocation}
    {options : Options} (hoptions : parseOptions i.arguments = .ok options)
    (hjob : options.job = .runTree path) (hread : i.folder.read path = .ok bytes) :
    let r := i.result host now maxCalls fuel
    (treeOf? host bytes = none → ¬host.Overrun bytes →
      r.Reports host path bytes ∨ r.Breaks host bytes) ∧
    (∀ d, datumOf? host bytes = some d → d.Misshapen → treeOf? host bytes = none) ∧
    (host.Overrun bytes → treeOf? host bytes = none ∧ r = tooDeep) ∧
    ∀ text, Text.decode bytes = .ok text → Datum.opens text ≤ host.reading.nesting →
      2 * Datum.opens text + 5 ≤ host.loading → ¬host.Overrun bytes := by
  intro r
  have hcontent : i.content options.job = .ok bytes := by
    rw [hjob]
    exact hread
  have hr : r = runTreeFile host ⟨settings now maxCalls options.verbosity, fuel, i.traceBlocked⟩
      path (.ok bytes) := by
    unfold r
    rw [Invocation.result_eq hoptions, hcontent, hjob]
    rfl
  rw [hr]
  exact ⟨fun hnone hroom => runTreeFile_of_none hnone hroom _, fun d => treeOf?_of_misshapen,
    fun hover => runTreeFile_of_overrun hover _, fun text => Host.not_overrun⟩

def unnumberedTree : List Char :=
  ["[\x7b\"type\":\"Print\",", "\"expression\":\x7b\"type\":\"Literal\",",
    "\"value\":\x7b\"type\":\"NUMBER\",", "\"lexeme\":\"x\",\"line\":1,",
    "\"literal\":\"abc\"\x7d\x7d\x7d]"].flatMap String.toList

theorem no_tree_reported_unnumbered :
    let bytes := Text.utf8 unnumberedTree
    let i : Invocation := ⟨⟨[(["a.json"], some bytes)]⟩, ["--ast", "a.json", "-v"], []⟩
    (∃ options, parseOptions i.arguments = .ok options ∧ options.job = .runTree "a.json") ∧
      i.folder.read "a.json" = .ok bytes ∧ treeOf? .usual bytes = none ∧
      ¬Host.usual.Overrun bytes ∧
      (i.result .usual .zero 10 100).Reports .usual "a.json" bytes := by
  intro bytes i
  have hoptions : parseOptions i.arguments = .ok { verbosity := 1, runTree := some "a.json" } := rfl
  have hread : i.folder.read "a.json" = .ok bytes := by decide +kernel
  have hnone : treeOf? .usual bytes = none := by decide +kernel
  obtain ⟨hfails, -, -, hfits⟩ := no_tree_reported .usual .zero 10 100 hoptions rfl hread
  have hroom : ¬Host.usual.Overrun bytes :=
    hfits unnumberedTree (Text.decode_utf8 _) (by decide +kernel) (by decide +kernel)
  refine ⟨⟨_, hoptions, rfl⟩, hread, hnone, hroom, ?_⟩
  obtain hreports | hbreaks := hfails hnone hroom
  · exact hreports
  · have hexit : (i.result .usual .zero 10 100).exit = .code exitData := by decide +kernel
    have hescaped := hbreaks.exit
    rw [hexit] at hescaped
    obtain hescaped | hescaped := hescaped <;> cases hescaped

def misshapenTree : List Char :=
  "[\x7b\"type\":\"Literal\",\"value\":5\x7d]".toList

/-- There is no tree, and yet the run ends without an exit code and without a word. -/
theorem no_tree_unreported_misshapen :
    let bytes := Text.utf8 misshapenTree
    let i : Invocation := ⟨⟨[(["a.json"], some bytes)]⟩, ["--ast", "a.json"], []⟩
    treeOf? .usual bytes = none ∧
      (i.result .usual .zero 10 100).exit = .escaped (.load .wrongShape) ∧
      (i.result .usual .zero 10 100).errors = "" := by
  decide +kernel

end Lox.Command
