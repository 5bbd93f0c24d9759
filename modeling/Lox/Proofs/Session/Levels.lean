import Mathlib.Data.List.Forall2
import Lox.Proofs.Machine.Whole
import Lox.Proofs.Session.Defects
import Lox.Proofs.Session.Tracing

/-!
Sessions of source texts at two verbosities. A text brings the trace no entry that its file cannot
take, so the session at the lower verbosity is, step by step, the one at the higher verbosity
without the entries above its level.
-/
namespace Lox

def Event.entry? : Event → Option Trace
  | .traced entry => some entry
  | _ => none

def Step.entries (s : Step) : List Trace := s.events.filterMap Event.entry?

/-- A step and the same step at a lower level, which differ in the entries above that level
only. -/
structure Step.Quieter (level : Nat) (low high : Step) : Prop where
  ending : low.ending = high.ending
  output : low.output = high.output
  diagnostics : low.diagnostics = high.diagnostics
  reporter : low.session.reporter = high.session.reporter
  depth : low.session.depth = high.session.depth
  globals : low.session.globals = high.session.globals
  entries : low.entries = high.entries.filter fun entry => decide (entry.level ≤ level)

theorem Step.entries_upTo (low : Settings) (step : Step) :
    (step.upTo low).entries =
      step.entries.filter fun entry => decide (entry.level ≤ low.verbosity) := by
  unfold entries upTo
  dsimp only
  rw [List.filterMap_filter, List.filter_filterMap]
  congr 1
  funext e
  cases e with
  | traced entry => simp [Event.entry?, Event.shows, Option.filter]
  | _ => rfl

theorem Step.quieter_upTo {low : Settings} {step : Step}
    (h : (step.upTo low).output = step.output) :
    Step.Quieter low.verbosity (step.upTo low) step where
  ending := rfl
  output := h
  diagnostics := diagnostics_upTo
  reporter := rfl
  depth := rfl
  globals := rfl
  entries := entries_upTo low step

/-- How a text is run: as it is, with its tokens in the trace, or so and with the diagnostics of
earlier texts forgotten. -/
inductive Manner where
  | plain
  | noted
  | prompted

structure Input where
  manner : Manner
  fuel : Nat
  text : List Char

namespace Session

def take (s : Session) (i : Input) : Step :=
  match i.manner with
  | .plain => s.runSource i.fuel i.text
  | .noted => s.runTraced i.fuel i.text
  | .prompted => s.clear.runTraced i.fuel i.text

def takeAll (s : Session) : List Input → List Step
  | [] => []
  | i :: rest => s.take i :: (s.take i).session.takeAll rest

/-- Runs a text, or rejects it, when some events have been noted. -/
def runAfter (s : Session) (fuel : Nat) (before : List Event) (text : List Char) : Step :=
  match program text with
  | .ok statements => s.run fuel before statements
  | .error r => s.reject before r

variable {low : Settings} {s : Session} {texts : List (List Char)} {text : List Char}

@[simp] theorem settings_runAfter (fuel : Nat) (before : List Event) (text : List Char) :
    (s.runAfter fuel before text).session.settings = s.settings := by
  unfold runAfter
  split
  · exact settings_run ..
  · rfl

@[simp] theorem settings_take (s : Session) (i : Input) :
    (s.take i).session.settings = s.settings := by
  unfold take
  split
  · exact settings_runAfter ..
  · exact settings_runAfter ..
  · exact settings_runAfter ..

theorem tokenEvents_filter {low high : Settings} (h : low.verbosity ≤ high.verbosity)
    (scanned : Scan) :
    (tokenEvents high scanned).filter (Event.shows low.verbosity) = tokenEvents low scanned := by
  have hshows (t : Token) :
      Event.shows low.verbosity (.traced (.token t)) = decide (4 ≤ low.verbosity) := rfl
  unfold tokenEvents
  by_cases hlow : 4 ≤ low.verbosity
  · rw [if_pos hlow, if_pos (Nat.le_trans hlow h), List.filter_eq_self]
    intro e he
    obtain ⟨t, -, rfl⟩ := List.mem_map.1 he
    rw [hshows, decide_eq_true hlow]
  · rw [if_neg hlow]
    split
    · rw [List.filter_eq_nil_iff]
      intro e he
      obtain ⟨t, -, rfl⟩ := List.mem_map.1 he
      rw [hshows, decide_eq_false hlow]
      exact Bool.false_ne_true
    · rfl

theorem reject_upTo (s : Session) (low : Settings) (before : List Event) (r : Rejection) :
    Session.reject { s with settings := low } (before.filter (Event.shows low.verbosity)) r =
      (s.reject before r).upTo low := by
  have hreported :
      (r.errors.map Event.reported).filter (Event.shows low.verbosity) =
        r.errors.map Event.reported := by
    rw [List.filter_eq_self]
    intro e he
    obtain ⟨d, -, rfl⟩ := List.mem_map.1 he
    rfl
  simp only [reject, Step.upTo, List.filter_append, hreported]

/-- A text keeps the store proper and runs at a lower verbosity as it does at a higher one: a
proper store has nothing to show that the trace file cannot take. -/
theorem runAfter_upTo (hbelow : low.Below s.settings) (htext : text ∈ texts)
    (hs : s.state.store.Proper (Scanned texts) (DeclaredIn texts)) (fuel : Nat)
    (before : List Event) :
    (s.runAfter fuel before text).session.state.store.Proper (Scanned texts) (DeclaredIn texts) ∧
      Session.runAfter { s with settings := low } fuel
          (before.filter (Event.shows low.verbosity)) text =
        (s.runAfter fuel before text).upTo low := by
  unfold runAfter
  cases hprogram : program text with
  | error r => exact ⟨hs, reject_upTo s low before r⟩
  | ok statements =>
    obtain ⟨hstore, hending⟩ :=
      run_proper fuel before (fun t => Scanned.lexeme) hs (program_proper_scanned htext hprogram)
    refine ⟨hstore, ?_⟩
    obtain hblocked | hlow := run_upTo hbelow fuel before statements
    · rw [hblocked] at hending
      exact hending.elim
    · exact hlow

theorem take_upTo {i : Input} (hbelow : low.Below s.settings) (htext : i.text ∈ texts)
    (hs : s.state.store.Proper (Scanned texts) (DeclaredIn texts)) :
    (s.take i).session.state.store.Proper (Scanned texts) (DeclaredIn texts) ∧
      Session.take { s with settings := low } i = (s.take i).upTo low := by
  have htokens := tokenEvents_filter hbelow.verbosity (scan i.text)
  unfold take
  cases i.manner with
  | plain => exact runAfter_upTo hbelow htext hs i.fuel []
  | noted =>
    have hstep := runAfter_upTo hbelow htext hs i.fuel (tokenEvents s.settings (scan i.text))
    rw [htokens] at hstep
    exact hstep
  | prompted =>
    have hclear : low.Below s.clear.settings := hbelow
    have hstep :=
      runAfter_upTo (s := s.clear) hclear htext hs i.fuel (tokenEvents s.settings (scan i.text))
    rw [htokens] at hstep
    exact hstep

theorem takeAll_upTo (hbelow : low.Below s.settings) (inputs : List Input)
    (htexts : ∀ i ∈ inputs, i.text ∈ texts)
    (hs : s.state.store.Proper (Scanned texts) (DeclaredIn texts)) :
    Session.takeAll { s with settings := low } inputs =
      (s.takeAll inputs).map (Step.upTo low) := by
  induction inputs generalizing s with
  | nil => rfl
  | cons i inputs ih =>
    obtain ⟨hstore, hstep⟩ := take_upTo hbelow (htexts i (by simp)) hs
    have hsettings : low.Below (s.take i).session.settings := by
      rw [settings_take]
      exact hbelow
    have hrest := ih hsettings (fun j hj => htexts j (by simp [hj])) hstore
    unfold takeAll
    rw [hstep, List.map_cons]
    exact congrArg _ hrest

theorem settings_takeAll {inputs : List Input} :
    ∀ step ∈ s.takeAll inputs, step.session.settings = s.settings := by
  induction inputs generalizing s with
  | nil => exact fun step hstep => nomatch hstep
  | cons i inputs ih =>
    intro step hstep
    obtain rfl | hstep := List.mem_cons.1 hstep
    · exact settings_take s i
    · exact (ih step hstep).trans (settings_take s i)

theorem takeAll_quieter {low high : Settings} (hbelow : low.Below high)
    (hfiles : high.traceFile = true ∧ (low.traceFile = true ∨ low.verbosity = 0) ∨ low = high)
    (inputs : List Input) :
    List.Forall₂ (Step.Quieter low.verbosity) (Session.takeAll { settings := low } inputs)
      (Session.takeAll { settings := high } inputs) := by
  have hmap := takeAll_upTo (s := { settings := high }) hbelow inputs
    (fun i hi => List.mem_map_of_mem hi) State.proper_initial
  have houtput : ∀ step ∈ Session.takeAll { settings := high } inputs,
      (step.upTo low).output = step.output := by
    intro step hstep
    obtain ⟨hhigh, hlow⟩ | rfl := hfiles
    · refine Step.output_upTo ?_ hlow
      rw [settings_takeAll step hstep]
      exact hhigh
    · have hsame : ∀ step ∈ Session.takeAll { settings := low } inputs, step = step.upTo low := by
        rw [← List.map_inj_left, ← hmap, List.map_id']
      rw [← hsame step hstep]
  rw [hmap, List.forall₂_map_left_iff, List.forall₂_same]
  exact fun step hstep => Step.quieter_upTo (houtput step hstep)

theorem run_written {statements : List Node} (h : Node.AllItems Token.Whole statements)
    (settings : Settings) (fuel : Nat) :
    (Session.run { settings } fuel [] statements).ending ≠ .fault (.defect .unwritableTrace) := by
  have hwhole : (Query.executeAll .nil statements).Whole := ⟨Value.whole_nil, h⟩
  have hrun := hwhole.holds settings fuel settings.maxCalls State.initial
    (State.all_initial trivial)
  change (executeAll settings fuel settings.maxCalls .nil statements
    { State.initial with log := [] }).Meets _ _ at hrun
  unfold Session.run
  dsimp only
  split
  · exact nofun
  · exact nofun
  · rename_i fault t _ hfailed
    rw [hfailed] at hrun
    exact fun hending => hrun.1 (Ending.fault.inj hending)
  · exact nofun

end Session

end Lox
