import Mathlib.Data.List.Induction
import Lox.Proofs.Grammar.Joining
import Lox.Proofs.Lexeme.Joining
import Lox.Proofs.Machine.Fuel
import Lox.Proofs.Session.Defects
import Lox.Proofs.Session.Layout
import Lox.Proofs.Session.Tracing

/-!
A session and a file agree. Texts that are accepted on their own can be run one after the other in
one session, or be put one below the other and run as one text. Both print the same, and leave the
same names behind with values that show the same; if a step fails, the one text fails at the same
place in the same way and has printed what the steps up to that one did.
-/
namespace Lox

theorem program_joined {a b : List Char} {ns ms : List Node} (ha : program a = .ok ns)
    (hb : program b = .ok ms) :
    ∃ ks, program (a ++ '\n' :: b) = .ok ks ∧
      ks.map Node.unlined = (ns ++ ms).map Node.unlined := by
  obtain ⟨hscan, hparse, rfl⟩ := program_eq_ok_iff.1 ha
  obtain ⟨hscan', hparse', rfl⟩ := program_eq_ok_iff.1 hb
  obtain ⟨herrors, htokens⟩ := scan_joined hscan hscan'
  let last := (Token.endOfFile 0).unlined
  have hunlined (text : List Char) :
      Grammar.parse Grammar.maxDepth ((scan text).tokens.map Token.unlined) last =
        (scan text).parse.unlined :=
    Grammar.parse_unlined _ _ (scan text).endToken
  have hclean {text : List Char} (h : (scan text).parse.errors = []) :
      (Grammar.parse Grammar.maxDepth ((scan text).tokens.map Token.unlined) last).errors = [] := by
    rw [hunlined, Grammar.Parse.unlined, h]
    rfl
  have happend := Grammar.parse_append rfl (hclean hparse) (hclean hparse')
  rw [← htokens, hunlined, hunlined, hunlined] at happend
  refine ⟨_, program_eq_ok_iff.2 ⟨herrors, ?_, rfl⟩, ?_⟩
  · exact List.map_eq_nil_iff.1 (congrArg Grammar.Parse.errors happend)
  · rw [List.map_append]
    exact congrArg Grammar.Parse.statements happend

def joinedText (texts : List (List Char)) : List Char := List.intercalate ['\n'] texts

/-- The statements of a text that is accepted. -/
def statementsOf (text : List Char) : List Node := (program text).toOption.getD []

theorem program_statementsOf {text : List Char} (h : ∃ statements, program text = .ok statements) :
    program text = .ok (statementsOf text) := by
  obtain ⟨statements, h⟩ := h
  rw [statementsOf, h]
  rfl

theorem program_nil : program [] = .ok [] := by
  have hscan : scan [] = ⟨[], [], 1⟩ := by
    rw [scan, Piece.all]
    rfl
  rw [program, hscan]
  rfl

theorem program_joinedText {texts : List (List Char)}
    (h : ∀ text ∈ texts, ∃ statements, program text = .ok statements) :
    ∃ ks, program (joinedText texts) = .ok ks ∧
      ks.map Node.unlined = (texts.flatMap statementsOf).map Node.unlined := by
  induction texts with
  | nil => exact ⟨[], program_nil, rfl⟩
  | cons text texts ih =>
    have htext := program_statementsOf (h text (by simp))
    obtain ⟨ks, hks, hunlined⟩ := ih fun other hother => h other (by simp [hother])
    cases texts with
    | nil => exact ⟨statementsOf text, by simpa [joinedText, List.intercalate] using htext, by simp⟩
    | cons next texts =>
      obtain ⟨js, hjs, hjoined⟩ := program_joined htext hks
      refine ⟨js, ?_, ?_⟩
      · rw [← hjs]
        rfl
      · rw [hjoined, List.map_append, hunlined, ← List.map_append, ← List.flatMap_cons]

namespace Session

def steps (s : Session) : List (Nat × List Char) → List Step
  | [] => []
  | (fuel, text) :: rest =>
    let step := s.runSource fuel text
    step :: step.session.steps rest

variable {s : Session} {inputs : List (Nat × List Char)}

theorem steps_take (k : Nat) : (s.steps inputs).take k = s.steps (inputs.take k) := by
  induction inputs generalizing s k with
  | nil => simp [steps]
  | cons input inputs ih =>
    cases k with
    | zero => rfl
    | succ k => simp [steps, ih]

theorem getElem?_steps (k : Nat) :
    (s.steps inputs)[k]? =
      (inputs[k]?).map fun input => (s.after (inputs.take k)).runSource input.1 input.2 := by
  induction inputs generalizing s k with
  | nil => simp [steps]
  | cons input inputs ih =>
    cases k with
    | zero => rfl
    | succ k => exact ih k

theorem steps_concat (input : Nat × List Char) :
    s.steps (inputs ++ [input]) =
      s.steps inputs ++ [(s.after inputs).runSource input.1 input.2] := by
  induction inputs generalizing s with
  | nil => rfl
  | cons first inputs ih => exact congrArg _ ih

theorem after_concat (input : Nat × List Char) :
    s.after (inputs ++ [input]) = ((s.after inputs).runSource input.1 input.2).session := by
  simp [after]

theorem settings_runSource (fuel : Nat) (text : List Char) :
    (s.runSource fuel text).session.settings = s.settings := by
  unfold runSource
  split
  · exact settings_run ..
  · rfl

theorem settings_after : (s.after inputs).settings = s.settings := by
  induction inputs using List.reverseRecOn with
  | nil => rfl
  | append_singleton inputs input ih => rw [after_concat, settings_runSource, ih]

theorem settings_steps {step : Step} (h : step ∈ s.steps inputs) :
    step.session.settings = s.settings := by
  induction inputs generalizing s with
  | nil => cases h
  | cons input inputs ih =>
    obtain rfl | h := List.mem_cons.1 h
    · exact settings_runSource ..
    · exact (ih h).trans (settings_runSource ..)

theorem log_runSource (hlog : s.state.log = []) (fuel : Nat) (text : List Char) :
    (s.runSource fuel text).session.state.log = [] := by
  unfold runSource
  split
  · rename_i statements _
    rw [run_eq]
    generalize executeAll s.settings fuel s.settings.maxCalls .nil statements _ = o
    cases o with
    | failed fault t => cases fault <;> rfl
    | _ => rfl
  · exact hlog

theorem log_after (hlog : s.state.log = []) : (s.after inputs).state.log = [] := by
  induction inputs using List.reverseRecOn with
  | nil => exact hlog
  | append_singleton inputs input ih =>
    rw [after_concat]
    exact log_runSource ih input.1 input.2

theorem runSource_runs (fuel : Nat) {text : List Char}
    (haccepted : ∃ statements, program text = .ok statements) (hlog : s.state.log = [])
    (hend : (s.runSource fuel text).ending ≠ .outOfFuel) :
    ∃ o, Runs s.settings s.settings.maxCalls .nil (statementsOf text) s.state o ∧
      s.runSource fuel text = s.ended [] o := by
  have hclear : { s.state with log := [] } = s.state := by rw [← hlog]
  unfold runSource at hend ⊢
  rw [program_statementsOf haccepted] at hend ⊢
  dsimp only at hend ⊢
  rw [run_eq, hclear] at hend ⊢
  refine ⟨_, runs_of_executeAll fuel rfl ?_, rfl⟩
  intro hout
  rw [hout] at hend
  exact hend rfl

end Session

theorem Runs.unlined {settings : Settings} {calls : Nat} {last : Value} {ns : List Node} {s : State}
    {o : Outcome Value} (h : Runs settings calls last ns s o) (earlier : List Event) :
    Runs settings calls last.unlined (ns.map Node.unlined) (s.unlined earlier)
      (o.unlined Value.unlined earlier) := by
  obtain ⟨ho, enough, h⟩ := h
  refine runs_of_executeAll enough ?_ ?_
  · have hrun := (Query.executeAll last ns).unlines settings enough calls earlier s
    simp only [Query.unlined, Query.run, Node.unlinedAll_eq, h enough (Nat.le_refl _)] at hrun
    exact hrun
  · cases o with
    | outOfFuel => exact absurd rfl ho
    | _ => simp [Outcome.unlined]

/-- What steps have noted, without lines and the latest first. -/
def retold (steps : List Step) : List Event :=
  ((steps.flatMap Step.events).map Event.unlined).reverse

theorem retold_concat (steps : List Step) (step : Step) :
    retold (steps ++ [step]) = (step.events.map Event.unlined).reverse ++ retold steps := by
  simp [retold]

namespace Session

variable {s : Session} {inputs : List (Nat × List Char)}

theorem unlined_ended_done (v : Value) (t : State) (steps : List Step) :
    (s.ended [] (.done v t)).session.state.unlined (retold (steps ++ [s.ended [] (.done v t)])) =
      t.unlined (retold steps) := by
  rw [retold_concat]
  simp [ended, State.unlined]

/-- The statements of all texts, run in one go and without lines, come to where the session comes
to, if all its steps end with a value. -/
theorem steps_runs (hlog : s.state.log = [])
    (haccepted : ∀ input ∈ inputs, ∃ statements, program input.2 = .ok statements)
    (hvalues : ∀ step ∈ s.steps inputs, ∃ v, step.ending = .value v) :
    ∃ w, Runs s.settings s.settings.maxCalls .nil
        ((inputs.flatMap fun input => statementsOf input.2).map Node.unlined) (s.state.unlined [])
        (Outcome.unlined Value.unlined (retold (s.steps inputs))
          (.done w (s.after inputs).state)) ∧
      ∀ input ∈ inputs.getLast?, statementsOf input.2 ≠ [] →
        ∃ step ∈ (s.steps inputs).getLast?, step.ending = .value w := by
  -- From the back: what the last text notes stands behind all that the session noted before.
  induction inputs using List.reverseRecOn with
  | nil => exact ⟨.nil, .nil, nofun⟩
  | append_singleton inputs input ih =>
    rw [steps_concat] at hvalues ⊢
    obtain ⟨w, hearlier, -⟩ := ih (fun other h => haccepted other (by simp [h]))
      (fun step h => hvalues step (by simp [h]))
    obtain ⟨v, hv⟩ := hvalues ((s.after inputs).runSource input.1 input.2) (by simp)
    obtain ⟨o, ho, hstep⟩ := runSource_runs (s := s.after inputs) input.1
      (haccepted input (by simp)) (log_after hlog) (by rw [hv]; exact nofun)
    rw [hstep] at hv
    obtain ⟨t, rfl⟩ := ended_value hv
    rw [settings_after] at ho
    have hstate (x : Value) :
        Outcome.unlined Value.unlined (retold (s.steps inputs ++ [(s.after inputs).runSource
          input.1 input.2])) (.done x (s.after (inputs ++ [input])).state) =
        .done x.unlined (t.unlined (retold (s.steps inputs))) := by
      rw [after_concat, hstep, Outcome.unlined, unlined_ended_done]
    simp only [hstate, List.flatMap_append, List.map_append]
    obtain ⟨hnone, hlast⟩ | ⟨-, hlast⟩ :=
      (ho.unlined (retold (s.steps inputs))).with_last w.unlined
    · -- a text without statements leaves the value of those before it
      refine ⟨w, hearlier.append (by simpa using hlast), fun last hinput hne => ?_⟩
      obtain rfl : input = last := by simpa using hinput
      exact absurd (List.map_eq_nil_iff.1 hnone) hne
    · exact ⟨v, hearlier.append (by simpa using hlast), fun _ _ _ => ⟨_, by simp, hstep ▸ hv⟩⟩

theorem steps_runs_failed (hlog : s.state.log = []) {input : Nat × List Char} {e : RuntimeError}
    (haccepted : ∀ other ∈ inputs ++ [input], ∃ statements, program other.2 = .ok statements)
    (hvalues : ∀ step ∈ s.steps inputs, ∃ v, step.ending = .value v)
    (herror : ((s.after inputs).runSource input.1 input.2).ending = .fault (.error e))
    (rest : List (Nat × List Char)) :
    ∃ t, (s.after inputs).runSource input.1 input.2 =
        (s.after inputs).ended [] (.failed (.error e) t) ∧
      Runs s.settings s.settings.maxCalls .nil
        (((inputs ++ input :: rest).flatMap fun input => statementsOf input.2).map Node.unlined)
        (s.state.unlined [])
        (Outcome.unlined Value.unlined (retold (s.steps inputs)) (.failed (.error e) t)) := by
  obtain ⟨w, hearlier, -⟩ :=
    steps_runs hlog (fun other h => haccepted other (by simp [h])) hvalues
  obtain ⟨o, ho, hstep⟩ := runSource_runs (s := s.after inputs) input.1
    (haccepted input (by simp)) (log_after hlog) (by rw [herror]; exact nofun)
  rw [hstep] at herror
  obtain ⟨t, rfl⟩ := ended_fault herror
  rw [settings_after] at ho
  refine ⟨t, hstep, ?_⟩
  rw [List.flatMap_append, List.flatMap_cons, List.map_append, List.map_append]
  refine hearlier.append (Runs.append_failed ?_ _)
  exact (ho.unlined (retold (s.steps inputs))).failed_with_last w.unlined

/-- With enough fuel the joined texts come, up to lines, to what their statements come to. -/
theorem runSource_joinedText (settings : Settings)
    (haccepted : ∀ input ∈ inputs, ∃ statements, program input.2 = .ok statements)
    {o : Outcome Value}
    (h : Runs settings settings.maxCalls .nil
      ((inputs.flatMap fun input => statementsOf input.2).map Node.unlined)
      (State.initial.unlined []) o) :
    ∃ enough, ∀ fuel ≥ enough, ∃ o',
      Session.runSource { settings } fuel (joinedText (inputs.map Prod.snd)) =
        Session.ended { settings } [] o' ∧ o'.unlined Value.unlined [] = o := by
  have htexts : ∀ text ∈ inputs.map Prod.snd, ∃ statements, program text = .ok statements := by
    intro text htext
    obtain ⟨input, hinput, rfl⟩ := List.mem_map.1 htext
    exact haccepted input hinput
  obtain ⟨ks, hks, hunlined⟩ := program_joinedText htexts
  rw [List.flatMap_map, ← Node.unlinedAll_eq] at hunlined
  rw [← hunlined] at h
  obtain ⟨-, enough, h⟩ := h
  refine ⟨enough, fun fuel hfuel => ?_⟩
  have hrun := (Query.executeAll .nil ks).unlines settings fuel settings.maxCalls [] State.initial
  refine ⟨_, ?_, hrun.symm.trans (h fuel hfuel)⟩
  unfold runSource
  rw [hks]
  exact run_eq ..

end Session

theorem Session.ended_retold (s : Session) {o u : Outcome Value} {earlier : List Event}
    (h : o.unlined Value.unlined [] = u.unlined Value.unlined earlier) (hu : u ≠ .outOfFuel) :
    (s.ended [] o).ending.Alike (s.ended [] u).ending ∧
      BindingsAlike (s.ended [] o).session.globals (s.ended [] u).session.globals ∧
      (s.ended [] o).events.map Event.unlined =
        earlier.reverse ++ (s.ended [] u).events.map Event.unlined := by
  have hending := s.ending_ended_unlined o []
  have hstore := s.store_ended_unlined o []
  have hevents := s.events_ended_unlined o (.inr (Eq.refl []))
  rw [h, ending_ended_unlined] at hending
  rw [h, store_ended_unlined] at hstore
  rw [h, events_ended_unlined _ _ (.inl hu)] at hevents
  refine ⟨Ending.alike_of_unlined hending.symm, ?_, hevents.symm⟩
  have hbindings := congrArg (Store.bindings · 0) hstore
  simp only [Store.bindings_unlined] at hbindings
  exact bindingsAlike_of_unlined hbindings.symm

theorem Step.output_retold {run : Step} {steps : List Step}
    (hsettings : ∀ step ∈ steps, step.session.settings = run.session.settings)
    (h : run.events.map Event.unlined = (steps.flatMap Step.events).map Event.unlined) :
    run.output = Text.join (steps.map Step.output) := by
  apply Text.eq_of_points
  unfold Step.output
  rw [(written_of_unlined run.session.settings.traceFile h).1, Text.points_join, Text.points_join]
  clear h
  induction steps with
  | nil => rfl
  | cons step steps ih =>
    rw [List.flatMap_cons, List.map_append, List.flatMap_append,
      ih fun other hother => hsettings other (by simp [hother]), List.map_cons, List.flatMap_cons,
      Text.points_join, hsettings step (by simp)]

theorem Session.steps_value {s : Session} {inputs : List (Nat × List Char)}
    {texts : List (List Char)}
    (haccepted : ∀ input ∈ inputs, input.2 ∈ texts ∧ ∃ statements, program input.2 = .ok statements)
    (hs : s.state.store.Proper (Scanned texts) (DeclaredIn texts)) {step : Step}
    (h : step ∈ s.steps inputs) (hend : step.ending ≠ .outOfFuel)
    (herror : ∀ e, step.ending ≠ .fault (.error e)) : ∃ v, step.ending = .value v := by
  induction inputs generalizing s with
  | nil => cases h
  | cons input inputs ih =>
    obtain ⟨htext, hprogram⟩ := haccepted input (by simp)
    obtain ⟨hstore, hdefined⟩ := runSource_proper input.1 htext hprogram hs
    obtain rfl | h := List.mem_cons.1 h
    · generalize (s.runSource input.1 input.2).ending = ending at hend herror hdefined
      cases ending with
      | value v => exact ⟨v, rfl⟩
      | rejected stage => exact hdefined.elim
      | fault f =>
        cases f with
        | error e => exact absurd rfl (herror e)
        | defect d => exact hdefined.elim
      | outOfFuel => exact absurd rfl hend
    · exact ih (fun other hother => haccepted other (by simp [hother])) hstore h

/-- If all steps have values, the joined texts print what the steps print, leave behind what the
last one does, and have its value. -/
theorem Session.joined_of_values (settings : Settings) {inputs : List (Nat × List Char)}
    (haccepted : ∀ input ∈ inputs, ∃ statements, program input.2 = .ok statements)
    (hvalues : ∀ step ∈ Session.steps { settings } inputs, ∃ v, step.ending = .value v) :
    ∃ enough, ∀ fuel ≥ enough,
      let joined := Session.runSource { settings } fuel (joinedText (inputs.map Prod.snd))
      joined.output = Text.join ((Session.steps { settings } inputs).map Step.output) ∧
      BindingsAlike joined.session.globals (Session.after { settings } inputs).globals ∧
      ∃ v, joined.ending = .value v ∧
        ∀ input ∈ inputs.getLast?, program input.2 ≠ .ok [] →
          ∃ step ∈ (Session.steps { settings } inputs).getLast?, ∃ w,
            step.ending = .value w ∧ v.Alike w := by
  let start : Session := { settings }
  obtain ⟨w, hruns, hw⟩ := steps_runs (s := start) rfl haccepted hvalues
  obtain ⟨enough, hjoined⟩ := runSource_joinedText settings haccepted hruns
  refine ⟨enough, fun fuel hfuel => ?_⟩
  intro joined
  obtain ⟨o, hrun, ho⟩ := hjoined fuel hfuel
  obtain ⟨hending, hglobals, hevents⟩ := start.ended_retold ho nofun
  have hrun : joined = start.ended [] o := hrun
  rw [hrun]
  refine ⟨?_, hglobals, ?_⟩
  · apply Step.output_retold
    · intro step hstep
      rw [settings_steps hstep, settings_ended]
    · have hafter : (start.after inputs).state.log = [] := log_after rfl
      have hnone : (start.ended [] (.done w (start.after inputs).state)).events = [] := by
        simp [ended, hafter]
      rw [hevents, hnone, retold, List.reverse_reverse, List.map_nil, List.append_nil]
  · change (start.ended [] o).ending.Alike (.value w) at hending
    generalize (start.ended [] o).ending = ending at hending
    cases hending with
    | @value v _ hvw =>
      refine ⟨v, rfl, fun input hinput hne => ?_⟩
      have hprogram := program_statementsOf (haccepted input (List.mem_of_getLast? hinput))
      obtain ⟨step, hstep, hv⟩ := hw input hinput fun hnil => hne (hnil ▸ hprogram)
      exact ⟨step, hstep, w, hv, hvw⟩

/-- If a step fails after steps with values, the joined texts print what the steps so far print,
fail in the same way and leave behind what that step does. -/
theorem Session.joined_of_error (settings : Settings) {inputs : List (Nat × List Char)}
    (haccepted : ∀ input ∈ inputs, ∃ statements, program input.2 = .ok statements) {k : Nat}
    {step : Step} {e : RuntimeError} (hstep : (Session.steps { settings } inputs)[k]? = some step)
    (herror : step.ending = .fault (.error e))
    (hvalues : ∀ earlier ∈ (Session.steps { settings } inputs).take k,
      ∃ v, earlier.ending = .value v) :
    ∃ enough, ∀ fuel ≥ enough,
      let joined := Session.runSource { settings } fuel (joinedText (inputs.map Prod.snd))
      joined.output =
        Text.join (((Session.steps { settings } inputs).take (k + 1)).map Step.output) ∧
      BindingsAlike joined.session.globals step.session.globals ∧
      ∃ t, joined.ending = .fault (.error ⟨t, e.cause⟩) ∧ t.Alike e.token := by
  let start : Session := { settings }
  rw [getElem?_steps] at hstep
  obtain ⟨input, hinput, rfl⟩ := Option.map_eq_some_iff.1 hstep
  obtain ⟨hlt, rfl⟩ := List.getElem?_eq_some_iff.1 hinput
  -- the texts behind the failing one are part of the joined text, but are not reached in it
  have hsplit : inputs = inputs.take k ++ inputs[k] :: inputs.drop (k + 1) := by simp
  have hupTo : ∀ other ∈ inputs.take k ++ [inputs[k]],
      ∃ statements, program other.2 = .ok statements := by
    rw [List.take_append_getElem]
    exact fun other h => haccepted other (List.mem_of_mem_take h)
  rw [steps_take] at hvalues
  obtain ⟨t, hfailed, hruns⟩ :=
    steps_runs_failed (s := start) rfl hupTo hvalues herror (inputs.drop (k + 1))
  rw [← hsplit] at hruns
  obtain ⟨enough, hjoined⟩ := runSource_joinedText settings haccepted hruns
  refine ⟨enough, fun fuel hfuel => ?_⟩
  intro joined
  obtain ⟨o, hrun, ho⟩ := hjoined fuel hfuel
  obtain ⟨hending, hglobals, hevents⟩ := start.ended_retold ho nofun
  have hrun : joined = start.ended [] o := hrun
  rw [hrun, hfailed]
  refine ⟨?_, hglobals, ?_⟩
  · rw [steps_take]
    apply Step.output_retold
    · intro step hstep
      rw [settings_steps hstep, settings_ended]
    · rw [hevents, ← List.take_append_getElem hlt, steps_concat, hfailed]
      simp only [retold, List.reverse_reverse, List.flatMap_append, List.flatMap_singleton,
        List.map_append]
      rfl
  · change (start.ended [] o).ending.Alike (.fault (.error e)) at hending
    generalize (start.ended [] o).ending = ending at hending
    cases hending with
    | @error t _ _ htoken => exact ⟨t, rfl, htoken⟩

/-- Accepted texts whose steps end, run one after the other in a session and, with enough fuel, as
one text: without an error both print the same, leave the same behind and have the same value, and
at the first error the one text fails as the step does. -/
theorem Session.steps_agree_joined (settings : Settings) (inputs : List (Nat × List Char))
    (haccepted : ∀ input ∈ inputs, ∃ statements, program input.2 = .ok statements)
    (hends : ∀ step ∈ Session.steps { settings } inputs, step.ending ≠ .outOfFuel) :
    let steps := Session.steps { settings } inputs
    let joined (fuel : Nat) :=
      Session.runSource { settings } fuel (joinedText (inputs.map Prod.snd))
    ((∀ step ∈ steps, ∀ e, step.ending ≠ .fault (.error e)) →
      ∃ enough, ∀ fuel ≥ enough,
        (joined fuel).output = Text.join (steps.map Step.output) ∧
        BindingsAlike (joined fuel).session.globals (Session.after { settings } inputs).globals ∧
        ∃ v, (joined fuel).ending = .value v ∧
          ∀ input ∈ inputs.getLast?, program input.2 ≠ .ok [] →
            ∃ step ∈ steps.getLast?, ∃ w, step.ending = .value w ∧ v.Alike w) ∧
    ∀ k step e, steps[k]? = some step → step.ending = .fault (.error e) →
      (∀ earlier ∈ steps.take k, ∀ e', earlier.ending ≠ .fault (.error e')) →
      ∃ enough, ∀ fuel ≥ enough,
        (joined fuel).output = Text.join ((steps.take (k + 1)).map Step.output) ∧
        BindingsAlike (joined fuel).session.globals step.session.globals ∧
        ∃ t, (joined fuel).ending = .fault (.error ⟨t, e.cause⟩) ∧ t.Alike e.token := by
  intro steps joined
  have htexts (input : Nat × List Char) (h : input ∈ inputs) :
      input.2 ∈ inputs.map Prod.snd ∧ ∃ statements, program input.2 = .ok statements :=
    ⟨List.mem_map_of_mem h, haccepted input h⟩
  have hvalue (step : Step) (h : step ∈ steps) (herror : ∀ e, step.ending ≠ .fault (.error e)) :
      ∃ v, step.ending = .value v :=
    steps_value htexts State.proper_initial h (hends step h) herror
  constructor
  · intro hclean
    exact joined_of_values settings haccepted fun step h => hvalue step h (hclean step h)
  · intro k step e hstep herror hfirst
    exact joined_of_error settings haccepted hstep herror fun earlier h =>
      hvalue earlier (List.mem_of_mem_take h) (hfirst earlier h)

def Ending.isValue : Ending → Bool
  | .value _ => true
  | _ => false

def Ending.isError : Ending → Bool
  | .fault (.error _) => true
  | _ => false

theorem Ending.exists_of_isError {ending : Ending} (h : ending.isError = true) :
    ∃ e, ending = .fault (.error e) := by
  cases ending with
  | fault f =>
    cases f with
    | error e => exact ⟨e, rfl⟩
    | defect d => cases h
  | _ => cases h

/-- A function is declared in one text and called in the next; then a step fails, and the text
after it is not reached. -/
theorem Session.steps_agree_joined_failing :
    let declare := "var a = 1; fun f(x) \x7b print a + x; \x7d".toList
    let call := "f(2); a;".toList
    let fail := "print a; // not\nb = a;".toList
    let settings : Settings := ⟨3, .zero, 10, true⟩
    let inputs := [(50, declare), (50, call), (50, fail), (50, call)]
    let steps := Session.steps { settings } inputs
    (∀ input ∈ inputs, ∃ statements, program input.2 = .ok statements) ∧
      (∀ step ∈ steps, step.ending ≠ .outOfFuel) ∧
      ∃ step e, steps[2]? = some step ∧ step.ending = .fault (.error e) ∧
        ∃ enough, ∀ fuel ≥ enough,
          (Session.runSource { settings } fuel (joinedText (inputs.map Prod.snd))).output =
            Text.join ((steps.take 3).map Step.output) := by
  intro declare call fail settings inputs steps
  have haccepted : ∀ input ∈ inputs, ∃ statements, program input.2 = .ok statements := by
    have hall : ∀ input ∈ inputs, (program input.2).toOption.isSome = true := by decide +kernel
    exact fun input hinput => exists_program (hall input hinput)
  have hends : ∀ step ∈ steps, step.ending ≠ .outOfFuel := by
    have hall : ∀ step ∈ steps, (step.ending.isValue || step.ending.isError) = true := by
      decide +kernel
    intro step hstep hout
    have hstep := hall step hstep
    rw [hout] at hstep
    cases hstep
  have hfirst : ∀ step ∈ steps.take 2, ∀ e, step.ending ≠ .fault (.error e) := by
    have hall : ∀ step ∈ steps.take 2, step.ending.isValue = true := by decide +kernel
    intro step hstep e herror
    have hstep := hall step hstep
    rw [herror] at hstep
    cases hstep
  have hfails : steps[2].ending.isError = true := by decide +kernel
  obtain ⟨e, herror⟩ := Ending.exists_of_isError hfails
  obtain ⟨enough, h⟩ :=
    (steps_agree_joined settings inputs haccepted hends).2 2 steps[2] e rfl herror hfirst
  exact ⟨haccepted, hends, steps[2], e, rfl, herror, enough, fun fuel hfuel => (h fuel hfuel).1⟩

end Lox
