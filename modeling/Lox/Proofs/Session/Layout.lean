import Mathlib.Data.List.Forall2
import Lox.Proofs.Grammar.Lines
import Lox.Proofs.Machine.Lines
import Lox.Session

/-!
Layout does not matter. Two texts with the same tokens on whatever lines parse to the same tree up
to lines, with the same diagnostics up to lines, and their runs show the same: output, trace, the
way they end, and the names and values that they leave behind.
-/
namespace Lox

inductive Ending.Alike : Ending → Ending → Prop where
  | value {v w : Value} : v.Alike w → Alike (.value v) (.value w)
  | rejected {stage : Stage} : Alike (.rejected stage) (.rejected stage)
  | error {s t : Token} {cause : Cause} : s.Alike t →
      Alike (.fault (.error ⟨s, cause⟩)) (.fault (.error ⟨t, cause⟩))
  | defect {d : Defect} : Alike (.fault (.defect d)) (.fault (.defect d))
  | outOfFuel : Alike .outOfFuel .outOfFuel

/-- Bindings of the same names, in the same order, to values that show the same. -/
def BindingsAlike : List (Name × Value) → List (Name × Value) → Prop :=
  List.Forall₂ fun b c => b.1 = c.1 ∧ b.2.Alike c.2

/-- Two steps that differ in lines only. -/
structure Step.Alike (s t : Step) : Prop where
  output : s.output = t.output
  trace : s.trace = t.trace
  ending : s.ending.Alike t.ending
  globals : BindingsAlike s.session.globals t.session.globals

theorem map_eq_map_iff_forall₂ {α β : Type} {f : α → β} {l l' : List α} :
    l.map f = l'.map f ↔ List.Forall₂ (fun a b => f a = f b) l l' := by
  rw [← List.forall₂_eq_eq_eq, List.forall₂_map_left_iff, List.forall₂_map_right_iff]

theorem bindingsAlike_of_unlined {bs cs : List (Name × Value)}
    (h : Frame.unlinedBindings bs = Frame.unlinedBindings cs) : BindingsAlike bs cs := by
  apply (map_eq_map_iff_forall₂.1 h).imp
  intro b c hbc
  injection hbc with hname hvalue
  exact ⟨hname, Value.alike_of_unlined hvalue⟩

theorem written_of_unlined {es fs : List Event} (traceFile : Bool)
    (h : es.map Event.unlined = fs.map Event.unlined) :
    es.map (Event.output traceFile) = fs.map (Event.output traceFile) ∧
      es.map (Event.trace traceFile) = fs.map (Event.trace traceFile) := by
  have houtput := congrArg (List.map (Event.output traceFile)) h
  have htrace := congrArg (List.map (Event.trace traceFile)) h
  simp only [List.map_map, Function.comp_def, Event.output_unlined, Event.trace_unlined]
    at houtput htrace
  exact ⟨houtput, htrace⟩

theorem Step.alike_of_unlined {s t : Step} (hsettings : s.session.settings = t.session.settings)
    (hevents : s.events.map Event.unlined = t.events.map Event.unlined)
    (hstore : s.session.state.store.unlined = t.session.state.store.unlined)
    (hending : s.ending.Alike t.ending) : s.Alike t := by
  obtain ⟨houtput, htrace⟩ := written_of_unlined t.session.settings.traceFile hevents
  refine ⟨?_, ?_, hending, ?_⟩
  · rw [Step.output, hsettings, houtput]
    rfl
  · rw [Step.trace, hsettings, htrace]
    rfl
  · have hbindings := congrArg (Store.bindings · 0) hstore
    simp only [Store.bindings_unlined] at hbindings
    exact bindingsAlike_of_unlined hbindings

def Session.ended (s : Session) (before : List Event) : Outcome Value → Step
  | .done v state =>
    ⟨⟨s.settings, { state with log := [] }, s.reporter⟩, before ++ state.log.reverse, .value v⟩
  | .failed (.error e) state =>
    let d := Diagnostic.atToken e.token e.cause.message
    ⟨⟨s.settings, { state with log := [] }, s.reporter.report [d]⟩,
      before ++ (Event.reported d :: state.log).reverse, .fault (.error e)⟩
  | .failed fault state =>
    ⟨⟨s.settings, { state with log := [] }, s.reporter⟩, before ++ state.log.reverse,
      .fault fault⟩
  | .outOfFuel => ⟨⟨s.settings, State.initial, s.reporter⟩, before, .outOfFuel⟩

theorem Session.run_eq (s : Session) (fuel : Nat) (before : List Event) (statements : List Node) :
    s.run fuel before statements = s.ended before
      (executeAll s.settings fuel s.settings.maxCalls .nil statements
        { s.state with log := [] }) := by
  obtain ⟨settings, state, reporter⟩ := s
  unfold Session.run
  dsimp only [Session.settings, Session.state]
  cases executeAll settings fuel settings.maxCalls .nil statements { state with log := [] } with
  | done v t => rfl
  | failed fault t => cases fault <;> rfl
  | outOfFuel => rfl

theorem Session.ended_value {s : Session} {before : List Event} {o : Outcome Value} {v : Value}
    (h : (s.ended before o).ending = .value v) :
    ∃ t, o = .done v t := by
  cases o with
  | done w t =>
    cases h
    exact ⟨t, rfl⟩
  | failed fault t => cases fault <;> cases h
  | outOfFuel => cases h

theorem Session.ended_fault {s : Session} {before : List Event} {o : Outcome Value} {fault : Fault}
    (h : (s.ended before o).ending = .fault fault) : ∃ t, o = .failed fault t := by
  cases o with
  | done w t => cases h
  | failed other t =>
    cases other <;> cases h
    · exact ⟨t, rfl⟩
    · exact ⟨t, rfl⟩
  | outOfFuel => cases h

def Ending.unlined : Ending → Ending
  | .value v => .value v.unlined
  | .fault f => .fault f.unlined
  | ending => ending

theorem Ending.alike_of_unlined {a b : Ending} (h : a.unlined = b.unlined) : a.Alike b := by
  cases a with
  | value v =>
    cases b with
    | value w =>
      injection h with h
      exact .value (Value.alike_of_unlined h)
    | _ => cases h
  | rejected stage =>
    cases b with
    | rejected stage' =>
      cases h
      exact .rejected
    | _ => cases h
  | fault f =>
    cases b with
    | fault f' =>
      injection h with h
      cases f with
      | error e =>
        cases f' with
        | error e' =>
          obtain ⟨t, cause⟩ := e
          obtain ⟨t', cause'⟩ := e'
          injection h with h
          injection h with htoken hcause
          subst hcause
          exact .error (Token.alike_of_unlined htoken)
        | defect d => cases h
      | defect d =>
        cases f' with
        | error e => cases h
        | defect d' =>
          cases h
          exact .defect
    | _ => cases h
  | outOfFuel =>
    cases b with
    | outOfFuel => exact .outOfFuel
    | _ => cases h

namespace Session

variable (s : Session) (o : Outcome Value)

theorem settings_ended (before : List Event) :
    (s.ended before o).session.settings = s.settings := by
  cases o with
  | failed fault t => cases fault <;> rfl
  | _ => rfl

theorem ending_ended_unlined (earlier : List Event) :
    (s.ended [] (o.unlined Value.unlined earlier)).ending = (s.ended [] o).ending.unlined := by
  cases o with
  | failed fault t => cases fault <;> rfl
  | _ => rfl

theorem store_ended_unlined (earlier : List Event) :
    (s.ended [] (o.unlined Value.unlined earlier)).session.state.store =
      (s.ended [] o).session.state.store.unlined := by
  cases o with
  | failed fault t => cases fault <;> rfl
  | done v t => rfl
  | outOfFuel => exact (congrArg State.store State.initial_unlined).symm

theorem events_ended_unlined {earlier : List Event} (h : o ≠ .outOfFuel ∨ earlier = []) :
    (s.ended [] (o.unlined Value.unlined earlier)).events =
      earlier.reverse ++ (s.ended [] o).events.map Event.unlined := by
  cases o with
  | done v t => simp [ended, Outcome.unlined, State.unlined]
  | failed fault t =>
    cases fault with
    | error e =>
      simp [ended, Outcome.unlined, State.unlined, Fault.unlined]
      rfl
    | defect d => simp [ended, Outcome.unlined, State.unlined, Fault.unlined]
  | outOfFuel =>
    obtain h | rfl := h
    · exact absurd rfl h
    · rfl

end Session

theorem Session.run_alike (settings : Settings) (fuel : Nat) {ns ms : List Node}
    (h : ns.map Node.unlined = ms.map Node.unlined) :
    (Session.run { settings } fuel [] ns).Alike (Session.run { settings } fuel [] ms) := by
  have hns := (Query.executeAll .nil ns).unlines settings fuel settings.maxCalls [] State.initial
  have hms := (Query.executeAll .nil ms).unlines settings fuel settings.maxCalls [] State.initial
  simp only [Query.unlined, Node.unlinedAll_eq] at hns hms
  rw [h, hms] at hns
  rw [run_eq, run_eq]
  let s : Session := { settings }
  let o := executeAll settings fuel settings.maxCalls .nil ns State.initial
  let o' := executeAll settings fuel settings.maxCalls .nil ms State.initial
  have hsame : o'.unlined Value.unlined [] = o.unlined Value.unlined [] := hns
  have hevents := s.events_ended_unlined o (.inr rfl)
  have hstore := s.store_ended_unlined o []
  have hending := s.ending_ended_unlined o []
  rw [← hsame, events_ended_unlined _ _ (.inr rfl)] at hevents
  rw [← hsame, store_ended_unlined] at hstore
  rw [← hsame, ending_ended_unlined] at hending
  have hsettings := (s.settings_ended o []).trans (s.settings_ended o' []).symm
  exact Step.alike_of_unlined hsettings hevents.symm hstore.symm
    (Ending.alike_of_unlined hending.symm)

theorem Token.unlined_of_alike {l m : Lexeme} (h : l.token.Alike m.token) :
    l.token.unlined = m.token.unlined := by
  obtain ⟨hkind, hlexeme, hliteral⟩ := h
  unfold Token.unlined
  rw [hkind, hlexeme, hliteral]
  rfl

theorem Scan.parse_unlined {s t : Scan} (h : List.Forall₂ Token.Alike s.tokens t.tokens) :
    s.parse.unlined = t.parse.unlined := by
  have htokens : s.tokens.map Token.unlined = t.tokens.map Token.unlined := by
    unfold Scan.tokens at h ⊢
    rw [List.forall₂_map_left_iff, List.forall₂_map_right_iff] at h
    rw [List.map_map, List.map_map, map_eq_map_iff_forall₂]
    exact h.imp fun l m => Token.unlined_of_alike
  unfold Scan.parse
  rw [← Grammar.parse_unlined, ← Grammar.parse_unlined, htokens]
  rfl

/-- Two texts with the same tokens, on whatever lines: the one is rejected if the other is, with
the same diagnostics up to lines and the same tree up to lines, and otherwise they run alike. -/
theorem layout_independence (a b : List Char) (ha : (scan a).errors = [])
    (hb : (scan b).errors = []) (h : List.Forall₂ Token.Alike (scan a).tokens (scan b).tokens) :
    let p := (scan a).parse
    let q := (scan b).parse
    p.errors.isEmpty = q.errors.isEmpty ∧
      p.errors.map (·.diagnostic.unlined) = q.errors.map (·.diagnostic.unlined) ∧
      p.statements.map Node.unlined = q.statements.map Node.unlined ∧
      (p.errors = [] → ∀ settings fuel,
        (Session.runSource { settings } fuel a).Alike (Session.runSource { settings } fuel b)) := by
  intro p q
  have hparse : p.unlined = q.unlined := Scan.parse_unlined h
  have herrors : p.errors.map SyntaxError.unlined = q.errors.map SyntaxError.unlined :=
    congrArg Grammar.Parse.errors hparse
  have hstatements : p.statements.map Node.unlined = q.statements.map Node.unlined :=
    congrArg Grammar.Parse.statements hparse
  have hempty : p.errors.isEmpty = q.errors.isEmpty := by
    have := congrArg List.isEmpty herrors
    simpa using this
  refine ⟨hempty, ?_, hstatements, ?_⟩
  · have hdiagnostics := congrArg (List.map SyntaxError.diagnostic) herrors
    simpa only [List.map_map, Function.comp_def, SyntaxError.diagnostic_unlined] using hdiagnostics
  · intro hp settings fuel
    have haccepted {text : List Char} (hscan : (scan text).errors = [])
        (hclean : (scan text).parse.errors.isEmpty = true) :
        program text = .ok (scan text).parse.statements := by
      simp [program, Scan.program, hscan, hclean]
    have hp : p.errors.isEmpty = true := List.isEmpty_iff.2 hp
    unfold Session.runSource
    rw [haccepted ha hp, haccepted hb (hempty ▸ hp)]
    exact Session.run_alike settings fuel hstatements

/-- A function and a failing call, on one line and spread out over several. -/
theorem layout_independence_spread :
    let a := "fun f(x) \x7b print x; y; \x7d f(1);".toList
    let b := "fun f ( x )\n\x7b // shows\n print x;\ty; \x7d\n\nf(1) ;\n".toList
    (scan a).errors = [] ∧ (scan b).errors = [] ∧
      List.Forall₂ Token.Alike (scan a).tokens (scan b).tokens ∧ (scan a).parse.errors = [] ∧
      (Session.runSource { settings := ⟨3, .zero, 10, true⟩ } 50 a).Alike
        (Session.runSource { settings := ⟨3, .zero, 10, true⟩ } 50 b) := by
  intro a b
  have ha : (scan a).errors = [] := by decide +kernel
  have hb : (scan b).errors = [] := by decide +kernel
  have hp : (scan a).parse.errors = [] := by decide +kernel
  have htokens : List.Forall₂ Token.Alike (scan a).tokens (scan b).tokens := by
    have hunlined : (scan a).tokens.map Token.unlined = (scan b).tokens.map Token.unlined := by
      decide +kernel
    exact (map_eq_map_iff_forall₂.1 hunlined).imp fun _ _ => Token.alike_of_unlined
  exact ⟨ha, hb, htokens, hp,
    (layout_independence a b ha hb htokens).2.2.2 hp ⟨3, .zero, 10, true⟩ 50⟩

end Lox
