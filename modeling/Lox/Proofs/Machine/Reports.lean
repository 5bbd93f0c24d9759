import Lox.Proofs.Machine.Plan

/-!
A run notes what it prints and traces, and reports nothing by itself. Whatever the evaluator does,
and however it ends, the log keeps what was there before, and the diagnostics in it are still the
same; only the session that started the run adds one.
-/
namespace Lox

def State.reported (s : State) : List Diagnostic := s.log.filterMap Event.diagnostic?

/-- The log got longer, by events that report nothing. -/
def State.Noted (s t : State) : Prop :=
  ∃ new, t.log = new ++ s.log ∧ new.filterMap Event.diagnostic? = []

namespace State.Noted

variable {s t u : State}

theorem of_same (h : t.log = s.log) : s.Noted t := ⟨[], h, rfl⟩

theorem trans (h : s.Noted t) (h' : t.Noted u) : s.Noted u := by
  obtain ⟨new, ht, hnew⟩ := h
  obtain ⟨newer, hu, hnewer⟩ := h'
  refine ⟨newer ++ new, ?_, ?_⟩
  · rw [hu, ht, List.append_assoc]
  · rw [List.filterMap_append, hnew, hnewer]
    rfl

theorem reported (h : s.Noted t) : t.reported = s.reported := by
  obtain ⟨new, ht, hnew⟩ := h
  unfold State.reported
  rw [ht, List.filterMap_append, hnew, List.nil_append]

end State.Noted

namespace Exec

variable {α β : Type}

def Notes (x : Exec α) : Prop := ∀ s, (x s).Meets (fun _ t => s.Noted t) (fun _ t => s.Noted t)

theorem notes_pure (a : α) : Notes (pure a) := fun _ => .of_same rfl

theorem notes_outOfFuel : Notes (outOfFuel : Exec α) := fun _ => trivial

theorem notes_fail (fault : Fault) : Notes (fail fault : Exec α) := fun _ => .of_same rfl

theorem notes_ofExcept (r : Except Fault α) : Notes (ofExcept r) := by
  cases r with
  | ok a => exact fun _ => .of_same rfl
  | error fault => exact notes_fail fault

theorem notes_emit {e : Event} (h : e.diagnostic? = none) : Notes (emit e) :=
  fun _ => ⟨[e], rfl, List.filterMap_cons_none h⟩

theorem notes_print (line : Text) : Notes (print line) := notes_emit rfl

theorem notes_freshId : Notes freshId := fun _ => .of_same rfl

theorem notes_depth : Notes depth := fun _ => .of_same rfl

theorem notes_trace (settings : Settings) (entry : Trace) : Notes (trace settings entry) := by
  unfold trace
  split
  · split
    · exact notes_fail _
    · exact notes_emit rfl
  · exact notes_pure ()

theorem Notes.bind {x : Exec α} {f : α → Exec β} (hx : Notes x) (hf : ∀ a, Notes (f a)) :
    Notes (x >>= f) := by
  intro s
  apply Outcome.Meets.bind
  refine (hx s).mono (fun a t ht => ?_) fun _ _ ht => ht
  exact (hf a t).mono (fun _ _ hu => ht.trans hu) fun _ _ hu => ht.trans hu

theorem Notes.inNewFrame {x : Exec α} (h : Notes x) : Notes (inNewFrame x) := by
  intro s
  apply Outcome.Meets.restore
  exact h { s with store := s.store.push (some s.frame), frame := s.store.frames.size }

theorem notes_define (t : Token) (v : Value) : Notes (define t v) := by
  intro s
  rw [define_eq]
  cases Name.ofDatum? t.lexeme <;> exact .of_same rfl

theorem notes_lookup (t : Token) : Notes (lookup t) := by
  intro s
  rw [lookup_eq]
  cases Name.ofDatum? t.lexeme with
  | none => exact .of_same rfl
  | some name =>
    dsimp only
    cases s.store.get? s.frame name <;> exact .of_same rfl

theorem notes_assign (t : Token) (v : Value) : Notes (assign t v) := by
  intro s
  rw [assign_eq]
  cases Name.ofDatum? t.lexeme with
  | none => exact .of_same rfl
  | some name =>
    dsimp only
    cases s.store.find s.frame name <;> exact .of_same rfl

end Exec

open Exec

variable {settings : Settings} {fuel : Nat}

theorem Op.notes {α : Type} (op : Op α) : Notes (op.run settings) := by
  cases op with
  | settle r h => exact notes_ofExcept r
  | lookup t => exact notes_lookup t
  | assign t v => exact notes_assign t v
  | define t v => exact notes_define t v
  | freshId => exact notes_freshId
  | print v => exact notes_print _
  | trace entry => exact notes_trace settings entry
  | traceCall name values => exact notes_depth.bind fun d => notes_trace settings _
  | native name values => exact notes_pure _

theorem Plan.notes
    (hquery : ∀ {β : Type} (calls : Nat) (query : Query β), Notes (query.run settings fuel calls))
    {α : Type} (p : Plan α) (calls : Nat) : Notes (p.run settings fuel calls) := by
  induction p generalizing calls with
  | done a => exact notes_pure a
  | step op next ih => exact op.notes.bind fun b => ih b calls
  | ask query next ih => exact (hquery calls query).bind fun b => ih b calls
  | scope body next ihbody ih => exact (ihbody calls).inNewFrame.bind fun _ => ih calls
  | call paren body next ihbody ih =>
    cases calls with
    | zero => exact notes_fail _
    | succ calls => exact (ihbody calls).inNewFrame.bind fun _ => ih (calls + 1)

theorem Query.notes (settings : Settings) (fuel calls : Nat) {α : Type} (query : Query α) :
    Notes (query.run settings fuel calls) := by
  induction fuel generalizing calls α with
  | zero =>
    rw [run_zero]
    exact notes_outOfFuel
  | succ fuel ih =>
    rw [run_succ]
    exact query.plan.notes (fun calls query => ih calls query) calls

end Lox
