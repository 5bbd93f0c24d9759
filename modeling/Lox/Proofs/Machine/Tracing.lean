import Lox.Proofs.Machine.Plan

/-!
Tracing does not interfere. Of two runs at different verbosities the lower one is the higher one
with the entries above its level left out of the log: values, faults, frames and all other events
are the same. The one way to tell them apart is an entry that the trace file cannot take.
-/
namespace Lox

def Event.shows (level : Nat) : Event → Bool
  | .traced entry => decide (entry.level ≤ level)
  | _ => true

@[simp] theorem Event.shows_reported (level : Nat) (d : Diagnostic) :
    Event.shows level (.reported d) = true := rfl

def State.upTo (level : Nat) (s : State) : State :=
  { s with log := s.log.filter (Event.shows level) }

def Outcome.upTo {α : Type} (level : Nat) : Outcome α → Outcome α
  | .done a s => .done a (s.upTo level)
  | .failed fault s => .failed fault (s.upTo level)
  | .outOfFuel => .outOfFuel

/-- The step met an entry that the trace file cannot take. -/
def Outcome.Blocked {α : Type} (o : Outcome α) : Prop :=
  ∃ s, o = .failed (.defect .unwritableTrace) s

/-- Settings that trace no more than others and are the same otherwise. -/
structure Settings.Below (low high : Settings) : Prop where
  verbosity : low.verbosity ≤ high.verbosity
  now : low.now = high.now
  maxCalls : low.maxCalls = high.maxCalls
  traceFile : low.traceFile = true → high.traceFile = true

namespace Exec

variable {α β : Type} {level : Nat}

/-- A step at a lower verbosity does what one at a higher verbosity does, up to the level. -/
def Lowers (level : Nat) (x y : Exec α) : Prop :=
  ∀ s, (x s).Blocked ∨ y (s.upTo level) = (x s).upTo level

theorem lowers_pure (a : α) : Lowers level (pure a) (pure a) := fun _ => .inr rfl

theorem lowers_outOfFuel : Lowers level (outOfFuel : Exec α) outOfFuel := fun _ => .inr rfl

theorem lowers_fail (fault : Fault) : Lowers level (fail fault : Exec α) (fail fault) :=
  fun _ => .inr rfl

theorem lowers_ofExcept (r : Except Fault α) : Lowers level (ofExcept r) (ofExcept r) := by
  cases r with
  | ok a => exact fun _ => .inr rfl
  | error fault => exact lowers_fail fault

theorem lowers_emit {e : Event} (h : e.shows level = true) : Lowers level (emit e) (emit e) := by
  intro s
  right
  simp only [emit, Outcome.upTo, State.upTo, List.filter_cons_of_pos h]

theorem lowers_print (line : Text) : Lowers level (print line) (print line) := lowers_emit rfl

theorem lowers_freshId : Lowers level freshId freshId := fun _ => .inr rfl

theorem lowers_depth : Lowers level depth depth := fun _ => .inr rfl

theorem Lowers.bind {x y : Exec α} {f g : α → Exec β} (hx : Lowers level x y)
    (hf : ∀ a, Lowers level (f a) (g a)) : Lowers level (x >>= f) (y >>= g) := by
  intro s
  cases hrun : x s with
  | done a t =>
    obtain ⟨u, hu⟩ | hy := hx s
    · rw [hrun] at hu
      cases hu
    · rw [hrun] at hy
      rw [bind_of_done hrun, bind_of_done hy]
      exact hf a t
  | failed fault t =>
    rw [bind_of_failed hrun]
    obtain ⟨u, hu⟩ | hy := hx s
    · rw [hrun] at hu
      cases hu
      exact .inl ⟨t, rfl⟩
    · rw [hrun] at hy
      exact .inr (bind_of_failed hy)
  | outOfFuel =>
    obtain ⟨u, hu⟩ | hy := hx s
    · rw [hrun] at hu
      cases hu
    · rw [hrun] at hy
      rw [bind_of_outOfFuel hrun]
      exact .inr (bind_of_outOfFuel hy)

theorem Lowers.inNewFrame {x y : Exec α} (h : Lowers level x y) :
    Lowers level (inNewFrame x) (inNewFrame y) := by
  intro s
  let entered := { s with store := s.store.push (some s.frame), frame := s.store.frames.size }
  have hrestore (o : Outcome α) :
      restore s.frame (o.upTo level) = (restore s.frame o).upTo level := by
    cases o <;> rfl
  obtain ⟨t, ht⟩ | hy := h entered
  · left
    refine ⟨{ t with frame := s.frame }, ?_⟩
    change restore s.frame (x entered) = _
    rw [ht]
    rfl
  · right
    change restore s.frame (y (entered.upTo level)) = _
    rw [hy]
    exact hrestore _

theorem lowers_define (t : Token) (v : Value) : Lowers level (define t v) (define t v) := by
  intro s
  right
  rw [define_eq, define_eq]
  cases Name.ofDatum? t.lexeme <;> rfl

theorem lowers_lookup (t : Token) : Lowers level (lookup t) (lookup t) := by
  intro s
  right
  rw [lookup_eq, lookup_eq]
  cases Name.ofDatum? t.lexeme with
  | none => rfl
  | some name =>
    dsimp only [State.upTo]
    cases s.store.get? s.frame name <;> rfl

theorem lowers_assign (t : Token) (v : Value) : Lowers level (assign t v) (assign t v) := by
  intro s
  right
  rw [assign_eq, assign_eq]
  cases Name.ofDatum? t.lexeme with
  | none => rfl
  | some name =>
    dsimp only [State.upTo]
    cases s.store.find s.frame name <;> rfl

variable {low high : Settings}

theorem lowers_trace (h : low.Below high) (entry : Trace) :
    Lowers low.verbosity (trace high entry) (trace low entry) := by
  intro s
  unfold trace
  by_cases hhigh : entry.level ≤ high.verbosity
  · rw [if_pos hhigh]
    by_cases hblocked : (high.traceFile && !entry.text.isWhole) = true
    · rw [if_pos hblocked]
      exact .inl ⟨s, rfl⟩
    rw [if_neg hblocked]
    by_cases hlow : entry.level ≤ low.verbosity
    · have hopen : ¬(low.traceFile && !entry.text.isWhole) = true := by
        intro hlow
        rw [Bool.and_eq_true] at hlow
        exact hblocked (by rw [h.traceFile hlow.1, hlow.2]; rfl)
      have hshows : Event.shows low.verbosity (.traced entry) = true := decide_eq_true hlow
      rw [if_pos hlow, if_neg hopen]
      exact lowers_emit hshows s
    · right
      have hshows : Event.shows low.verbosity (.traced entry) = false := decide_eq_false hlow
      rw [if_neg hlow]
      simp only [emit, Outcome.upTo, State.upTo]
      rw [List.filter_cons_of_neg (by simp [hshows])]
      rfl
  · have hlow : ¬entry.level ≤ low.verbosity := by
      have := h.verbosity
      omega
    rw [if_neg hhigh, if_neg hlow]
    exact .inr rfl

end Exec

open Exec

variable {low high : Settings} {fuel : Nat}

theorem Op.lowers (h : low.Below high) {α : Type} (op : Op α) :
    Lowers low.verbosity (op.run high) (op.run low) := by
  cases op with
  | settle r _ => exact lowers_ofExcept r
  | lookup t => exact lowers_lookup t
  | assign t v => exact lowers_assign t v
  | define t v => exact lowers_define t v
  | freshId => exact lowers_freshId
  | print v => exact lowers_print _
  | trace entry => exact lowers_trace h entry
  | traceCall name values => exact lowers_depth.bind fun d => lowers_trace h _
  | native name values =>
    unfold Op.run nativeResult
    rw [h.now]
    exact lowers_pure _

theorem Plan.lowers (h : low.Below high)
    (hquery : ∀ {β : Type} (calls : Nat) (query : Query β),
      Lowers low.verbosity (query.run high fuel calls) (query.run low fuel calls))
    {α : Type} (p : Plan α) (calls : Nat) :
    Lowers low.verbosity (p.run high fuel calls) (p.run low fuel calls) := by
  induction p generalizing calls with
  | done a => exact lowers_pure a
  | step op next ih => exact (op.lowers h).bind fun b => ih b calls
  | ask query next ih => exact (hquery calls query).bind fun b => ih b calls
  | scope body next ihbody ih => exact (ihbody calls).inNewFrame.bind fun _ => ih calls
  | call paren body next ihbody ih =>
    cases calls with
    | zero => exact lowers_fail _
    | succ calls => exact (ihbody calls).inNewFrame.bind fun _ => ih (calls + 1)

theorem Query.lowers (h : low.Below high) (fuel calls : Nat) {α : Type} (query : Query α) :
    Lowers low.verbosity (query.run high fuel calls) (query.run low fuel calls) := by
  induction fuel generalizing calls α with
  | zero =>
    rw [run_zero, run_zero]
    exact lowers_outOfFuel
  | succ fuel ih =>
    rw [run_succ, run_succ]
    exact query.plan.lowers h (fun calls query => ih calls query) calls

end Lox
