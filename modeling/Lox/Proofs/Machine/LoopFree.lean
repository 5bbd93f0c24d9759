import Lox.Proofs.Machine.Fuel
import Lox.Proofs.Machine.Whole

/-!
Programs without loops come to an end. Calls may be recursive, and what is called is known only when
the program runs; but of two calls, one in the body of the other, the inner one has fewer further
calls. So a run ends by induction on the calls, and within one body by recursion on its tree, as
long as all functions that frames bind are without loops, too.
-/
namespace Lox

namespace Node

mutual

def isLoopFree : Node → Bool
  | .literal _ | .name _ => true
  | .grouping n | .expression n | .print n => isLoopFree n
  | .unary _ n | .assign _ n | .var _ n => isLoopFree n
  | .binary l _ r | .logical l _ r => isLoopFree l && isLoopFree r
  | .call callee _ args => isLoopFree callee && areLoopFree args
  | .block items | .list items | .function _ _ items => areLoopFree items
  | .ifElse a b c => isLoopFree a && isLoopFree b && isLoopFree c
  | .loop _ _ => false

def areLoopFree : List Node → Bool
  | [] => true
  | n :: r => isLoopFree n && areLoopFree r

end

end Node

/-- There is no loop in the function that the value is, if it is one. -/
def Value.LoopFree : Value → Prop
  | .function _ d => d.node.isLoopFree = true
  | _ => True

theorem Value.loopFree_of_isCallable {v : Value} (h : v.isCallable = false) : v.LoopFree := by
  cases v with
  | function => cases h
  | _ => trivial

/-- An entry of the trace is refused only by the trace file. -/
def Fault.Expected (settings : Settings) (fault : Fault) : Prop :=
  fault = .defect .unwritableTrace → settings.traceFile = true

theorem Fault.Written.expected {settings : Settings} {fault : Fault} (h : fault.Written) :
    fault.Expected settings := fun hfault => absurd hfault h

theorem Fault.expected_error {settings : Settings} (e : RuntimeError) :
    (Fault.error e).Expected settings := (Fault.written_error e).expected

theorem Fault.expected_unusableName {settings : Settings} :
    (Fault.defect .unusableName).Expected settings :=
  Written.expected (written_defect nofun)

namespace Exec

variable {α β : Type} {good : Value → Prop} {allowed : Fault → Prop} {post : α → Prop}

/-- From a store of good values a step, given more and more fuel, comes to one end: to such a store,
with a value as promised or by a fault that is allowed. -/
def Ends (good : Value → Prop) (allowed : Fault → Prop) (post : α → Prop) (x : Nat → Exec α) :
    Prop :=
  ∀ s, s.store.All good → ∃ o, o ≠ .outOfFuel ∧ (∃ enough, ∀ fuel ≥ enough, x fuel s = o) ∧
    o.Meets (fun a t => post a ∧ t.store.All good) (fun e t => allowed e ∧ t.store.All good)

theorem Holds.ends {x : Exec α} (h : Holds good allowed post x) (hx : ∀ s, x s ≠ .outOfFuel) :
    Ends good allowed post fun _ => x :=
  fun s hs => ⟨x s, hx s, ⟨0, fun _ _ => rfl⟩, h s hs⟩

theorem Ends.of_succ {x : Nat → Exec α} (h : Ends good allowed post fun fuel => x (fuel + 1)) :
    Ends good allowed post x := by
  intro s hs
  obtain ⟨o, ho, ⟨enough, henough⟩, hmeets⟩ := h s hs
  refine ⟨o, ho, ⟨enough + 1, fun fuel hfuel => ?_⟩, hmeets⟩
  obtain ⟨fuel, rfl⟩ := Nat.exists_eq_add_one.2 (Nat.lt_of_lt_of_le enough.succ_pos hfuel)
  exact henough fuel (Nat.le_of_succ_le_succ hfuel)

theorem Ends.bind {x : Nat → Exec α} {f : Nat → α → Exec β} {goal : β → Prop}
    (hx : Ends good allowed post x) (hf : ∀ a, post a → Ends good allowed goal fun n => f n a) :
    Ends good allowed goal fun fuel => x fuel >>= f fuel := by
  intro s hs
  obtain ⟨o, ho, ⟨enough, henough⟩, hmeets⟩ := hx s hs
  cases o with
  | done a t =>
    obtain ⟨o, ho, ⟨more, hmore⟩, hrest⟩ := hf a hmeets.1 t hmeets.2
    refine ⟨o, ho, ⟨max enough more, fun fuel hfuel => ?_⟩, hrest⟩
    have hrun := henough fuel (Nat.le_trans (Nat.le_max_left ..) hfuel)
    exact (bind_of_done hrun).trans (hmore fuel (Nat.le_trans (Nat.le_max_right ..) hfuel))
  | failed fault t =>
    exact ⟨.failed fault t, nofun, ⟨enough, fun fuel h => bind_of_failed (henough fuel h)⟩, hmeets⟩
  | outOfFuel => exact absurd rfl ho

theorem Ends.inNewFrame {x : Nat → Exec α} (h : Ends good allowed post x) :
    Ends good allowed post fun fuel => inNewFrame (x fuel) := by
  intro s hs
  obtain ⟨o, ho, ⟨enough, henough⟩, hmeets⟩ :=
    h { s with store := s.store.push (some s.frame), frame := s.store.frames.size }
      (Store.all_push hs _)
  refine ⟨restore s.frame o, ?_, ⟨enough, fun fuel hfuel => ?_⟩, ?_⟩
  · cases o with
    | outOfFuel => exact absurd rfl ho
    | _ => nofun
  · exact congrArg (restore s.frame) (henough fuel hfuel)
  · exact Outcome.Meets.restore hmeets

end Exec

open Exec

variable {α : Type} {good : Value → Prop} {allowed : Fault → Prop} {post : α → Prop}

theorem Op.run_ne_outOfFuel {settings : Settings} (op : Op α) (s : State) :
    op.run settings s ≠ .outOfFuel := by
  have htrace (entry : Trace) (s : State) :
      Exec.trace settings entry s ≠ .outOfFuel := by
    unfold Exec.trace
    split
    · split <;> rintro ⟨⟩
    · rintro ⟨⟩
  cases op with
  | settle r h => cases r <;> rintro ⟨⟩
  | lookup t =>
    rw [Op.run, lookup_eq]
    split
    · split <;> rintro ⟨⟩
    · rintro ⟨⟩
  | assign t v =>
    rw [Op.run, assign_eq]
    split
    · split <;> rintro ⟨⟩
    · rintro ⟨⟩
  | define t v =>
    rw [Op.run, define_eq]
    split <;> rintro ⟨⟩
  | trace entry => exact htrace entry s
  | traceCall name values => exact htrace _ s
  | _ => rintro ⟨⟩

/-- From loop-free values a step comes to such values, and blames the trace only if that goes to a
file. -/
def Exec.Blameless (settings : Settings) (post : α → Prop) (x : Exec α) : Prop :=
  Holds Value.LoopFree (Fault.Expected settings) post x

namespace Exec

variable {settings : Settings}

theorem blameless_settle {r : Except Fault Value} (h : Ordinary r) :
    Blameless settings Value.LoopFree (ofExcept r) := by
  cases h with
  | value hv => exact holds_pure (Value.loopFree_of_isCallable hv)
  | error _ => exact holds_fail (Fault.expected_error _)
  | defect hd => exact holds_fail (Fault.written_defect hd).expected

theorem blameless_trace (entry : Trace) :
    Blameless settings (fun _ => True) (trace settings entry) := by
  unfold trace
  split
  · split
    · rename_i hfile
      rw [Bool.and_eq_true] at hfile
      exact holds_fail fun _ => hfile.1
    · exact holds_emit _
  · exact holds_pure trivial

theorem blameless_define (t : Token) {v : Value} (hv : v.LoopFree) :
    Blameless settings (fun _ => True) (define t v) :=
  holds_define Fault.expected_unusableName t hv

/-- The answers to sound questions end if those to the questions of their plans do. Within a call
there are fewer further calls. -/
theorem ends_plan {inside fits : ∀ β, Query β → Prop} {p : Plan α}
    (h : p.Sound settings good allowed inside fits post) (calls : Nat)
    (hinside : ∀ fewer < calls, ∀ β (query : Query β), inside β query →
      Ends good allowed (query.Gives good) fun fuel => query.run settings fuel fewer)
    (hfits : ∀ β (query : Query β), fits β query →
      Ends good allowed (query.Gives good) fun fuel => query.run settings fuel calls) :
    Ends good allowed post fun fuel => p.run settings fuel calls := by
  induction h generalizing calls with
  | done ha => exact (holds_pure ha).ends fun _ => nofun
  | @step _ _ _ _ _ op _ hop _ ih =>
    exact (hop.ends op.run_ne_outOfFuel).bind fun b hb => ih b hb calls hinside hfits
  | ask hquery _ ih =>
    exact (hfits _ _ hquery).bind fun b hb => ih b hb calls hinside hfits
  | scope _ _ ihbody ih =>
    exact (ihbody calls hinside hfits).inNewFrame.bind fun _ _ => ih calls hinside hfits
  | call hoverflow _ _ ihbody ih =>
    cases calls with
    | zero => exact (holds_fail hoverflow).ends fun _ => nofun
    | succ calls =>
      have hbody := ihbody calls (fun fewer h => hinside fewer (Nat.lt_succ_of_lt h))
        (hinside calls calls.lt_succ_self)
      exact hbody.inNewFrame.bind fun _ _ => ih (calls + 1) hinside hfits

end Exec

namespace Query

noncomputable def size : {α : Type} → Query α → Nat
  | _, .execute n | _, .evaluate n => sizeOf n
  | _, .executeAll _ ns | _, .evaluateAll ns => sizeOf ns
  | _, .iterate condition body => sizeOf condition + sizeOf body
  | _, .invoke _ _ args => sizeOf args + 1

def LoopFree : {α : Type} → Query α → Prop
  | _, .execute n | _, .evaluate n => n.isLoopFree = true
  | _, .executeAll last ns => last.LoopFree ∧ Node.areLoopFree ns = true
  | _, .iterate .. => False
  | _, .evaluateAll ns => Node.areLoopFree ns = true
  | _, .invoke callee _ args => callee.LoopFree ∧ Node.areLoopFree args = true

end Query

/-- A plan without loops, whose questions outside calls are smaller than a bound. -/
def Plan.Descends (settings : Settings) (size : Nat) (post : α → Prop) (p : Plan α) : Prop :=
  p.Sound settings Value.LoopFree (Fault.Expected settings) (fun _ query => query.LoopFree)
    (fun _ query => query.LoopFree ∧ query.size < size) post

section Plans

variable {settings : Settings}

theorem Plan.descends_misplaced (role : Role) (n : Node) (size : Nat) :
    (Plan.misplaced role n).Descends settings size Value.LoopFree :=
  .step (blameless_settle (ordinary_misplaced role n)) fun _ hv => .done hv

theorem Node.descends_execute {n : Node} (h : n.isLoopFree = true) :
    (Query.execute n).plan.Descends settings (sizeOf n) Value.LoopFree := by
  cases n with
  | expression value => exact .ask ⟨h, by simp [Query.size]⟩ fun v hv => .done hv
  | print value =>
    exact .ask ⟨h, by simp [Query.size]⟩ fun v _ => .step (holds_emit _) fun _ _ => .done trivial
  | var target initial =>
    refine .ask ⟨h, by simp [Query.size]⟩ fun v hv => ?_
    refine .step (blameless_define target hv) fun _ _ => ?_
    exact .step (blameless_trace _) fun _ _ => .done trivial
  | block statements =>
    refine .scope (.ask ⟨⟨trivial, h⟩, ?_⟩ fun _ _ => .done trivial) (.done trivial)
    simp [Query.size]
  | ifElse condition thenBranch elseBranch =>
    simp only [isLoopFree, Bool.and_eq_true] at h
    refine .ask ⟨h.1.1, by simp [Query.size]; omega⟩ fun v _ => ?_
    refine .step (blameless_trace _) fun _ _ => .ask ?_ fun _ _ => .done trivial
    split
    · exact ⟨h.1.2, by simp [Query.size]; omega⟩
    · exact ⟨h.2, by simp [Query.size]⟩
  | loop condition body => cases h
  | function target params body =>
    have hvalue (id : Nat) : (Value.function id ⟨target, params, body⟩).LoopFree := h
    refine .step holds_freshId fun id _ => .step (blameless_define target (hvalue id)) fun _ _ => ?_
    exact .step (blameless_trace _) fun _ _ => .done trivial
  | _ => exact Plan.descends_misplaced _ _ _

theorem Node.descends_evaluate {n : Node} (h : n.isLoopFree = true) :
    (Query.evaluate n).plan.Descends settings (sizeOf n) Value.LoopFree := by
  cases n with
  | literal token => exact .step (blameless_settle (ordinary_literal token)) fun v hv => .done hv
  | grouping inside => exact .ask ⟨h, by simp [Query.size]⟩ fun v hv => .done hv
  | name token =>
    exact .step (holds_lookup Fault.expected_unusableName Fault.expected_error token)
      fun v hv => .done hv
  | assign target value =>
    refine .ask ⟨h, by simp [Query.size]⟩ fun v hv => ?_
    refine .step (holds_assign Fault.expected_unusableName Fault.expected_error target hv)
      fun _ _ => ?_
    exact .step (blameless_trace _) fun _ _ => .done hv
  | unary operator right =>
    refine .ask ⟨h, by simp [Query.size]⟩ fun v _ => ?_
    exact .step (blameless_settle (ordinary_unary operator v)) fun v hv => .done hv
  | logical left operator right =>
    simp only [isLoopFree, Bool.and_eq_true] at h
    refine .ask ⟨h.1, by simp [Query.size]; omega⟩ fun v hv => ?_
    split
    · exact .done hv
    · exact .ask ⟨h.2, by simp [Query.size]⟩ fun v hv => .done hv
  | binary left operator right =>
    simp only [isLoopFree, Bool.and_eq_true] at h
    refine .ask ⟨h.1, by simp [Query.size]; omega⟩ fun a _ => ?_
    refine .ask ⟨h.2, by simp [Query.size]⟩ fun b _ => ?_
    exact .step (blameless_settle (ordinary_binary operator a b)) fun v hv => .done hv
  | call callee paren args =>
    simp only [isLoopFree, Bool.and_eq_true] at h
    have hcallee : 0 < sizeOf callee := by cases callee <;> simp
    refine .ask ⟨h.1, by simp [Query.size]; omega⟩ fun f hf => ?_
    exact .ask ⟨⟨hf, h.2⟩, by simp [Query.size]; omega⟩ fun v hv => .done hv
  | _ => exact Plan.descends_misplaced _ _ _

theorem Value.LoopFree.descends_invoke {callee : Value} (h : callee.LoopFree) (paren : Token)
    {args : List Node} (ha : Node.areLoopFree args = true) :
    (Query.invoke callee paren args).plan.Descends settings (sizeOf args + 1) Value.LoopFree := by
  cases callee with
  | function id f =>
    refine .step (blameless_settle (ordinary_checkArity ..)) fun _ _ => ?_
    refine .ask ⟨ha, by simp [Query.size]⟩ fun vs hvs => ?_
    refine .step (holds_depth.bind fun d _ => blameless_trace _) fun _ _ => ?_
    refine .call (Fault.expected_error _) (.bindAll (fun p _ v hv => ?_) ?_) (.done trivial)
    · exact blameless_define p (hvs v hv)
    · exact .ask ⟨trivial, h⟩ fun _ _ => .done trivial
  | native id name =>
    refine .ask ⟨ha, by simp [Query.size]⟩ fun vs _ => .step (blameless_trace _) fun _ _ => ?_
    exact .step (holds_pure trivial) fun v hv => .done hv
  | _ => exact .step (holds_fail (Fault.expected_error _)) fun v hv => .done hv

theorem Query.LoopFree.descends {query : Query α} (h : query.LoopFree) :
    query.plan.Descends settings query.size (query.Gives Value.LoopFree) := by
  cases query with
  | execute n => exact Node.descends_execute h
  | executeAll last ns =>
    cases ns with
    | nil => exact .done h.1
    | cons n ns =>
      obtain ⟨-, h⟩ := h
      simp only [Node.areLoopFree, Bool.and_eq_true] at h
      refine .ask ⟨h.1, by simp [size]; omega⟩ fun v hv => ?_
      exact .ask ⟨⟨hv, h.2⟩, by simp [size]⟩ fun v hv => .done hv
  | iterate condition body => exact h.elim
  | evaluate n => exact Node.descends_evaluate h
  | evaluateAll ns =>
    cases ns with
    | nil => exact .done nofun
    | cons n ns =>
      unfold LoopFree at h
      simp only [Node.areLoopFree, Bool.and_eq_true] at h
      refine .ask ⟨h.1, by simp [size]; omega⟩ fun v hv => ?_
      refine .ask ⟨h.2, by simp [size]⟩ fun vs hvs => ?_
      exact .done (List.forall_mem_cons.2 ⟨hv, hvs⟩)
  | invoke callee paren args => exact Value.LoopFree.descends_invoke h.1 paren h.2

/-- The answer to a question without loops ends, by induction on the calls and on its size. -/
theorem Query.ends (settings : Settings) (calls : Nat) {α : Type} (query : Query α)
    (h : query.LoopFree) :
    Ends Value.LoopFree (Fault.Expected settings) (query.Gives Value.LoopFree)
      fun fuel => query.run settings fuel calls := by
  apply Ends.of_succ
  simp only [run_succ]
  exact ends_plan h.descends calls (fun fewer hfewer _ query h => Query.ends settings fewer query h)
    fun _ query h => Query.ends settings calls query h.1
termination_by (calls, query.size)
decreasing_by
  · exact Prod.Lex.left _ _ hfewer
  · exact Prod.Lex.right _ h.2

end Plans

end Lox
