import Lox.Proofs.Machine.Plan
import Lox.Proofs.Store.Lines

/-!
Running does not look at lines, nor at what was noted before. A tree without lines, run in a state
without lines and with other events noted before, does what the tree with lines does: the values,
faults, frames and new events are the same up to lines.
-/
namespace Lox

/-- The state without lines, with other events before its own. -/
def State.unlined (earlier : List Event) (s : State) : State :=
  ⟨s.store.unlined, s.frame, s.nextId, s.log.map Event.unlined ++ earlier⟩

theorem State.initial_unlined : State.initial.unlined [] = State.initial := by
  have hempty : Store.empty.unlined = Store.empty := Store.eq_of_frames Array.map_empty
  have hglobal := Store.pushGlobal_unlined .empty 0
  rw [hempty] at hglobal
  rw [State.unlined, State.initial, ← hglobal]
  rfl

def Outcome.unlined {α γ : Type} (g : α → γ) (earlier : List Event) : Outcome α → Outcome γ
  | .done a s => .done (g a) (s.unlined earlier)
  | .failed fault s => .failed fault.unlined (s.unlined earlier)
  | .outOfFuel => .outOfFuel

namespace Exec

variable {α β γ δ : Type} {g : α → γ} {h : β → δ}

def Unlines (g : α → γ) (x : Exec α) (y : Exec γ) : Prop :=
  ∀ earlier s, y (s.unlined earlier) = (x s).unlined g earlier

theorem unlines_pure (a : α) : Unlines g (pure a) (pure (g a)) := fun _ _ => rfl

theorem unlines_outOfFuel : Unlines g (outOfFuel : Exec α) outOfFuel := fun _ _ => rfl

theorem unlines_fail (fault : Fault) : Unlines g (fail fault) (fail fault.unlined) :=
  fun _ _ => rfl

theorem unlines_ofExcept (r : Except Fault Value) :
    Unlines Value.unlined (ofExcept r) (ofExcept (unlinedResult r)) := by
  cases r with
  | ok v => exact fun _ _ => rfl
  | error fault => exact unlines_fail fault

theorem Unlines.bind {x : Exec α} {y : Exec γ} {f : α → Exec β} {f' : γ → Exec δ}
    (hx : Unlines g x y) (hf : ∀ a, Unlines h (f a) (f' (g a))) :
    Unlines h (x >>= f) (y >>= f') := by
  intro earlier s
  have hy := hx earlier s
  cases hrun : x s with
  | done a t =>
    rw [hrun] at hy
    rw [bind_of_done hrun, bind_of_done hy]
    exact hf a earlier t
  | failed fault t =>
    rw [hrun] at hy
    rw [bind_of_failed hrun, bind_of_failed hy]
    rfl
  | outOfFuel =>
    rw [hrun] at hy
    rw [bind_of_outOfFuel hrun, bind_of_outOfFuel hy]
    rfl

theorem unlines_print (line : Text) : Unlines id (print line) (print line) := fun _ _ => rfl

theorem unlines_freshId : Unlines id freshId freshId := fun _ _ => rfl

theorem unlines_depth : Unlines id depth depth := by
  intro earlier s
  change Outcome.done (s.store.unlined.depth s.frame) _ = _
  rw [Store.depth_unlined]
  rfl

theorem unlines_trace (settings : Settings) (entry : Trace) :
    Unlines id (trace settings entry) (trace settings entry.unlined) := by
  unfold trace
  rw [Trace.level_unlined, Trace.text_unlined]
  split
  · split
    · exact unlines_fail _
    · exact fun _ _ => rfl
  · exact unlines_pure ()

theorem unlines_define (t : Token) (v : Value) :
    Unlines id (define t v) (define t.unlined v.unlined) := by
  intro earlier s
  rw [define_eq, define_eq, Token.lexeme_unlined]
  cases Name.ofDatum? t.lexeme with
  | none => rfl
  | some name =>
    change Outcome.done () { s.unlined earlier with
      store := s.store.unlined.define s.frame name v.unlined } = _
    rw [Store.define_unlined]
    rfl

theorem unlines_lookup (t : Token) : Unlines Value.unlined (lookup t) (lookup t.unlined) := by
  intro earlier s
  rw [lookup_eq, lookup_eq, Token.lexeme_unlined]
  cases Name.ofDatum? t.lexeme with
  | none => rfl
  | some name =>
    dsimp only [State.unlined]
    rw [Store.get?_unlined]
    cases s.store.get? s.frame name <;> rfl

theorem unlines_assign (t : Token) (v : Value) :
    Unlines id (assign t v) (assign t.unlined v.unlined) := by
  intro earlier s
  rw [assign_eq, assign_eq, Token.lexeme_unlined]
  cases Name.ofDatum? t.lexeme with
  | none => rfl
  | some name =>
    dsimp only [State.unlined]
    rw [Store.find_unlined]
    cases s.store.find s.frame name with
    | none => rfl
    | some frame =>
      dsimp only
      rw [Store.define_unlined]
      rfl

theorem Unlines.inNewFrame {x : Exec α} {y : Exec γ} (hx : Unlines g x y) :
    Unlines g (inNewFrame x) (inNewFrame y) := by
  intro earlier s
  let entered := { s with store := s.store.push (some s.frame), frame := s.store.frames.size }
  have hrestore (o : Outcome α) :
      restore s.frame (o.unlined g earlier) = (restore s.frame o).unlined g earlier := by
    cases o <;> rfl
  have hentered : { s.unlined earlier with
      store := s.store.unlined.push (some s.frame), frame := s.store.unlined.frames.size } =
        entered.unlined earlier := by
    rw [Store.push_unlined, Store.size_unlined]
    rfl
  calc Exec.inNewFrame y (s.unlined earlier)
      = restore s.frame (y (entered.unlined earlier)) := by rw [← hentered]; rfl
    _ = restore s.frame ((x entered).unlined g earlier) := by rw [hx]
    _ = (Exec.inNewFrame x s).unlined g earlier := hrestore _

end Exec

theorem Ordinary.unlined {r : Except Fault Value} (h : Ordinary r) : Ordinary (unlinedResult r) := by
  cases h with
  | @value v hv =>
    refine .value ?_
    cases v with
    | function => cases hv
    | _ => exact hv
  | error hcause => exact .error hcause
  | defect hd => exact .defect hd

def Op.unlined : {α : Type} → Op α → Op α
  | _, .settle r h => .settle (unlinedResult r) h.unlined
  | _, .lookup t => .lookup t.unlined
  | _, .assign t v => .assign t.unlined v.unlined
  | _, .define t v => .define t.unlined v.unlined
  | _, .freshId => .freshId
  | _, .print v => .print v.unlined
  | _, .trace entry => .trace entry.unlined
  | _, .traceCall name values => .traceCall name (values.map Value.unlined)
  | _, .native name values => .native name (values.map Value.unlined)

def Op.erase : {α : Type} → Op α → α → α
  | _, .settle .., v | _, .lookup _, v | _, .native .., v => v.unlined
  | _, _, b => b

def Query.unlined : {α : Type} → Query α → Query α
  | _, .execute n => .execute n.unlined
  | _, .executeAll last ns => .executeAll last.unlined (Node.unlinedAll ns)
  | _, .iterate condition body => .iterate condition.unlined body.unlined
  | _, .evaluate n => .evaluate n.unlined
  | _, .evaluateAll ns => .evaluateAll (Node.unlinedAll ns)
  | _, .invoke callee paren args => .invoke callee.unlined paren.unlined (Node.unlinedAll args)

def Query.erase : {α : Type} → Query α → α → α
  | _, .evaluateAll _, vs => vs.map Value.unlined
  | _, .execute _, v | _, .executeAll .., v | _, .iterate .., v | _, .evaluate _, v
  | _, .invoke .., v => v.unlined

/-- Where the one plan has lines, the other has none, and so has what it comes to. -/
inductive Plan.Unlined : {α : Type} → (α → α) → Plan α → Plan α → Prop where
  | done {α : Type} {erase : α → α} (a : α) : Unlined erase (.done a) (.done (erase a))
  | step {α β : Type} {erase : α → α} {op op' : Op β} {next next' : β → Plan α} :
      op' = op.unlined → (∀ b, Unlined erase (next b) (next' (op.erase b))) →
      Unlined erase (.step op next) (.step op' next')
  | ask {α β : Type} {erase : α → α} {query query' : Query β} {next next' : β → Plan α} :
      query' = query.unlined → (∀ b, Unlined erase (next b) (next' (query.erase b))) →
      Unlined erase (.ask query next) (.ask query' next')
  | scope {α : Type} {erase : α → α} {body body' : Plan Value} {next next' : Plan α} :
      Unlined Value.unlined body body' → Unlined erase next next' →
      Unlined erase (.scope body next) (.scope body' next')
  | call {α : Type} {erase : α → α} {paren : Token} {body body' : Plan Value}
      {next next' : Plan α} : Unlined Value.unlined body body' → Unlined erase next next' →
      Unlined erase (.call paren body next) (.call paren.unlined body' next')

namespace Plan.Unlined

theorem bindAll {α : Type} {erase : α → α} {next next' : Plan α} (params : List Token)
    (values : List Value) (h : Unlined erase next next') :
    Unlined erase (.bindAll params values next)
      (.bindAll (params.map Token.unlined) (values.map Value.unlined) next') := by
  induction params generalizing values with
  | nil => exact h
  | cons p params ih =>
    cases values with
    | nil => exact h
    | cons v values => exact .step rfl fun _ => ih values

theorem settle {r r' : Except Fault Value} (hr : r' = unlinedResult r) {h : Ordinary r}
    {h' : Ordinary r'} {α : Type} {erase : α → α} {next next' : Value → Plan α}
    (hnext : ∀ v, Unlined erase (next v) (next' v.unlined)) :
    Unlined erase (.step (.settle r h) next) (.step (.settle r' h') next') := by
  subst hr
  exact .step rfl hnext

theorem ite {b b' : Bool} (hb : b' = b) {α : Type} {erase : α → α} {p p' q q' : Plan α}
    (hp : Unlined erase p p') (hq : Unlined erase q q') :
    Unlined erase (if b then p else q) (if b' then p' else q') := by
  subst hb
  split
  · exact hp
  · exact hq

theorem misplaced (role : Role) (n : Node) :
    Unlined Value.unlined (.misplaced role n) (.misplaced role n.unlined) := by
  refine settle ?_ fun v => .done v
  unfold Node.label
  rw [Node.form?_unlined]
  rfl

end Plan.Unlined

theorem Query.unlined_execute (n : Node) :
    Plan.Unlined Value.unlined (Query.execute n).plan (Query.execute n.unlined).plan := by
  cases n with
  | expression value => exact .ask rfl fun v => .done v
  | print value => exact .ask rfl fun v => .step rfl fun _ => .done Value.nil
  | var target initial =>
    exact .ask rfl fun v => .step rfl fun _ => .step rfl fun _ => .done Value.nil
  | block statements => exact .scope (.ask rfl fun v => .done v) (.done Value.nil)
  | ifElse condition thenBranch elseBranch =>
    have hbranch (v : Value) :
        (if v.unlined.isTruthy then thenBranch.unlined else elseBranch.unlined) =
          (if v.isTruthy then thenBranch else elseBranch).unlined := by
      rw [Value.isTruthy_unlined, apply_ite Node.unlined]
    exact .ask rfl fun v => .step rfl fun _ =>
      .ask (congrArg Query.execute (hbranch v)) fun _ => .done Value.nil
  | loop condition body => exact .ask rfl fun v => .done v
  | function target params body =>
    refine .step rfl fun id => .step rfl fun _ => .step ?_ fun _ => .done Value.nil
    rw [List.length_map]
    rfl
  | _ => exact .misplaced .statement _

theorem Query.unlined_evaluate (n : Node) :
    Plan.Unlined Value.unlined (Query.evaluate n).plan (Query.evaluate n.unlined).plan := by
  cases n with
  | literal t => exact .settle (Token.value_unlined t) fun v => .done v
  | grouping inside => exact .ask rfl fun v => .done v
  | name t => exact .step rfl fun v => .done v
  | assign target value => exact .ask rfl fun v => .step rfl fun _ => .step rfl fun _ => .done v
  | unary operator right =>
    exact .ask rfl fun v => .settle (applyUnary_unlined operator v) fun v => .done v
  | logical left operator right =>
    refine .ask rfl fun v => ?_
    have hshort : shortCircuits operator.unlined v.unlined = shortCircuits operator v := by
      unfold shortCircuits
      rw [Token.kind_unlined, Value.isTruthy_unlined]
    exact .ite hshort (.done v) (.ask rfl fun v => .done v)
  | binary left operator right =>
    exact .ask rfl fun a => .ask rfl fun b =>
      .settle (applyBinary_unlined operator a b) fun v => .done v
  | call callee paren args => exact .ask rfl fun f => .ask rfl fun v => .done v
  | _ => exact .misplaced .expression _

theorem checkArity_unlined (paren : Token) (expected given : Nat) :
    checkArity paren.unlined expected given = unlinedResult (checkArity paren expected given) := by
  unfold checkArity
  split <;> rfl

theorem Query.unlined_invoke (callee : Value) (paren : Token) (args : List Node) :
    Plan.Unlined Value.unlined (Query.invoke callee paren args).plan
      (Query.invoke callee.unlined paren.unlined (Node.unlinedAll args)).plan := by
  cases callee with
  | function id f =>
    have hparams : f.unlined.params.length = f.params.length := List.length_map _
    have hargs : (Node.unlinedAll args).length = args.length := by
      rw [Node.unlinedAll_eq, List.length_map]
    have harity : checkArity paren.unlined f.unlined.params.length (Node.unlinedAll args).length =
        unlinedResult (checkArity paren f.params.length args.length) := by
      rw [hparams, hargs]
      exact checkArity_unlined paren f.params.length args.length
    refine .settle harity fun _ => .ask rfl fun values => .step rfl fun _ => ?_
    exact .call (.bindAll f.params values (.ask rfl fun v => .done v)) (.done Value.nil)
  | native id name => exact .ask rfl fun values => .step rfl fun _ => .step rfl fun v => .done v
  | _ => exact .settle rfl fun v => .done v

theorem Query.unlined_plan {α : Type} (query : Query α) :
    Plan.Unlined query.erase query.plan query.unlined.plan := by
  cases query with
  | execute n => exact unlined_execute n
  | executeAll last ns =>
    cases ns with
    | nil => exact .done last
    | cons n ns => exact .ask rfl fun v => .ask rfl fun v => .done v
  | iterate condition body =>
    exact .ask rfl fun v => .step rfl fun _ => .ite (Value.isTruthy_unlined v)
      (.ask rfl fun _ => .ask rfl fun v => .done v) (.done Value.nil)
  | evaluate n => exact unlined_evaluate n
  | evaluateAll ns =>
    cases ns with
    | nil => exact .done []
    | cons n ns => exact .ask rfl fun v => .ask rfl fun vs => .done (v :: vs)
  | invoke callee paren args => exact unlined_invoke callee paren args

namespace Exec

variable {settings : Settings} {fuel : Nat}

theorem unlines_op {α : Type} (op : Op α) :
    Unlines op.erase (op.run settings) (op.unlined.run settings) := by
  cases op with
  | settle r h => exact unlines_ofExcept r
  | lookup t => exact unlines_lookup t
  | assign t v => exact unlines_assign t v
  | define t v => exact unlines_define t v
  | freshId => exact unlines_freshId
  | print v =>
    simp only [Op.unlined, Op.run, Value.display_unlined]
    exact unlines_print v.display
  | trace entry => exact unlines_trace settings entry
  | traceCall name values =>
    exact unlines_depth.bind fun d => unlines_trace settings (.call name values d)
  | native name values => exact unlines_pure (nativeResult settings name values)

theorem unlines_plan
    (hquery : ∀ {β : Type} (calls : Nat) (query : Query β), Unlines query.erase
      (query.run settings fuel calls) (query.unlined.run settings fuel calls))
    {α : Type} {erase : α → α} {p q : Plan α} (h : Plan.Unlined erase p q) (calls : Nat) :
    Unlines erase (p.run settings fuel calls) (q.run settings fuel calls) := by
  induction h generalizing calls with
  | done a => exact unlines_pure a
  | @step _ _ _ op _ _ _ hop _ ih =>
    subst hop
    exact (unlines_op op).bind fun b => ih b calls
  | @ask _ _ _ query _ _ _ hquestion _ ih =>
    subst hquestion
    exact (hquery calls query).bind fun b => ih b calls
  | scope _ _ ihbody ih => exact (ihbody calls).inNewFrame.bind fun _ => ih calls
  | call _ _ ihbody ih =>
    cases calls with
    | zero => exact unlines_fail _
    | succ calls => exact (ihbody calls).inNewFrame.bind fun _ => ih (calls + 1)

end Exec

theorem Query.unlines (settings : Settings) (fuel calls : Nat) {α : Type} (query : Query α) :
    Exec.Unlines query.erase (query.run settings fuel calls)
      (query.unlined.run settings fuel calls) := by
  induction fuel generalizing calls α with
  | zero =>
    rw [run_zero, run_zero]
    exact Exec.unlines_outOfFuel
  | succ fuel ih =>
    rw [run_succ, run_succ]
    exact Exec.unlines_plan (fun calls query => ih calls query) query.unlined_plan calls

end Lox
