import Lox.Machine.Evaluate
import Lox.Proofs.Machine.Outcome

/-!
What the evaluator is made of. Whatever it can be asked for has a plan: steps that it takes by
itself, further questions, what it does in a new frame, and calls. A plan depends on nothing but
the question, and asking with a unit of fuel is to carry the plan out. So the branches of the
evaluator are gone through once, here; what holds of all runs takes one lemma for the steps and
one induction over plans.
-/
namespace Lox

/-- What the evaluator can be asked for. -/
inductive Query : Type → Type where
  | execute (n : Node) : Query Value
  | executeAll (last : Value) (ns : List Node) : Query Value
  | iterate (condition body : Node) : Query Value
  | evaluate (n : Node) : Query Value
  | evaluateAll (ns : List Node) : Query (List Value)
  | invoke (callee : Value) (paren : Token) (args : List Node) : Query Value

/-- A step that the evaluator takes by itself. -/
inductive Op : Type → Type where
  | settle (r : Except Fault Value) (h : Ordinary r) : Op Value
  | lookup (t : Token) : Op Value
  | assign (t : Token) (v : Value) : Op Unit
  | define (t : Token) (v : Value) : Op Unit
  | freshId : Op Nat
  | print (v : Value) : Op Unit
  | trace (entry : Trace) : Op Unit
  | traceCall (name : Datum) (values : List Value) : Op Unit
  | native (name : String) (values : List Value) : Op Value

inductive Plan : Type → Type 1 where
  | done {α : Type} (a : α) : Plan α
  | step {α β : Type} (op : Op β) (next : β → Plan α) : Plan α
  | ask {α β : Type} (query : Query β) (next : β → Plan α) : Plan α
  | scope {α : Type} (body : Plan Value) (next : Plan α) : Plan α
  | call {α : Type} (paren : Token) (body : Plan Value) (next : Plan α) : Plan α

namespace Plan

def bindAll {α : Type} : List Token → List Value → Plan α → Plan α
  | t :: ts, v :: vs, next => .step (.define t v) fun _ => bindAll ts vs next
  | _, _, next => next

end Plan

def checkArity (paren : Token) (expected given : Nat) : Except Fault Value :=
  if given ≠ expected then .error (.error ⟨paren, .arity expected given⟩) else .ok .nil

theorem ordinary_checkArity (paren : Token) (expected given : Nat) :
    Ordinary (checkArity paren expected given) := by
  unfold checkArity
  split
  · exact .error nofun
  · exact .value rfl

theorem ordinary_misplaced (role : Role) (n : Node) :
    Ordinary (.error (.defect (.misplaced role n.label))) :=
  .defect (by simp)

def Plan.misplaced (role : Role) (n : Node) : Plan Value :=
  .step (.settle (.error (.defect (.misplaced role n.label))) (ordinary_misplaced role n)) .done

namespace Query

def plan : {α : Type} → Query α → Plan α
  | _, .execute n =>
    match n with
    | .expression value => .ask (.evaluate value) .done
    | .print value => .ask (.evaluate value) fun v => .step (.print v) fun _ => .done .nil
    | .var target initial =>
      .ask (.evaluate initial) fun v =>
      .step (.define target v) fun _ =>
      .step (.trace (.declare target.lexeme v)) fun _ => .done .nil
    | .block statements => .scope (.ask (.executeAll .nil statements) .done) (.done .nil)
    | .ifElse condition thenBranch elseBranch =>
      .ask (.evaluate condition) fun v =>
      .step (.trace (.ifCondition v)) fun _ =>
      .ask (.execute (if v.isTruthy then thenBranch else elseBranch)) fun _ => .done .nil
    | .loop condition body => .ask (.iterate condition body) .done
    | .function target params body =>
      .step .freshId fun id =>
      .step (.define target (.function id ⟨target, params, body⟩)) fun _ =>
      .step (.trace (.function target.lexeme params.length)) fun _ => .done .nil
    | n => .misplaced .statement n
  | _, .executeAll last [] => .done last
  | _, .executeAll _ (n :: ns) => .ask (.execute n) fun v => .ask (.executeAll v ns) .done
  | _, .iterate condition body =>
    .ask (.evaluate condition) fun v =>
    .step (.trace (.whileCondition v)) fun _ =>
    if v.isTruthy then .ask (.execute body) fun _ => .ask (.iterate condition body) .done
    else .done .nil
  | _, .evaluate n =>
    match n with
    | .literal t => .step (.settle t.value (ordinary_literal t)) .done
    | .grouping inside => .ask (.evaluate inside) .done
    | .name t => .step (.lookup t) .done
    | .assign target value =>
      .ask (.evaluate value) fun v =>
      .step (.assign target v) fun _ =>
      .step (.trace (.assign target.lexeme v)) fun _ => .done v
    | .unary operator right =>
      .ask (.evaluate right) fun v =>
      .step (.settle (applyUnary operator v) (ordinary_unary operator v)) .done
    | .logical left operator right =>
      .ask (.evaluate left) fun v =>
      if shortCircuits operator v then .done v else .ask (.evaluate right) .done
    | .binary left operator right =>
      .ask (.evaluate left) fun a =>
      .ask (.evaluate right) fun b =>
      .step (.settle (applyBinary operator a b) (ordinary_binary operator a b)) .done
    | .call callee paren args =>
      .ask (.evaluate callee) fun f => .ask (.invoke f paren args) .done
    | n => .misplaced .expression n
  | _, .evaluateAll [] => .done []
  | _, .evaluateAll (n :: ns) =>
    .ask (.evaluate n) fun v => .ask (.evaluateAll ns) fun vs => .done (v :: vs)
  | _, .invoke callee paren args =>
    match callee with
    | .function _ f =>
      .step (.settle (checkArity paren f.params.length args.length)
        (ordinary_checkArity ..)) fun _ =>
      .ask (.evaluateAll args) fun values =>
      .step (.traceCall f.name.lexeme values) fun _ =>
      .call paren (.bindAll f.params values (.ask (.executeAll .nil f.body) .done)) (.done .nil)
    | .native _ name =>
      .ask (.evaluateAll args) fun values =>
      .step (.trace (.native name)) fun _ => .step (.native name values) .done
    | _ => .step (.settle (.error (.error ⟨paren, .notCallable⟩)) (.error nofun)) .done

def run (settings : Settings) (fuel calls : Nat) : {α : Type} → Query α → Exec α
  | _, .execute n => Lox.execute settings fuel calls n
  | _, .executeAll last ns => Lox.executeAll settings fuel calls last ns
  | _, .iterate condition body => Lox.iterate settings fuel calls condition body
  | _, .evaluate n => Lox.evaluate settings fuel calls n
  | _, .evaluateAll ns => Lox.evaluateAll settings fuel calls ns
  | _, .invoke callee paren args => Lox.invoke settings fuel calls callee paren args

end Query

def Op.run (settings : Settings) : {α : Type} → Op α → Exec α
  | _, .settle r _ => Exec.ofExcept r
  | _, .lookup t => Exec.lookup t
  | _, .assign t v => Exec.assign t v
  | _, .define t v => Exec.define t v
  | _, .freshId => Exec.freshId
  | _, .print v => Exec.print v.display
  | _, .trace entry => Exec.trace settings entry
  | _, .traceCall name values => do Exec.trace settings (.call name values (← Exec.depth))
  | _, .native name values => return nativeResult settings name values

open Exec in
def Plan.run (settings : Settings) (fuel : Nat) : {α : Type} → (calls : Nat) → Plan α → Exec α
  | _, _, .done a => pure a
  | _, calls, .step op next => do
    let b ← op.run settings
    run settings fuel calls (next b)
  | _, calls, .ask query next => do
    let b ← query.run settings fuel calls
    run settings fuel calls (next b)
  | _, calls, .scope body next => do
    let _ ← inNewFrame (run settings fuel calls body)
    run settings fuel calls next
  | _, 0, .call paren _ _ => error paren .stackOverflow
  | _, calls + 1, .call _ body next => do
    let _ ← inNewFrame (run settings fuel calls body)
    run settings fuel (calls + 1) next

section Answers

variable {α : Type} {settings : Settings} {fuel calls : Nat}

theorem Plan.run_bindAll (params : List Token) (values : List Value) (next : Plan α) :
    (Plan.bindAll params values next).run settings fuel calls = (do
      Exec.bindAll params values
      next.run settings fuel calls) := by
  induction params generalizing values with
  | nil => rfl
  | cons t ts ih =>
    cases values with
    | nil => rfl
    | cons v vs =>
      simp only [Plan.bindAll, Plan.run, Op.run, Exec.bindAll, ih, bind_assoc]

theorem Query.run_zero (query : Query α) : query.run settings 0 calls = Exec.outOfFuel := by
  cases query <;> simp only [run, Lox.execute, Lox.executeAll, Lox.iterate, Lox.evaluate,
    Lox.evaluateAll, Lox.invoke]

/-- With one more unit of fuel the plan is carried out. -/
theorem Query.run_succ (query : Query α) :
    query.run settings (fuel + 1) calls = query.plan.run settings fuel calls := by
  cases query with
  | execute n =>
    unfold run Lox.execute
    cases n <;> simp [plan, Plan.run, run, Op.run, Plan.misplaced]
  | executeAll last ns =>
    unfold run Lox.executeAll
    cases ns <;> simp [plan, Plan.run, run]
  | iterate condition body =>
    unfold run Lox.iterate
    simp [plan, Plan.run, run, Op.run, apply_ite (Plan.run settings fuel calls)]
  | evaluate n =>
    unfold run Lox.evaluate
    cases n <;> simp [plan, Plan.run, run, Op.run, Plan.misplaced,
      apply_ite (Plan.run settings fuel calls)]
  | evaluateAll ns =>
    unfold run Lox.evaluateAll
    cases ns <;> simp [plan, Plan.run, run]
  | invoke callee paren args =>
    unfold run Lox.invoke
    cases callee with
    | function id f =>
      by_cases harity : args.length = f.params.length
      · cases calls <;>
          simp [plan, Plan.run, run, Op.run, Plan.run_bindAll, checkArity, harity]
      · simp [plan, Plan.run, run, Op.run, checkArity, harity, Exec.error]
    | native => simp [plan, Plan.run, run, Op.run]
    | _ => simp [plan, Plan.run, Op.run, Exec.error]

end Answers

end Lox
