import Lox.Proofs.Machine.Plan

/-!
Plans that keep an invariant of the bound values. It is enough to say, of each question, which
further questions its plan asks and that its own steps keep the invariant; that every answer keeps
it follows by induction on the fuel. What a call asks for may be told apart from the rest, as it
has fewer further calls.
-/
namespace Lox

open Exec

/-- What is answered when frames bind good values only. -/
def Query.Gives (good : Value → Prop) : {α : Type} → Query α → α → Prop
  | _, .evaluateAll _, vs => ∀ v ∈ vs, good v
  | _, .execute _, v | _, .executeAll .., v | _, .iterate .., v | _, .evaluate _, v
  | _, .invoke .., v => good v

section Sound

variable (settings : Settings) (good : Value → Prop) (allowed : Fault → Prop)

/-- The steps of the plan hold, its questions fit, those within calls fit inside, and what it comes
to is as promised, if the answers are. -/
inductive Plan.Sound (inside : ∀ β, Query β → Prop) :
    (fits : ∀ β, Query β → Prop) → {α : Type} → (post : α → Prop) → Plan α → Prop where
  | done {fits : ∀ β, Query β → Prop} {α : Type} {post : α → Prop} {a : α} : post a →
      Sound inside fits post (.done a)
  | step {fits : ∀ β, Query β → Prop} {α β : Type} {post : α → Prop} {given : β → Prop}
      {op : Op β} {next : β → Plan α} : Holds good allowed given (op.run settings) →
      (∀ b, given b → Sound inside fits post (next b)) → Sound inside fits post (.step op next)
  | ask {fits : ∀ β, Query β → Prop} {α β : Type} {post : α → Prop} {query : Query β}
      {next : β → Plan α} : fits β query →
      (∀ b, query.Gives good b → Sound inside fits post (next b)) →
      Sound inside fits post (.ask query next)
  | scope {fits : ∀ β, Query β → Prop} {α : Type} {post : α → Prop} {body : Plan Value}
      {next : Plan α} : Sound inside fits (fun _ => True) body → Sound inside fits post next →
      Sound inside fits post (.scope body next)
  | call {fits : ∀ β, Query β → Prop} {α : Type} {post : α → Prop} {paren : Token}
      {body : Plan Value} {next : Plan α} : allowed (.error ⟨paren, .stackOverflow⟩) →
      Sound inside inside (fun _ => True) body → Sound inside fits post next →
      Sound inside fits post (.call paren body next)

end Sound

variable {settings : Settings} {good : Value → Prop} {allowed : Fault → Prop}
  {inside fits : ∀ β, Query β → Prop} {α : Type} {post : α → Prop} {fuel : Nat}

theorem Plan.Sound.bindAll {params : List Token} {values : List Value} {next : Plan α}
    (hdefine : ∀ p ∈ params, ∀ v ∈ values, Holds good allowed (fun _ => True) (define p v))
    (h : next.Sound settings good allowed inside fits post) :
    (Plan.bindAll params values next).Sound settings good allowed inside fits post := by
  induction params generalizing values with
  | nil => exact h
  | cons p params ih =>
    cases values with
    | nil => exact h
    | cons v values =>
      have hstep : Holds good allowed (fun _ => True) ((Op.define p v).run settings) :=
        hdefine p (by simp) v (by simp)
      refine .step hstep fun _ _ => ih fun q hq w hw => ?_
      exact hdefine q (by simp [hq]) w (by simp [hw])

namespace Exec

theorem holds_plan {p : Plan α} (h : p.Sound settings good allowed inside fits post)
    (hinside : ∀ calls β (query : Query β), inside β query →
      Holds good allowed (query.Gives good) (query.run settings fuel calls))
    (hfits : ∀ calls β (query : Query β), fits β query →
      Holds good allowed (query.Gives good) (query.run settings fuel calls)) (calls : Nat) :
    Holds good allowed post (p.run settings fuel calls) := by
  induction h generalizing calls with
  | done ha => exact holds_pure ha
  | step hop _ ih => exact hop.bind fun b hb => ih b hb hfits calls
  | ask hquery _ ih => exact (hfits calls _ _ hquery).bind fun b hb => ih b hb hfits calls
  | scope _ _ ihbody ih => exact (ihbody hfits calls).inNewFrame.bind fun _ _ => ih hfits calls
  | call hoverflow _ _ ihbody ih =>
    cases calls with
    | zero => exact holds_fail hoverflow
    | succ calls =>
      exact (ihbody hinside calls).inNewFrame.bind fun _ _ => ih hfits (calls + 1)

end Exec

/-- If the plans of fitting questions are sound, so are the answers. -/
theorem Query.holds (fits : ∀ β, Query β → Prop)
    (hplan : ∀ β (query : Query β), fits β query →
      query.plan.Sound settings good allowed fits fits (query.Gives good))
    (fuel calls : Nat) {β : Type} (query : Query β) (h : fits β query) :
    Holds good allowed (query.Gives good) (query.run settings fuel calls) := by
  induction fuel generalizing calls β with
  | zero =>
    rw [run_zero]
    exact holds_outOfFuel
  | succ fuel ih =>
    rw [run_succ]
    exact holds_plan (hplan β query h) (fun calls _ query h => ih calls query h)
      (fun calls _ query h => ih calls query h) calls

end Lox
