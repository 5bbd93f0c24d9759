import Lox.Machine
import Lox.Machine.Operator
import Lox.Proofs.Store.Chain

/-!
What can be said of the end of a step, whether it was reached with a value or by a fault. A step
that spends its fuel has no end, and anything holds of it. An invariant of the values that frames
bind is kept by a row of steps if each of them keeps it.
-/
namespace Lox

variable {α β : Type}

/-- A value and the state with it meet one condition, a fault and the state with it another. -/
def Outcome.Meets (done : α → State → Prop) (failed : Fault → State → Prop) : Outcome α → Prop
  | .done a s => done a s
  | .failed e s => failed e s
  | .outOfFuel => True

namespace Outcome

variable {done done' : α → State → Prop} {failed failed' : Fault → State → Prop}

theorem Meets.mono {o : Outcome α} (h : o.Meets done failed)
    (hdone : ∀ a s, done a s → done' a s) (hfailed : ∀ e s, failed e s → failed' e s) :
    o.Meets done' failed' := by
  cases o with
  | done a s => exact hdone a s h
  | failed e s => exact hfailed e s h
  | outOfFuel => trivial

theorem Meets.bind {x : Exec α} {f : α → Exec β} {s : State} {done : β → State → Prop}
    (h : (x s).Meets (fun a t => (f a t).Meets done failed) failed) :
    ((x >>= f) s).Meets done failed := by
  cases hx : x s with
  | done a t =>
    rw [Exec.bind_of_done hx]
    rw [hx] at h
    exact h
  | failed e t =>
    rw [Exec.bind_of_failed hx]
    rw [hx] at h
    exact h
  | outOfFuel =>
    rw [Exec.bind_of_outOfFuel hx]
    trivial

theorem Meets.restore {o : Outcome α} {frame : Nat}
    (h : o.Meets (fun a t => done a { t with frame := frame })
      (fun e t => failed e { t with frame := frame })) :
    (Exec.restore frame o).Meets done failed := by
  cases o with
  | done a s => exact h
  | failed e s => exact h
  | outOfFuel => trivial

end Outcome

namespace Exec

protected theorem bind_assoc {γ : Type} (x : Exec α) (f : α → Exec β) (g : β → Exec γ) :
    x >>= f >>= g = x >>= fun a => f a >>= g := by
  funext s
  cases h : x s with
  | done a t =>
    rw [bind_of_done h]
    simp only [Bind.bind, Exec.bind, h]
  | failed fault t => rw [bind_of_failed h, bind_of_failed (bind_of_failed h)]
  | outOfFuel => rw [bind_of_outOfFuel h, bind_of_outOfFuel (bind_of_outOfFuel h)]

protected theorem bind_pure (x : Exec α) : x >>= pure = x := by
  funext s
  cases h : x s with
  | done a t => exact bind_of_done h
  | failed fault t => exact bind_of_failed h
  | outOfFuel => exact bind_of_outOfFuel h

instance : LawfulMonad Exec :=
  LawfulMonad.mk' Exec Exec.bind_pure (fun _ _ => rfl) Exec.bind_assoc

@[simp] theorem fail_bind (fault : Fault) (f : α → Exec β) : fail fault >>= f = fail fault := rfl

@[simp] theorem ofExcept_ok (a : α) : ofExcept (.ok a) = pure a := rfl

@[simp] theorem ofExcept_error (fault : Fault) : (ofExcept (.error fault) : Exec α) = fail fault :=
  rfl

end Exec

/-- What a literal or an operator can come to: a value that cannot be called, or a fault that has
nothing to do with calls or the trace. -/
inductive Ordinary : Except Fault Value → Prop where
  | value {v : Value} : v.isCallable = false → Ordinary (.ok v)
  | error {t : Token} {cause : Cause} : cause ≠ .stackOverflow →
      Ordinary (.error (.error ⟨t, cause⟩))
  | defect {d : Defect} : d ≠ .unwritableTrace → Ordinary (.error (.defect d))

theorem Value.isCallable_ofDatum (place : Place) (d : Datum) :
    (Value.ofDatum place d).isCallable = false := by
  cases d <;> rfl

theorem ordinary_literal (t : Token) : Ordinary t.value := by
  unfold Token.value
  split
  · exact .value rfl
  · exact .value rfl
  · exact .value rfl
  · exact .value (Value.isCallable_ofDatum _ _)
  · exact .value (Value.isCallable_ofDatum _ _)
  · exact .defect nofun

theorem ordinary_unary (operator : Token) (v : Value) : Ordinary (applyUnary operator v) := by
  unfold applyUnary
  split
  · split
    · exact .value rfl
    · exact .error nofun
  · exact .value rfl
  · exact .defect nofun

theorem isCallable_arithmetic? {kind : Kind} {x y : Number} {v : Value}
    (h : arithmetic? kind x y = some v) : v.isCallable = false := by
  cases kind <;> cases h <;> rfl

theorem ordinary_binary (operator : Token) (a b : Value) : Ordinary (applyBinary operator a b) := by
  unfold applyBinary
  split
  · split
    · exact .value rfl
    · exact .value rfl
    · exact .error nofun
  · exact .value rfl
  · exact .value rfl
  · split
    · split
      · rename_i hv
        exact .value (isCallable_arithmetic? hv)
      · exact .defect nofun
    · exact .error nofun

/-- From a store of good values a step comes to such a store, with a value as promised or by a fault
that is allowed. -/
def Exec.Holds (good : Value → Prop) (allowed : Fault → Prop) (post : α → Prop) (x : Exec α) :
    Prop :=
  ∀ s, s.store.All good →
    (x s).Meets (fun a t => post a ∧ t.store.All good) (fun e t => allowed e ∧ t.store.All good)

theorem State.all_initial {good : Value → Prop} (h : good (.native 0 "clock")) :
    State.initial.store.All good := by
  have hempty : Store.empty.All good := by
    intro f hf
    simp [Store.empty] at hf
  exact Store.all_define (Store.all_push hempty none) 0 (.text "clock") h

namespace Exec

variable {good : Value → Prop} {allowed : Fault → Prop} {post : α → Prop}

theorem holds_pure {a : α} (h : post a) : Holds good allowed post (pure a) := fun _ hs => ⟨h, hs⟩

theorem holds_outOfFuel : Holds good allowed post (outOfFuel : Exec α) := fun _ _ => trivial

theorem holds_fail {fault : Fault} (h : allowed fault) :
    Holds good allowed post (fail fault : Exec α) := fun _ hs => ⟨h, hs⟩

theorem holds_emit (e : Event) : Holds good allowed (fun _ => True) (emit e) :=
  fun _ hs => ⟨trivial, hs⟩

theorem holds_freshId : Holds good allowed (fun _ => True) freshId := fun _ hs => ⟨trivial, hs⟩

theorem holds_depth : Holds good allowed (fun _ => True) depth := fun _ hs => ⟨trivial, hs⟩

theorem Holds.bind {x : Exec α} {f : α → Exec β} {goal : β → Prop}
    (hx : Holds good allowed post x) (hf : ∀ a, post a → Holds good allowed goal (f a)) :
    Holds good allowed goal (x >>= f) := by
  intro s hs
  apply Outcome.Meets.bind
  exact (hx s hs).mono (fun a t h => hf a h.1 t h.2) (fun _ _ h => h)

theorem holds_trace {settings : Settings} {entry : Trace} (h : entry.text.isWhole = true) :
    Holds good allowed (fun _ => True) (trace settings entry) := by
  unfold trace
  split
  · simp only [h, Bool.not_true, Bool.and_false, Bool.false_eq_true, if_false]
    exact holds_emit _
  · exact holds_pure trivial

theorem Holds.inNewFrame {x : Exec α} (h : Holds good allowed post x) :
    Holds good allowed post (inNewFrame x) := by
  intro s hs
  apply Outcome.Meets.restore
  exact h _ (Store.all_push hs _)

end Exec

namespace Exec

theorem define_eq (t : Token) (v : Value) (s : State) :
    define t v s =
      match Name.ofDatum? t.lexeme with
      | some name => .done () { s with store := s.store.define s.frame name v }
      | none => .failed (.defect .unusableName) s := by
  unfold define nameOf
  cases Name.ofDatum? t.lexeme <;> rfl

theorem lookup_eq (t : Token) (s : State) :
    lookup t s =
      match Name.ofDatum? t.lexeme with
      | some name =>
        match s.store.get? s.frame name with
        | some value => .done value s
        | none => .failed (.error ⟨t, .undefinedVariable t.lexeme⟩) s
      | none => .failed (.defect .unusableName) s := by
  unfold lookup nameOf
  cases Name.ofDatum? t.lexeme <;> rfl

theorem assign_eq (t : Token) (v : Value) (s : State) :
    assign t v s =
      match Name.ofDatum? t.lexeme with
      | some name =>
        match s.store.find s.frame name with
        | some frame => .done () { s with store := s.store.define frame name v }
        | none => .failed (.error ⟨t, .undefinedTarget t.lexeme⟩) s
      | none => .failed (.defect .unusableName) s := by
  unfold assign nameOf
  cases Name.ofDatum? t.lexeme <;> rfl

variable {good : Value → Prop} {allowed : Fault → Prop} {post : α → Prop}

theorem holds_ofExcept {r : Except Fault α} (hok : ∀ a, r = .ok a → post a)
    (herror : ∀ fault, r = .error fault → allowed fault) :
    Holds good allowed post (ofExcept r) := by
  cases r with
  | ok a => exact holds_pure (hok a rfl)
  | error fault => exact holds_fail (herror fault rfl)

theorem holds_define (hname : allowed (.defect .unusableName)) (t : Token) {v : Value}
    (hv : good v) : Holds good allowed (fun _ => True) (define t v) := by
  intro s hs
  rw [define_eq]
  cases Name.ofDatum? t.lexeme with
  | none => exact ⟨hname, hs⟩
  | some name => exact ⟨trivial, Store.all_define hs _ _ hv⟩

theorem holds_lookup (hname : allowed (.defect .unusableName)) (herror : ∀ e, allowed (.error e))
    (t : Token) : Holds good allowed good (lookup t) := by
  intro s hs
  rw [lookup_eq]
  cases Name.ofDatum? t.lexeme with
  | none => exact ⟨hname, hs⟩
  | some name =>
    dsimp only
    split
    · rename_i v hv
      exact ⟨Store.all_get? hs hv, hs⟩
    · exact ⟨herror _, hs⟩

theorem holds_assign (hname : allowed (.defect .unusableName)) (herror : ∀ e, allowed (.error e))
    (t : Token) {v : Value} (hv : good v) :
    Holds good allowed (fun _ => True) (assign t v) := by
  intro s hs
  rw [assign_eq]
  cases Name.ofDatum? t.lexeme with
  | none => exact ⟨hname, hs⟩
  | some name =>
    dsimp only
    split
    · exact ⟨trivial, Store.all_define hs _ _ hv⟩
    · exact ⟨herror _, hs⟩

end Exec

end Lox
