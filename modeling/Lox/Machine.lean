import Lox.Event
import Lox.Fault
import Lox.Store

/-!
The state of a running program and the steps it is made of. A step may end with a value, with a
fault, or without an answer because its fuel was spent; a fault leaves the state as it was when
it struck, except that the current frame is always restored.
-/
namespace Lox

structure Settings where
  verbosity : Nat
  /-- The time that the clock shows, in seconds. -/
  now : Number
  /-- The number of calls that may be active at once. -/
  maxCalls : Nat
  /-- Whether the trace goes to its file, which takes whole characters only. -/
  traceFile : Bool := decide (0 < verbosity)

def Settings.defaultMaxCalls : Nat := 1650

structure State where
  store : Store
  frame : Nat
  nextId : Nat
  /-- The events so far, the latest first. -/
  log : List Event

def State.initial : State := ⟨Store.empty.pushGlobal 0, 0, 0, []⟩

inductive Outcome (α : Type) where
  | done (value : α) (state : State)
  | failed (fault : Fault) (state : State)
  | outOfFuel

def Exec (α : Type) : Type := State → Outcome α

namespace Exec

@[always_inline, inline]
protected def pure {α : Type} (a : α) : Exec α := fun s => .done a s

@[always_inline, inline]
protected def bind {α β : Type} (x : Exec α) (f : α → Exec β) : Exec β := fun s =>
  match x s with
  | .done a s => f a s
  | .failed e s => .failed e s
  | .outOfFuel => .outOfFuel

instance : Monad Exec where
  pure := Exec.pure
  bind := Exec.bind

theorem bind_of_done {α β : Type} {x : Exec α} {f : α → Exec β} {s t : State} {a : α}
    (h : x s = .done a t) : (x >>= f) s = f a t := by
  simp only [Bind.bind, Exec.bind, h]

theorem bind_of_failed {α β : Type} {x : Exec α} {f : α → Exec β} {s t : State} {e : Fault}
    (h : x s = .failed e t) : (x >>= f) s = .failed e t := by
  simp only [Bind.bind, Exec.bind, h]

theorem bind_of_outOfFuel {α β : Type} {x : Exec α} {f : α → Exec β} {s : State}
    (h : x s = .outOfFuel) : (x >>= f) s = .outOfFuel := by
  simp only [Bind.bind, Exec.bind, h]

def outOfFuel {α : Type} : Exec α := fun _ => .outOfFuel

def fail {α : Type} (fault : Fault) : Exec α := fun s => .failed fault s

def error {α : Type} (token : Token) (cause : Cause) : Exec α := fail (.error ⟨token, cause⟩)

def ofExcept {α : Type} : Except Fault α → Exec α
  | .ok a => fun s => .done a s
  | .error fault => fail fault

def emit (e : Event) : Exec Unit := fun s => .done () { s with log := e :: s.log }

def trace (settings : Settings) (entry : Trace) : Exec Unit :=
  if entry.level ≤ settings.verbosity then
    if settings.traceFile && !entry.text.isWhole then fail (.defect .unwritableTrace)
    else emit (.traced entry)
  else pure ()

def print (line : Text) : Exec Unit := emit (.printed line)

def freshId : Exec Nat := fun s => .done s.nextId { s with nextId := s.nextId + 1 }

def depth : Exec Nat := fun s => .done (s.store.depth s.frame) s

def nameOf (t : Token) : Exec Name :=
  match Name.ofDatum? t.lexeme with
  | some name => pure name
  | none => fail (.defect .unusableName)

def define (t : Token) (value : Value) : Exec Unit := do
  let name ← nameOf t
  fun s => .done () { s with store := s.store.define s.frame name value }

def lookup (t : Token) : Exec Value := do
  let name ← nameOf t
  fun s =>
    match s.store.get? s.frame name with
    | some value => .done value s
    | none => .failed (.error ⟨t, .undefinedVariable t.lexeme⟩) s

def assign (t : Token) (value : Value) : Exec Unit := do
  let name ← nameOf t
  fun s =>
    match s.store.find s.frame name with
    | some frame => .done () { s with store := s.store.define frame name value }
    | none => .failed (.error ⟨t, .undefinedTarget t.lexeme⟩) s

/-- Binds parameters to arguments, as far as both go. -/
def bindAll : List Token → List Value → Exec Unit
  | t :: ts, v :: vs => do
    define t v
    bindAll ts vs
  | _, _ => pure ()

def restore {α : Type} (frame : Nat) : Outcome α → Outcome α
  | .done a s => .done a { s with frame := frame }
  | .failed e s => .failed e { s with frame := frame }
  | .outOfFuel => .outOfFuel

@[always_inline, inline]
def inNewFrame {α : Type} (body : Exec α) : Exec α := fun s =>
  let current := s.frame
  let fresh := s.store.frames.size
  restore current (body { s with store := s.store.push (some current), frame := fresh })

end Exec

end Lox
