import Lox.Event
import Lox.Machine
import Lox.Machine.Operator
import Lox.Proofs.Store.Chain
import Lox.Proofs.Tree.Lines

/-!
Values, stores and events without lines. A function remembers its declaration and with it the
lines of its tokens, and this is the one place where a value holds any: what a value shows, what
it equals and what it does as an operand is the same without them.
-/
namespace Lox

def Declaration.unlined (d : Declaration) : Declaration :=
  ⟨d.name.unlined, d.params.map Token.unlined, Node.unlinedAll d.body⟩

namespace Value

def unlined : Value → Value
  | .function id d => .function id d.unlined
  | v => v

@[simp] theorem typeName_unlined (v : Value) : v.unlined.typeName = v.typeName := by
  cases v <;> rfl

@[simp] theorem isTruthy_unlined (v : Value) : v.unlined.isTruthy = v.isTruthy := by
  cases v <;> rfl

@[simp] theorem display_unlined (v : Value) : v.unlined.display = v.display := by
  cases v <;> rfl

@[simp] theorem inspect_unlined (v : Value) : v.unlined.inspect = v.inspect := by
  cases v <;> rfl

@[simp] theorem equal_unlined (a b : Value) : a.unlined.equal b.unlined = a.equal b := by
  cases a <;> cases b <;> rfl

/-- Two values that programs cannot tell apart by showing them. -/
structure Alike (v w : Value) : Prop where
  typeName : v.typeName = w.typeName
  display : v.display = w.display
  inspect : v.inspect = w.inspect

theorem alike_of_unlined {v w : Value} (h : v.unlined = w.unlined) : v.Alike w where
  typeName := by rw [← typeName_unlined, h, typeName_unlined]
  display := by rw [← display_unlined, h, display_unlined]
  inspect := by rw [← inspect_unlined, h, inspect_unlined]

end Value

def Frame.unlinedBindings (bindings : List (Name × Value)) : List (Name × Value) :=
  bindings.map fun b => (b.1, b.2.unlined)

def Frame.unlined (f : Frame) : Frame := { f with bindings := unlinedBindings f.bindings }

namespace Frame

@[simp] theorem parent_unlined (f : Frame) : f.unlined.parent = f.parent := rfl

theorem insert_unlined (name : Name) (value : Value) (bindings : List (Name × Value)) :
    insert name value.unlined (unlinedBindings bindings) =
      unlinedBindings (insert name value bindings) := by
  induction bindings with
  | nil => rfl
  | cons b r ih =>
    obtain ⟨n, v⟩ := b
    by_cases h : n = name
    · simp [unlinedBindings, insert, h]
    · simpa [unlinedBindings, insert, h] using ih

theorem define_unlined (f : Frame) (name : Name) (value : Value) :
    f.unlined.define name value.unlined = (f.define name value).unlined := by
  simp only [define, unlined, insert_unlined]

@[simp] theorem get?_unlined (f : Frame) (name : Name) :
    f.unlined.get? name = (f.get? name).map Value.unlined := by
  obtain ⟨parent, bindings⟩ := f
  induction bindings with
  | nil => rfl
  | cons b r ih =>
    obtain ⟨n, v⟩ := b
    by_cases h : name = n
    · simp [get?, unlined, unlinedBindings, h]
    · simpa [get?, unlined, unlinedBindings, List.lookup_cons, beq_false_of_ne h] using ih

@[simp] theorem binds_unlined (f : Frame) (name : Name) : f.unlined.binds name = f.binds name := by
  simp [binds]

end Frame

namespace Store

theorem eq_of_frames {s t : Store} (h : s.frames = t.frames) : s = t := by
  cases s
  cases t
  cases h
  rfl

def unlined (s : Store) : Store where
  frames := s.frames.map Frame.unlined
  parent_lt := by
    intro i h p hp
    rw [Array.size_map] at h
    rw [Array.getElem_map] at hp
    exact s.parent_lt i h p hp

@[simp] theorem size_unlined (s : Store) : s.unlined.frames.size = s.frames.size :=
  Array.size_map

theorem getElem?_unlined (s : Store) (frame : Nat) :
    s.unlined.frames[frame]? = (s.frames[frame]?).map Frame.unlined :=
  Array.getElem?_map

theorem push_unlined (s : Store) (parent : Option Nat) :
    s.unlined.push parent = (s.push parent).unlined := by
  apply eq_of_frames
  simp [push, unlined, Frame.unlined, Frame.unlinedBindings]

theorem define_unlined (s : Store) (frame : Nat) (name : Name) (value : Value) :
    s.unlined.define frame name value.unlined = (s.define frame name value).unlined := by
  apply eq_of_frames
  apply Array.ext_getElem?
  intro i
  rw [getElem?_define, getElem?_unlined, getElem?_unlined, getElem?_define]
  split
  · simp only [Option.map_map, Function.comp_def, Frame.define_unlined]
  · rfl

theorem find_unlined (s : Store) (frame : Nat) (name : Name) :
    s.unlined.find frame name = s.find frame name := by
  induction frame using Nat.strongRecOn with
  | ind frame ih =>
    rw [find_eq, find_eq s, getElem?_unlined]
    cases hf : s.frames[frame]? with
    | none => rfl
    | some f =>
      simp only [Option.map_some, Frame.binds_unlined, Frame.parent_unlined]
      cases hp : f.parent with
      | none => rfl
      | some parent =>
        have hparent : s.parent? frame = some parent := by simp [parent?, hf, hp]
        simp only [Option.bind_some, ih parent (parent?_lt hparent)]

theorem parent?_unlined (s : Store) (frame : Nat) : s.unlined.parent? frame = s.parent? frame := by
  unfold parent?
  rw [getElem?_unlined]
  cases s.frames[frame]? <;> rfl

theorem depth_unlined (s : Store) (frame : Nat) : s.unlined.depth frame = s.depth frame := by
  induction frame using Nat.strongRecOn with
  | ind frame ih =>
    rw [depth_eq, depth_eq s, parent?_unlined]
    cases hp : s.parent? frame with
    | none => rfl
    | some parent => simp only [ih parent (parent?_lt hp)]

theorem get?_unlined (s : Store) (frame : Nat) (name : Name) :
    s.unlined.get? frame name = (s.get? frame name).map Value.unlined := by
  unfold get? at?
  rw [find_unlined]
  cases s.find frame name with
  | none => rfl
  | some i =>
    simp only [Option.bind_some, getElem?_unlined]
    cases s.frames[i]? with
    | none => rfl
    | some f => simp

theorem pushGlobal_unlined (s : Store) (firstId : Nat) :
    s.unlined.pushGlobal firstId = (s.pushGlobal firstId).unlined := by
  simp only [pushGlobal, natives, size_unlined, push_unlined, List.zipIdx_cons, List.zipIdx_nil,
    List.foldl_cons, List.foldl_nil]
  exact define_unlined _ _ _ (.native _ _)

theorem bindings_unlined (s : Store) (frame : Nat) :
    s.unlined.bindings frame = Frame.unlinedBindings (s.bindings frame) := by
  unfold bindings
  rw [getElem?_unlined]
  cases s.frames[frame]? <;> rfl

end Store

namespace Trace

def unlined : Trace → Trace
  | .call name arguments depth => .call name (arguments.map Value.unlined) depth
  | .declare name value => .declare name value.unlined
  | .assign name value => .assign name value.unlined
  | .ifCondition value => .ifCondition value.unlined
  | .whileCondition value => .whileCondition value.unlined
  | entry => entry

@[simp] theorem level_unlined (entry : Trace) : entry.unlined.level = entry.level := by
  cases entry <;> rfl

@[simp] theorem text_unlined (entry : Trace) : entry.unlined.text = entry.text := by
  cases entry <;> simp [unlined, text, Function.comp_def]

end Trace

namespace Event

def unlined : Event → Event
  | .printed line => .printed line
  | .traced entry => .traced entry.unlined
  | .reported d => .reported d.unlined

@[simp] theorem output_unlined (traceFile : Bool) (e : Event) :
    e.unlined.output traceFile = e.output traceFile := by
  cases e <;> simp [unlined, output]

@[simp] theorem trace_unlined (traceFile : Bool) (e : Event) :
    e.unlined.trace traceFile = e.trace traceFile := by
  cases e <;> simp [unlined, trace]

end Event

def Fault.unlined : Fault → Fault
  | .error e => .error { e with token := e.token.unlined }
  | .defect d => .defect d

def unlinedResult : Except Fault Value → Except Fault Value
  | .ok v => .ok v.unlined
  | .error fault => .error fault.unlined

theorem Token.value_unlined (t : Token) : t.unlined.value = unlinedResult t.value := by
  have hdatum (place : Place) (d : Datum) :
      (Value.ofDatum place d).unlined = Value.ofDatum place d := by
    cases d <;> rfl
  unfold Token.value
  rw [kind_unlined]
  cases t.kind <;> simp only [unlinedResult, Fault.unlined, hdatum] <;> rfl

theorem applyUnary_unlined (operator : Token) (a : Value) :
    applyUnary operator.unlined a.unlined = unlinedResult (applyUnary operator a) := by
  unfold applyUnary
  rw [Token.kind_unlined, Value.isTruthy_unlined]
  cases operator.kind <;> cases a <;> rfl

theorem applyBinary_unlined (operator : Token) (a b : Value) :
    applyBinary operator.unlined a.unlined b.unlined =
      unlinedResult (applyBinary operator a b) := by
  unfold applyBinary
  rw [Token.kind_unlined, Value.equal_unlined]
  cases a with
  | number x => cases b <;> cases operator.kind <;> rfl
  | string s => cases b <;> cases operator.kind <;> rfl
  | _ => cases operator.kind <;> rfl

end Lox
