import Lox.Proofs.Machine.Safety
import Lox.Proofs.Tree.Record

/-!
Trees of whole texts can be traced. A tree from a file may hold half a surrogate pair, which the
trace file cannot take. If none of its tokens does, no value that a run makes does either, so that
every entry is taken, whatever else may be wrong with the tree.
-/
namespace Lox

/-- A token whose lexeme and literal are shown in whole characters. -/
structure Token.Whole (t : Token) : Prop where
  lexeme : t.lexeme.text.isWhole = true
  literal : t.literal.text.isWhole = true

/-- A value that is shown in whole characters, and whose function, if it is one, only makes such
values. Foreign data that is no text shows what it holds in quotes, where halves are escaped. -/
def Value.Whole : Value → Prop
  | .string s => s.isWhole = true
  | .function _ d => d.node.All Token.Whole
  | _ => True

theorem Value.whole_nil : Value.nil.Whole := trivial

theorem Value.Whole.isWhole_inspect {v : Value} (h : v.Whole) : v.inspect.isWhole = true := by
  cases v with
  | string s =>
    have hs : s.isWhole = true := h
    simp [inspect, hs]
  | bool b => cases b <;> rfl
  | foreign f place => cases f <;> rfl
  | _ => rfl

theorem Value.whole_ofDatum {d : Datum} (h : d.text.isWhole = true) (place : Place) :
    (Value.ofDatum place d).Whole := by
  cases d with
  | str s => exact h
  | _ => trivial

def Fault.Written (fault : Fault) : Prop := fault ≠ .defect .unwritableTrace

theorem Fault.written_error (e : RuntimeError) : (Fault.error e).Written := nofun

theorem Fault.written_defect {d : Defect} (h : d ≠ .unwritableTrace) : (Fault.defect d).Written :=
  fun hd => h (Fault.defect.inj hd)

def Fault.WholeOutcome : Except Fault Value → Prop
  | .ok v => v.Whole
  | .error fault => fault.Written

theorem Token.whole_value {t : Token} (h : t.Whole) : Fault.WholeOutcome t.value := by
  unfold Token.value
  split
  · trivial
  · trivial
  · trivial
  · exact Value.whole_ofDatum h.literal _
  · exact Value.whole_ofDatum h.literal _
  · exact Fault.written_defect nofun

theorem applyUnary_whole (operator : Token) (v : Value) :
    Fault.WholeOutcome (applyUnary operator v) := by
  unfold applyUnary
  split
  · split
    · trivial
    · exact Fault.written_error _
  · trivial
  · exact Fault.written_defect nofun

theorem arithmetic?_whole {kind : Kind} {x y : Number} {v : Value}
    (h : arithmetic? kind x y = some v) : v.Whole := by
  cases kind <;> cases h <;> trivial

theorem applyBinary_whole (operator : Token) {a b : Value} (ha : a.Whole) (hb : b.Whole) :
    Fault.WholeOutcome (applyBinary operator a b) := by
  unfold applyBinary
  split
  · split
    · trivial
    · rename_i s t
      have hs : s.isWhole = true := ha
      have ht : t.isWhole = true := hb
      exact (Text.isWhole_append s t).trans (by rw [hs, ht]; rfl)
    · exact Fault.written_error _
  · trivial
  · trivial
  · split
    · split
      · rename_i hv
        exact arithmetic?_whole hv
      · exact Fault.written_defect nofun
    · exact Fault.written_error _

/-- From a store of whole values a step comes to such a store, and its entries were taken. -/
def Exec.Writes {α : Type} (post : α → Prop) (x : Exec α) : Prop :=
  Holds Value.Whole Fault.Written post x

namespace Exec

theorem writes_settle {r : Except Fault Value} (h : Fault.WholeOutcome r) :
    Writes Value.Whole (ofExcept r) := by
  refine holds_ofExcept (fun v hv => ?_) fun fault hfault => ?_
  · rwa [hv] at h
  · rwa [hfault] at h

theorem writes_define (t : Token) {v : Value} (hv : v.Whole) :
    Writes (fun _ => True) (define t v) := holds_define (Fault.written_defect nofun) t hv

theorem writes_lookup (t : Token) : Writes Value.Whole (lookup t) :=
  holds_lookup (Fault.written_defect nofun) Fault.written_error t

theorem writes_assign (t : Token) {v : Value} (hv : v.Whole) :
    Writes (fun _ => True) (assign t v) :=
  holds_assign (Fault.written_defect nofun) Fault.written_error t hv

end Exec

def Query.Whole : {α : Type} → Query α → Prop
  | _, .execute n | _, .evaluate n => n.All Token.Whole
  | _, .executeAll last ns => last.Whole ∧ Node.AllItems Token.Whole ns
  | _, .iterate condition body => condition.All Token.Whole ∧ body.All Token.Whole
  | _, .evaluateAll ns => Node.AllItems Token.Whole ns
  | _, .invoke callee _ args => callee.Whole ∧ Node.AllItems Token.Whole args

def Plan.Writes {α : Type} (settings : Settings) (post : α → Prop) (p : Plan α) : Prop :=
  p.Sound settings Value.Whole Fault.Written (fun _ query => query.Whole)
    (fun _ query => query.Whole) post

section Plans

open Exec

variable {settings : Settings}

theorem Plan.writes_misplaced (role : Role) (n : Node) :
    (Plan.misplaced role n).Writes settings Value.Whole :=
  .step (holds_fail (Fault.written_defect (by simp))) fun _ hv => .done hv

theorem Node.writes_execute {n : Node} (h : n.All Token.Whole) :
    (Query.execute n).plan.Writes settings Value.Whole := by
  cases n with
  | expression value => exact .ask h fun v hv => .done hv
  | print value => exact .ask h fun v _ => .step (holds_emit _) fun _ _ => .done Value.whole_nil
  | var target initial =>
    obtain ⟨ht, hi⟩ := h
    refine .ask hi fun v hv => .step (writes_define target hv) fun _ _ => ?_
    have htrace := Trace.isWhole_declare ht.lexeme (Value.Whole.isWhole_inspect hv)
    exact .step (holds_trace htrace) fun _ _ => .done Value.whole_nil
  | block statements =>
    exact .scope (.ask ⟨Value.whole_nil, h⟩ fun _ _ => .done trivial) (.done Value.whole_nil)
  | ifElse condition thenBranch elseBranch =>
    obtain ⟨hc, ht, he⟩ := h
    refine .ask hc fun v hv => ?_
    have htrace := Trace.isWhole_ifCondition (Value.Whole.isWhole_inspect hv)
    refine .step (holds_trace htrace) fun _ _ => .ask ?_ fun _ _ => .done Value.whole_nil
    split
    · exact ht
    · exact he
  | loop condition body => exact .ask h fun v hv => .done hv
  | function target params body =>
    refine .step holds_freshId fun id _ => ?_
    have hvalue : (Value.function id ⟨target, params, body⟩).Whole := h
    refine .step (writes_define target hvalue) fun _ _ => ?_
    refine .step (holds_trace ?_) fun _ _ => .done Value.whole_nil
    simp [Trace.text, h.1.lexeme]
  | _ => exact Plan.writes_misplaced _ _

theorem Node.writes_evaluate {n : Node} (h : n.All Token.Whole) :
    (Query.evaluate n).plan.Writes settings Value.Whole := by
  cases n with
  | literal token => exact .step (writes_settle (Token.whole_value h)) fun v hv => .done hv
  | grouping inside => exact .ask h fun v hv => .done hv
  | name token => exact .step (writes_lookup token) fun v hv => .done hv
  | assign target value =>
    obtain ⟨ht, he⟩ := h
    refine .ask he fun v hv => .step (writes_assign target hv) fun _ _ => ?_
    have htrace := Trace.isWhole_assign ht.lexeme (Value.Whole.isWhole_inspect hv)
    exact .step (holds_trace htrace) fun _ _ => .done hv
  | unary operator right =>
    exact .ask h.2 fun v _ => .step (writes_settle (applyUnary_whole operator v)) fun v hv =>
      .done hv
  | logical left operator right =>
    obtain ⟨hl, -, hr⟩ := h
    refine .ask hl fun v hv => ?_
    split
    · exact .done hv
    · exact .ask hr fun v hv => .done hv
  | binary left operator right =>
    obtain ⟨hl, -, hr⟩ := h
    exact .ask hl fun a ha => .ask hr fun b hb =>
      .step (writes_settle (applyBinary_whole operator ha hb)) fun v hv => .done hv
  | call callee paren args =>
    obtain ⟨hc, -, ha⟩ := h
    exact .ask hc fun f hf => .ask ⟨hf, ha⟩ fun v hv => .done hv
  | _ => exact Plan.writes_misplaced _ _

theorem Value.Whole.writes_invoke {callee : Value} (h : callee.Whole) (paren : Token)
    {args : List Node} (ha : Node.AllItems Token.Whole args) :
    (Query.invoke callee paren args).plan.Writes settings Value.Whole := by
  cases callee with
  | function id f =>
    obtain ⟨hname, -, hbody⟩ := h
    have harity : Fault.WholeOutcome (checkArity paren f.params.length args.length) := by
      unfold checkArity
      split
      · exact Fault.written_error _
      · trivial
    refine .step (writes_settle harity) fun _ _ => .ask ha fun vs hvs => ?_
    have hwhole (d : Nat) := Trace.isWhole_call d hname.lexeme
      fun v hv => Value.Whole.isWhole_inspect (hvs v hv)
    refine .step (holds_depth.bind fun d _ => holds_trace (hwhole d)) fun _ _ => ?_
    refine .call (Fault.written_error _) (.bindAll (fun p _ v hv => ?_) ?_) (.done Value.whole_nil)
    · exact writes_define p (hvs v hv)
    · exact .ask ⟨Value.whole_nil, hbody⟩ fun _ _ => .done trivial
  | native id name =>
    refine .ask ha fun vs _ => .step (holds_trace ?_) fun _ _ => ?_
    · simp [Trace.text]
    · exact .step (holds_pure trivial) fun v hv => .done hv
  | _ => exact .step (holds_fail (Fault.written_error _)) fun v hv => .done hv

theorem Query.Whole.writes {α : Type} {query : Query α} (h : query.Whole) :
    query.plan.Writes settings (query.Gives Value.Whole) := by
  cases query with
  | execute n => exact Node.writes_execute h
  | executeAll last ns =>
    obtain ⟨hlast, hns⟩ := h
    cases ns with
    | nil => exact .done hlast
    | cons n ns => exact .ask hns.1 fun v hv => .ask ⟨hv, hns.2⟩ fun v hv => .done hv
  | iterate condition body =>
    obtain ⟨hc, hb⟩ := h
    refine .ask hc fun v hv => ?_
    have htrace := Trace.isWhole_whileCondition (Value.Whole.isWhole_inspect hv)
    refine .step (holds_trace htrace) fun _ _ => ?_
    split
    · exact .ask hb fun _ _ => .ask ⟨hc, hb⟩ fun v hv => .done hv
    · exact .done Value.whole_nil
  | evaluate n => exact Node.writes_evaluate h
  | evaluateAll ns =>
    cases ns with
    | nil => exact .done nofun
    | cons n ns =>
      refine .ask h.1 fun v hv => .ask h.2 fun vs hvs => ?_
      exact .done (List.forall_mem_cons.2 ⟨hv, hvs⟩)
  | invoke callee paren args => exact Value.Whole.writes_invoke h.1 paren h.2

theorem Query.Whole.holds (settings : Settings) (fuel calls : Nat) {α : Type} {query : Query α}
    (h : query.Whole) : Writes (query.Gives Value.Whole) (query.run settings fuel calls) :=
  query.holds (fun _ query => query.Whole) (fun _ _ h => h.writes) fuel calls h

end Plans

end Lox
