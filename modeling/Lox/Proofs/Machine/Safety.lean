import Lox.Proofs.Machine.Sound
import Lox.Proofs.Store.Chain
import Lox.Proofs.Text.Encoding
import Lox.Proofs.Tree.Proper

/-!
Proper trees run without defects. All values that a run makes or finds bound are values of the
language, its functions come from declarations that were run, and an error names a token of a
source. What a step needs and keeps is one invariant of the store.
-/
namespace Lox

variable {source : Token → Prop} {stored : Declaration → Prop}

/-- A value of the language, whose function, if it is one, may be stored. -/
def Value.Proper (source : Token → Prop) (stored : Declaration → Prop) : Value → Prop
  | .nil | .bool _ | .number _ | .native .. => True
  | .string s => s.isWhole = true
  | .function _ d =>
    source d.name ∧ (∀ p ∈ d.params, source p) ∧ stored d ∧
      ∀ n ∈ d.body, n.Proper source stored .declaration
  | .foreign .. => False

def Store.Proper (source : Token → Prop) (stored : Declaration → Prop) (s : Store) : Prop :=
  ∀ f ∈ s.frames, ∀ b ∈ f.bindings, b.2.Proper source stored

/-- A fault of the program's own, at a token of a source that was not filled in. -/
def Fault.Fair (source : Token → Prop) : Fault → Prop
  | .error e => source e.token ∧ e.token.kind ∉ Grammar.literalKinds
  | .defect _ => False

theorem Value.proper_nil : Value.nil.Proper source stored := trivial

theorem Value.Proper.isWhole_inspect {v : Value} (h : v.Proper source stored) :
    v.inspect.isWhole = true := by
  cases v with
  | string s =>
    have hs : s.isWhole = true := h
    simp [inspect, hs]
  | bool b => cases b <;> rfl
  | foreign => exact h.elim
  | _ => rfl

theorem Token.IsConstant.value {t : Token} (h : t.IsConstant) :
    ∃ v, t.value = .ok v ∧ v.Proper source stored := by
  obtain ⟨kind, lexeme, line, literal, place⟩ := t
  unfold Token.IsConstant at h
  split at h
  · rename_i hkind
    cases hkind
    exact ⟨_, rfl, trivial⟩
  · rename_i hkind
    cases hkind
    exact ⟨_, rfl, trivial⟩
  · rename_i hkind
    cases hkind
    exact ⟨_, rfl, trivial⟩
  · rename_i hkind
    cases hkind
    obtain ⟨x, rfl⟩ := h
    exact ⟨_, rfl, trivial⟩
  · rename_i hkind
    cases hkind
    obtain ⟨s, rfl⟩ := h
    exact ⟨.string s, rfl, rfl⟩
  · exact h.elim

def Fault.Outcome (source : Token → Prop) (stored : Declaration → Prop) :
    Except Fault Value → Prop
  | .ok v => v.Proper source stored
  | .error e => e.Fair source

theorem applyUnary_proper {operator : Token} {v : Value} (ho : source operator)
    (hk : operator.kind ∈ [.bang, .minus]) :
    Fault.Outcome source stored (applyUnary operator v) := by
  have hfair : operator.kind ∉ Grammar.literalKinds := by
    revert hk
    generalize operator.kind = k
    revert k
    decide
  simp only [List.mem_cons, List.not_mem_nil, or_false] at hk
  obtain hk | hk := hk
  · simp only [applyUnary, hk]
    trivial
  · simp only [applyUnary, hk]
    cases v with
    | number x => trivial
    | _ => exact ⟨ho, hfair⟩

theorem arithmetic?_proper {kind : Kind} {x y : Number} (hk : kind ∈ binaryKinds)
    (hplus : kind ≠ .plus) (heq : kind ≠ .equalEqual) (hne : kind ≠ .bangEqual) :
    ∃ v, arithmetic? kind x y = some v ∧ v.Proper source stored := by
  simp only [binaryKinds, Grammar.Level.operators, List.cons_append, List.nil_append,
    List.mem_cons, List.not_mem_nil, or_false] at hk
  obtain rfl | rfl | rfl | rfl | rfl | rfl | rfl | rfl | rfl | rfl := hk
  all_goals first | contradiction | exact ⟨_, rfl, trivial⟩

theorem applyBinary_proper {operator : Token} {a b : Value} (ho : source operator)
    (hk : operator.kind ∈ binaryKinds) (ha : a.Proper source stored)
    (hb : b.Proper source stored) : Fault.Outcome source stored (applyBinary operator a b) := by
  have hfair : operator.kind ∉ Grammar.literalKinds := by
    revert hk
    generalize operator.kind = k
    revert k
    decide
  unfold applyBinary
  split
  · split
    · trivial
    · exact (Text.isWhole_append _ _).trans (by rw [ha, hb]; rfl)
    · exact ⟨ho, hfair⟩
  · trivial
  · trivial
  · rename_i hplus heq hne
    split
    · rename_i x y
      obtain ⟨v, hv, hproper⟩ := arithmetic?_proper (x := x) (y := y) hk hplus heq hne
      rw [hv]
      exact hproper
    · exact ⟨ho, hfair⟩

/-- From a proper store a step comes to a proper store, with a value that is as promised or by a
fair fault. -/
def Exec.Safe {α : Type} (source : Token → Prop) (stored : Declaration → Prop) (post : α → Prop)
    (x : Exec α) : Prop :=
  Holds (Value.Proper source stored) (Fault.Fair source) post x

namespace Exec

theorem safe_settle {r : Except Fault Value} (h : Fault.Outcome source stored r) :
    Safe source stored (Value.Proper source stored) (ofExcept r) := by
  cases r with
  | ok v => exact holds_pure h
  | error e => exact holds_fail h

theorem safe_define {t : Token} {v : Value} (h : ∃ name : String, t.lexeme = .str name)
    (hv : v.Proper source stored) : Safe source stored (fun _ => True) (define t v) := by
  obtain ⟨name, h⟩ := h
  intro s hs
  rw [define_eq, h]
  exact ⟨trivial, Store.all_define hs _ _ hv⟩

theorem safe_lookup {t : Token} (h : ∃ name : String, t.lexeme = .str name) (ht : source t)
    (hk : t.kind = .identifier) :
    Safe source stored (Value.Proper source stored) (lookup t) := by
  obtain ⟨name, h⟩ := h
  intro s hs
  rw [lookup_eq, h]
  dsimp only [Name.ofDatum?]
  split
  · rename_i v hv
    exact ⟨Store.all_get? hs hv, hs⟩
  · exact ⟨⟨ht, by simp [hk, Grammar.literalKinds]⟩, hs⟩

theorem safe_assign {t : Token} {v : Value} (h : ∃ name : String, t.lexeme = .str name)
    (ht : source t) (hk : t.kind = .identifier) (hv : v.Proper source stored) :
    Safe source stored (fun _ => True) (assign t v) := by
  obtain ⟨name, h⟩ := h
  intro s hs
  rw [assign_eq, h]
  dsimp only [Name.ofDatum?]
  split
  · exact ⟨trivial, Store.all_define hs _ _ hv⟩
  · exact ⟨⟨ht, by simp [hk, Grammar.literalKinds]⟩, hs⟩

end Exec

namespace Trace

variable {name : Datum}

theorem isWhole_declare {v : Value} (h : name.text.isWhole = true)
    (hv : v.inspect.isWhole = true) : (Trace.declare name v).text.isWhole = true := by
  simp [text, h, hv]

theorem isWhole_assign {v : Value} (h : name.text.isWhole = true)
    (hv : v.inspect.isWhole = true) : (Trace.assign name v).text.isWhole = true := by
  simp [text, h, hv]

theorem isWhole_ifCondition {v : Value} (hv : v.inspect.isWhole = true) :
    (Trace.ifCondition v).text.isWhole = true := by
  simp [text, hv]

theorem isWhole_whileCondition {v : Value} (hv : v.inspect.isWhole = true) :
    (Trace.whileCondition v).text.isWhole = true := by
  simp [text, hv]

theorem isWhole_call {values : List Value} (depth : Nat) (h : name.text.isWhole = true)
    (hv : ∀ v ∈ values, v.inspect.isWhole = true) :
    (Trace.call name values depth).text.isWhole = true := by
  have hargs : (Text.joinWith ", " (values.map Value.inspect)).isWhole = true := by
    apply Text.isWhole_joinWith rfl
    intro t ht
    obtain ⟨v, hmem, rfl⟩ := List.mem_map.1 ht
    exact hv v hmem
  simp [text, h, hargs]

end Trace

def Query.Proper (source : Token → Prop) (stored : Declaration → Prop) :
    {α : Type} → Query α → Prop
  | _, .execute n => n.Proper source stored .declaration
  | _, .executeAll last ns =>
    last.Proper source stored ∧ ∀ n ∈ ns, n.Proper source stored .declaration
  | _, .iterate condition body =>
    condition.Proper source stored .expression ∧ body.Proper source stored .statement
  | _, .evaluate n => n.Proper source stored .expression
  | _, .evaluateAll ns => ∀ n ∈ ns, n.Proper source stored .expression
  | _, .invoke callee paren args =>
    callee.Proper source stored ∧ source paren ∧ paren.kind = .rightParen ∧
      ∀ a ∈ args, a.Proper source stored .expression

def Plan.Safe {α : Type} (settings : Settings) (source : Token → Prop)
    (stored : Declaration → Prop) (post : α → Prop) (p : Plan α) : Prop :=
  p.Sound settings (Value.Proper source stored) (Fault.Fair source)
    (fun _ query => query.Proper source stored) (fun _ query => query.Proper source stored) post

section Plans

open Exec

variable {settings : Settings}

theorem isWhole_lexeme (hname : ∀ t, source t → ∃ name : String, t.lexeme = .str name)
    {t : Token} (ht : source t) : t.lexeme.text.isWhole = true := by
  obtain ⟨name, h⟩ := hname t ht
  rw [h]
  rfl

theorem Node.Proper.safe_execute (hname : ∀ t, source t → ∃ name : String, t.lexeme = .str name)
    {n : Node} (h : n.Proper source stored .declaration) :
    (Query.execute n).plan.Safe settings source stored (Value.Proper source stored) := by
  cases h with
  | var ht hi =>
    refine .ask hi fun v hv => .step (safe_define (hname _ ht) hv) fun _ _ => ?_
    have htrace := Trace.isWhole_declare (isWhole_lexeme hname ht) (Value.Proper.isWhole_inspect hv)
    exact .step (holds_trace htrace) fun _ _ => .done trivial
  | @function target params body ht hp hs hb =>
    refine .step holds_freshId fun id _ => ?_
    have hvalue : (Value.function id ⟨target, params, body⟩).Proper source stored :=
      ⟨ht, hp, hs, hb⟩
    refine .step (safe_define (hname _ ht) hvalue) fun _ _ => ?_
    refine .step (holds_trace ?_) fun _ _ => .done trivial
    simp [Trace.text, isWhole_lexeme hname ht]
  | statement h =>
    cases h with
    | simple he => exact .ask he fun v hv => .done hv
    | print he => exact .ask he fun v _ => .step (holds_emit _) fun _ _ => .done trivial
    | block hb => exact .scope (.ask ⟨trivial, hb⟩ fun _ _ => .done trivial) (.done trivial)
    | ifElse hc ht he =>
      refine .ask hc fun v hv => ?_
      have htrace := Trace.isWhole_ifCondition (Value.Proper.isWhole_inspect hv)
      refine .step (holds_trace htrace) fun _ _ => .ask ?_ fun _ _ => .done trivial
      split
      · exact .statement ht
      · exact .statement he
    | loop hc hb => exact .ask ⟨hc, hb⟩ fun v hv => .done hv

theorem Node.Proper.safe_evaluate (hname : ∀ t, source t → ∃ name : String, t.lexeme = .str name)
    {n : Node} (h : n.Proper source stored .expression) :
    (Query.evaluate n).plan.Safe settings source stored (Value.Proper source stored) := by
  cases h with
  | literal ht =>
    obtain ⟨v, hv, hproper⟩ := @Token.IsConstant.value source stored _ ht
    refine .step (safe_settle ?_) fun v hv => .done hv
    rw [hv]
    exact hproper
  | grouping he => exact .ask he fun v hv => .done hv
  | name ht hk => exact .step (safe_lookup (hname _ ht) ht hk) fun v hv => .done hv
  | assign ht hk he =>
    refine .ask he fun v hv => .step (safe_assign (hname _ ht) ht hk hv) fun _ _ => ?_
    have htrace := Trace.isWhole_assign (isWhole_lexeme hname ht) (Value.Proper.isWhole_inspect hv)
    exact .step (holds_trace htrace) fun _ _ => .done hv
  | unary ho hk he =>
    exact .ask he fun v _ => .step (safe_settle (applyUnary_proper ho hk)) fun v hv => .done hv
  | logical hl hr =>
    refine .ask hl fun v hv => ?_
    split
    · exact .done hv
    · exact .ask hr fun v hv => .done hv
  | binary hl ho hk hr =>
    exact .ask hl fun a ha => .ask hr fun b hb =>
      .step (safe_settle (applyBinary_proper ho hk ha hb)) fun v hv => .done hv
  | call hc hp hk ha => exact .ask hc fun f hf => .ask ⟨hf, hp, hk, ha⟩ fun v hv => .done hv

theorem Value.Proper.safe_invoke (hname : ∀ t, source t → ∃ name : String, t.lexeme = .str name)
    {callee : Value} {paren : Token} {args : List Node} (h : callee.Proper source stored)
    (hp : source paren) (hk : paren.kind = .rightParen)
    (ha : ∀ a ∈ args, a.Proper source stored .expression) :
    (Query.invoke callee paren args).plan.Safe settings source stored
      (Value.Proper source stored) := by
  have hkind : paren.kind ∉ Grammar.literalKinds := by
    rw [hk]
    decide
  have hfair (cause : Cause) : (Fault.error ⟨paren, cause⟩).Fair source := ⟨hp, hkind⟩
  cases callee with
  | function id f =>
    obtain ⟨hfun, hparams, -, hbody⟩ := h
    have harity : Fault.Outcome source stored
        (checkArity paren f.params.length args.length) := by
      unfold checkArity
      split
      · exact hfair _
      · trivial
    refine .step (safe_settle harity) fun _ _ => .ask ha fun vs hvs => ?_
    have hwhole (d : Nat) := Trace.isWhole_call d (isWhole_lexeme hname hfun)
      fun v hv => Value.Proper.isWhole_inspect (hvs v hv)
    refine .step (holds_depth.bind fun d _ => holds_trace (hwhole d)) fun _ _ => ?_
    refine .call (hfair _) (.bindAll (fun p hp v hv => ?_) ?_) (.done trivial)
    · exact safe_define (hname p (hparams p hp)) (hvs v hv)
    · exact .ask ⟨trivial, hbody⟩ fun _ _ => .done trivial
  | native id name =>
    refine .ask ha fun vs _ => .step (holds_trace ?_) fun _ _ => ?_
    · simp [Trace.text]
    · exact .step (holds_pure trivial) fun v hv => .done hv
  | foreign => exact h.elim
  | _ => exact .step (holds_fail (hfair _)) fun v hv => .done hv

theorem Query.Proper.safe (hname : ∀ t, source t → ∃ name : String, t.lexeme = .str name)
    {α : Type} {query : Query α} (h : query.Proper source stored) :
    query.plan.Safe settings source stored (query.Gives (Value.Proper source stored)) := by
  cases query with
  | execute n => exact Node.Proper.safe_execute hname h
  | executeAll last ns =>
    obtain ⟨hlast, hns⟩ := h
    cases ns with
    | nil => exact .done hlast
    | cons n ns =>
      refine .ask (hns n (by simp)) fun v hv => .ask ⟨hv, fun m hm => ?_⟩ fun v hv => .done hv
      exact hns m (by simp [hm])
  | iterate condition body =>
    obtain ⟨hc, hb⟩ := h
    refine .ask hc fun v hv => ?_
    have htrace := Trace.isWhole_whileCondition (Value.Proper.isWhole_inspect hv)
    refine .step (holds_trace htrace) fun _ _ => ?_
    split
    · exact .ask (.statement hb) fun _ _ => .ask ⟨hc, hb⟩ fun v hv => .done hv
    · exact .done trivial
  | evaluate n => exact Node.Proper.safe_evaluate hname h
  | evaluateAll ns =>
    cases ns with
    | nil => exact .done nofun
    | cons n ns =>
      refine .ask (h n (by simp)) fun v hv => .ask (fun m hm => h m (by simp [hm])) fun vs hvs => ?_
      exact .done (List.forall_mem_cons.2 ⟨hv, hvs⟩)
  | invoke callee paren args => exact Value.Proper.safe_invoke hname h.1 h.2.1 h.2.2.1 h.2.2.2

theorem Query.Proper.holds (settings : Settings)
    (hname : ∀ t, source t → ∃ name : String, t.lexeme = .str name) (fuel calls : Nat) {α : Type}
    {query : Query α} (h : query.Proper source stored) :
    Safe source stored (query.Gives (Value.Proper source stored)) (query.run settings fuel calls) :=
  query.holds (fun _ query => query.Proper source stored) (fun _ _ h => h.safe hname) fuel calls h

end Plans

end Lox
