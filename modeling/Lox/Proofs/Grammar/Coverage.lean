import Lox.Proofs.Grammar.Phrase
import Lox.Proofs.Grammar.Progress

/-!
Every phrase is read, as far as the depth allows, and for the node that it stands for; some kinds
of error may be put up with on the way. A parser never goes back, so the token after a phrase must
not be one that the phrase could have gone on with. A chain of operators or of calls groups to the
left and is read by a loop: its phrase leads to the loop that has the node so far and stands after
the phrase.
-/
namespace Lox.Grammar

open Lox.Parser

def Level.inner : Level → List Level
  | .or => [.or, .and, .equality, .comparison, .term, .factor]
  | .and => [.and, .equality, .comparison, .term, .factor]
  | .equality => [.equality, .comparison, .term, .factor]
  | .comparison => [.comparison, .term, .factor]
  | .term => [.term, .factor]
  | .factor => [.factor]

/-- The kinds with which a phrase of an operand could go on. -/
def Symbol.continues : Symbol → List Kind
  | .chain level => .leftParen :: level.inner.flatMap Level.operators
  | .expression => .equal :: .leftParen :: Level.or.inner.flatMap Level.operators
  | .arguments => .comma :: .equal :: .leftParen :: Level.or.inner.flatMap Level.operators
  | _ => [.leftParen]

def Level.parser (level : Level) (depth : Nat) : Parser Node :=
  match level.tighter? with
  | some tighter => Grammar.chain tighter depth
  | none => Grammar.unary depth

theorem Level.not_continues_of_operator {level : Level} {k : Kind} (h : k ∈ level.operators) :
    k ∉ level.operand.continues := by
  revert k
  cases level <;> decide

theorem Level.continues_operand_subset (level : Level) :
    level.operand.continues ⊆ (Symbol.chain level).continues := by
  cases level <;> decide

theorem Level.operators_subset (level : Level) :
    level.operators ⊆ (Symbol.chain level).continues := by
  cases level <;> decide

def KeepsTo (ok : Problem → Prop) (problem : Problem) (n : Nat) : Prop :=
  n ≤ maxArguments ∨ ok problem

theorem KeepsTo.mono {ok : Problem → Prop} {problem : Problem} {m n : Nat}
    (h : KeepsTo ok problem m) (hle : n ≤ m) : KeepsTo ok problem n :=
  h.imp_left (Nat.le_trans hle)

/-- What it means for the parser of a symbol to read a row of tokens as a node. -/
def Symbol.Covered (ok : Problem → Prop) : Symbol → List Token → Node → Prop
  | .primary, ts, n => ∀ depth c, Reads ok (Grammar.primary depth) (c.before ts) n c
  | .call, ts, n => ∀ depth c, ∃ turns : List Token, c.rest.length ≤ turns.length ∧
      Leads ok (Grammar.call (depth + 1) (c.before ts))
        (callTail (Grammar.expression depth) n turns c)
  | .unary, ts, n => ∀ depth c, c.peek.kind ∉ Symbol.unary.continues →
      Reads ok (Grammar.unary depth) (c.before ts) n c
  | .chain level, ts, n => ∀ depth c, c.peek.kind ∉ level.operand.continues →
      ∃ turns : List Token, c.rest.length ≤ turns.length ∧
        Leads ok (Grammar.chain level (depth + 1) (c.before ts))
          (chainTail level (level.parser depth) n turns c)
  | .expression, ts, n => ∀ depth c, c.peek.kind ∉ Symbol.expression.continues →
      Reads ok (Grammar.expression depth) (c.before ts) n c
  | .arguments, ts, n => ∀ args, n = .list args → ∀ depth c count (turns : List Token),
      c.peek.kind ∉ Symbol.arguments.continues →
      KeepsTo ok .tooManyArguments (count + args.length) →
      ts.length + c.rest.length ≤ turns.length →
      Reads ok (Grammar.arguments (Grammar.expression depth) count turns) (c.before ts) args c
  | .binding, ts, n => ∃ kw us, ts = kw :: us ∧ kw.kind = .kwVar ∧
      ∀ depth c, Reads ok (varDeclaration (Grammar.expression depth)) (c.before us) n c
  | .simple, ts, n =>
      ∀ depth c, Reads ok (expressionStatement (Grammar.expression depth)) (c.before ts) n c
  | .initializer, ts, n =>
      ∀ depth c, Reads ok (forInitializer (Grammar.expression depth)) (c.before ts) n c
  | .condition, ts, n => ∀ depth c what go r, Leads ok (go n c) r →
      Leads ok (clause .semicolon impliedTrue what (Grammar.expression depth) go (c.before ts)) r
  | .increment, ts, n => ∀ depth c what go r, Leads ok (go n c) r →
      Leads ok (clause .rightParen impliedNil what (Grammar.expression depth) go (c.before ts)) r
  | .statement o, ts, n => ∀ depth c, (o = true → c.peek.kind ≠ .kwElse) →
      Reads ok (Grammar.statement depth) (c.before ts) n c
  | .declaration, ts, n => ∀ depth c, c.peek.kind ≠ .kwElse →
      Reads ok (Grammar.declaration depth) (c.before ts) n c
  | .declarations, ts, n => ∀ ns, n = .list ns → ∀ depth c (turns : List Token),
      c.peek.kind = .rightBrace → ts.length + c.rest.length ≤ turns.length →
      Reads ok (Grammar.declarations (Grammar.declaration depth) turns) (c.before ts) ns c

variable {ok : Problem → Prop} {c : Cursor} {t l r : Token} {ts us : List Token} {n : Node}
  {depth : Nat}

theorem not_of_startsWith {kinds : List Kind} (h : StartsWith kinds ts) {k : Kind} (hk : k ∉ kinds)
    (c : Cursor) : (c.before ts).peek.kind ≠ k := by
  obtain ⟨t, us, rfl, ht⟩ := h
  intro he
  exact hk (he ▸ ht)

theorem covered_literal (ht : t.kind ∈ literalKinds) :
    Symbol.primary.Covered ok [t] (.literal t) := by
  intro depth c
  cases depth with
  | zero => exact reads_tooDeep ..
  | succ depth => exact Leads.bind (reads_accept?_some ht c []) (reads_pure ..)

theorem covered_name (ht : t.kind = .identifier) : Symbol.primary.Covered ok [t] (.name t) := by
  intro depth c
  cases depth with
  | zero => exact reads_tooDeep ..
  | succ depth =>
    refine Leads.bind (reads_accept?_none ?_) ?_
    · simp [ht, literalKinds]
    · exact Leads.bind (reads_accept?_some (by simp [ht]) c []) (reads_pure ..)

theorem covered_grouping (hl : l.kind = .leftParen) (h : Symbol.expression.Covered ok ts n)
    (hr : r.kind = .rightParen) : Symbol.primary.Covered ok (l :: (ts ++ [r])) (.grouping n) := by
  intro depth c
  cases depth with
  | zero => exact reads_tooDeep ..
  | succ depth =>
    refine Leads.bind (reads_accept?_none (by simp [hl, literalKinds])) ?_
    refine Leads.bind (reads_accept?_none (by simp [hl])) ?_
    refine Leads.accept_true hl ?_
    rw [Cursor.before_append]
    refine Leads.bind (h depth _ (by rw [Cursor.peek_before_cons, hr]; decide)) ?_
    exact Leads.bind (reads_expect hr c []) (reads_pure ..)

theorem covered_callee (h : Symbol.primary.Covered ok ts n) : Symbol.call.Covered ok ts n := by
  intro depth c
  exact ⟨c.rest, Nat.le_refl _, Leads.bind (h depth c) (Leads.refl _)⟩

theorem leads_callTail {callee called : Node} {vs turns : List Token} (hl : l.kind = .leftParen)
    (hcall : Reads ok (finishCall (Grammar.expression depth) callee) (c.before vs) called c)
    (hturns : (c.before (l :: vs)).rest.length ≤ turns.length) :
    ∃ turns' : List Token, c.rest.length ≤ turns'.length ∧
      Leads ok (callTail (Grammar.expression depth) callee turns (c.before (l :: vs)))
        (callTail (Grammar.expression depth) called turns' c) := by
  cases turns with
  | nil => simp at hturns
  | cons turn turns =>
    refine ⟨turns, ?_, ?_⟩
    · simp at hturns
      omega
    · exact Leads.accept_true hl (Leads.bind hcall (Leads.refl _))

theorem covered_callNone {callee : Node} (h : Symbol.call.Covered ok ts callee)
    (hl : l.kind = .leftParen) (hr : r.kind = .rightParen) :
    Symbol.call.Covered ok (ts ++ [l, r]) (.call callee r []) := by
  intro depth c
  obtain ⟨turns, hturns, hlead⟩ := h depth (c.before [l, r])
  have hcall : Reads ok (finishCall (Grammar.expression depth) callee) (c.before [r])
      (.call callee r []) c :=
    Leads.check_true hr (Leads.bind (reads_pure ..)
      (Leads.bind (reads_expect hr c []) (reads_pure ..)))
  obtain ⟨turns', hturns', hlead'⟩ := leads_callTail hl hcall hturns
  rw [Cursor.before_append]
  exact ⟨turns', hturns', hlead.trans hlead'⟩

theorem covered_callSome {callee : Node} {args : List Node} (h : Symbol.call.Covered ok ts callee)
    (hl : l.kind = .leftParen) (ha : Symbol.arguments.Covered ok us (.list args))
    (hstart : StartsWith Symbol.arguments.start us)
    (hlen : KeepsTo ok .tooManyArguments args.length) (hr : r.kind = .rightParen) :
    Symbol.call.Covered ok (ts ++ l :: (us ++ [r])) (.call callee r args) := by
  intro depth c
  obtain ⟨turns, hturns, hlead⟩ := h depth (c.before (l :: (us ++ [r])))
  have hcall : Reads ok (finishCall (Grammar.expression depth) callee) (c.before (us ++ [r]))
      (.call callee r args) c := by
    rw [Cursor.before_append]
    refine Leads.check_false (not_of_startsWith hstart (by decide) _) ?_
    refine Leads.bind (ha args rfl depth (c.before [r]) 0 _ ?_ ?_ ?_) ?_
    · rw [Cursor.peek_before_cons, hr]
      decide
    · simpa using hlen
    · simp
    · exact Leads.bind (reads_expect hr c []) (reads_pure ..)
  obtain ⟨turns', hturns', hlead'⟩ := leads_callTail hl hcall hturns
  rw [Cursor.before_append]
  exact ⟨turns', hturns', hlead.trans hlead'⟩

theorem covered_negated {operator : Token} (ho : operator.kind ∈ [.bang, .minus])
    (h : Symbol.unary.Covered ok ts n) :
    Symbol.unary.Covered ok (operator :: ts) (.unary operator n) := by
  intro depth c hc
  cases depth with
  | zero => exact reads_tooDeep ..
  | succ depth =>
    refine Leads.bind (reads_accept?_some ho c ts) ?_
    exact Leads.bind (h depth c hc) (reads_pure ..)

theorem covered_called (h : Symbol.call.Covered ok ts n)
    (hstart : StartsWith Symbol.call.start ts) : Symbol.unary.Covered ok ts n := by
  intro depth c hc
  cases depth with
  | zero => exact reads_tooDeep ..
  | succ depth =>
    refine Leads.bind (reads_accept?_none ?_) ?_
    · obtain ⟨t, us, rfl, ht⟩ := hstart
      rw [Cursor.peek_before_cons]
      revert ht
      generalize t.kind = k
      revert k
      decide
    · cases depth with
      | zero => exact reads_tooDeep ..
      | succ depth =>
        obtain ⟨turns, hturns, hlead⟩ := h depth c
        refine hlead.trans ?_
        cases turns with
        | nil => exact reads_pure ..
        | cons turn turns => exact Leads.accept_false (by simpa [Symbol.continues] using hc) (reads_pure ..)

theorem reads_chain {level : Level} (h : (Symbol.chain level).Covered ok ts n)
    (hc : c.peek.kind ∉ (Symbol.chain level).continues) :
    Reads ok (Grammar.chain level depth) (c.before ts) n c := by
  cases depth with
  | zero => exact reads_tooDeep ..
  | succ depth =>
    obtain ⟨turns, hturns, hlead⟩ := h depth c fun hk => hc (level.continues_operand_subset hk)
    refine hlead.trans ?_
    cases turns with
    | nil => exact reads_pure ..
    | cons turn turns =>
      exact Leads.bind (reads_accept?_none fun hk => hc (level.operators_subset hk)) (reads_pure ..)

theorem reads_operand {level : Level} (h : level.operand.Covered ok ts n)
    (hc : c.peek.kind ∉ level.operand.continues) :
    Reads ok (level.parser depth) (c.before ts) n c := by
  cases level with
  | factor => exact h depth c hc
  | _ => exact reads_chain h hc

theorem covered_operand {level : Level} (h : level.operand.Covered ok ts n) :
    (Symbol.chain level).Covered ok ts n := by
  intro depth c hc
  exact ⟨c.rest, Nat.le_refl _, Leads.bind (reads_operand h hc) (Leads.refl _)⟩

theorem covered_joined {level : Level} {operator : Token} {left right : Node}
    (hleft : (Symbol.chain level).Covered ok ts left) (ho : operator.kind ∈ level.operators)
    (hright : level.operand.Covered ok us right) :
    (Symbol.chain level).Covered ok (ts ++ operator :: us) (level.join left operator right) := by
  intro depth c hc
  obtain ⟨turns, hturns, hlead⟩ :=
    hleft depth (c.before (operator :: us)) (level.not_continues_of_operator ho)
  rw [Cursor.before_append]
  cases turns with
  | nil => simp at hturns
  | cons turn turns =>
    refine ⟨turns, ?_, hlead.trans ?_⟩
    · simp at hturns
      omega
    · refine Leads.bind (reads_accept?_some ho c us) ?_
      exact Leads.bind (reads_operand hright hc) (Leads.refl _)

theorem covered_value (h : (Symbol.chain .or).Covered ok ts n) :
    Symbol.expression.Covered ok ts n := by
  intro depth c hc
  cases depth with
  | zero => exact reads_tooDeep ..
  | succ depth =>
    simp only [Symbol.continues, List.mem_cons, not_or] at hc
    refine Leads.bind (reads_chain h ?_) ?_
    · simpa only [Symbol.continues, List.mem_cons, not_or] using hc.2
    · exact Leads.bind (reads_accept?_none (by simpa using hc.1)) (reads_pure ..)

theorem covered_chain_name (ht : t.kind = .identifier) :
    (Symbol.chain .or).Covered ok [t] (.name t) := by
  have hcall : Symbol.call.Covered ok [t] (.name t) := covered_callee (covered_name ht)
  have hunary : Symbol.unary.Covered ok [t] (.name t) :=
    covered_called hcall (startsWith_cons ht (by decide) _)
  have hfactor : (Symbol.chain .factor).Covered ok [t] (.name t) := covered_operand hunary
  have hterm : (Symbol.chain .term).Covered ok [t] (.name t) := covered_operand hfactor
  have hcomparison : (Symbol.chain .comparison).Covered ok [t] (.name t) := covered_operand hterm
  have hequality : (Symbol.chain .equality).Covered ok [t] (.name t) := covered_operand hcomparison
  have hand : (Symbol.chain .and).Covered ok [t] (.name t) := covered_operand hequality
  exact covered_operand hand

theorem covered_assigned {target equals : Token} (ht : target.kind = .identifier)
    (he : equals.kind = .equal) (h : Symbol.expression.Covered ok ts n) :
    Symbol.expression.Covered ok (target :: equals :: ts) (.assign target n) := by
  intro depth c hc
  cases depth with
  | zero => exact reads_tooDeep ..
  | succ depth =>
    rw [Cursor.before_cons c target]
    refine Leads.bind (reads_chain (covered_chain_name ht) ?_) ?_
    · rw [Cursor.peek_before_cons, he]
      decide
    · refine Leads.bind (reads_accept?_some (by simp [he]) c ts) ?_
      exact Leads.bind (h depth c hc) (reads_pure ..)

theorem leads_limit {α : Type} {s : Parsed α} {count : Nat} {problem : Problem}
    {go : Unit → Parser α} (hcount : KeepsTo ok problem (count + 1))
    (h : Leads ok (go () c) s) :
    Leads ok ((if maxArguments ≤ count then
        (do let t ← peek
            let r ← report t problem
            go r)
      else go ()) c) s := by
  split
  · rename_i hle
    have htolerated := hcount.resolve_left (Nat.not_le_of_lt (Nat.lt_succ_of_le hle))
    exact Leads.bind (Leads.refl _) (Leads.report htolerated h)
  · exact h

theorem covered_lastArgument (h : Symbol.expression.Covered ok ts n) :
    Symbol.arguments.Covered ok ts (.list [n]) := by
  intro args hargs depth c count turns hc hlen hturns
  cases hargs
  unfold Grammar.arguments
  simp only [Symbol.continues, List.mem_cons, not_or] at hc
  refine leads_limit hlen (Leads.bind (h depth c ?_) ?_)
  · simpa only [Symbol.continues, List.mem_cons, not_or] using hc.2
  · cases turns with
    | nil => exact reads_pure ..
    | cons turn turns => exact Leads.accept_false hc.1 (reads_pure ..)

theorem covered_moreArguments {comma : Token} {rest : List Node}
    (h : Symbol.expression.Covered ok ts n) (hcomma : comma.kind = .comma)
    (hrest : Symbol.arguments.Covered ok us (.list rest)) :
    Symbol.arguments.Covered ok (ts ++ comma :: us) (.list (n :: rest)) := by
  intro args hargs depth c count turns hc hlen hturns
  cases hargs
  unfold Grammar.arguments
  rw [Cursor.before_append]
  refine leads_limit (hlen.mono (by simp)) (Leads.bind (h depth _ ?_) ?_)
  · rw [Cursor.peek_before_cons, hcomma]
    decide
  · cases turns with
    | nil => simp at hturns
    | cons turn turns =>
      simp only [List.length_append, List.length_cons] at hturns
      refine Leads.accept_true hcomma ?_
      have hlen' := hlen.mono (n := count + 1 + rest.length) (by simp; omega)
      refine Leads.bind (hrest rest rfl depth c (count + 1) turns hc hlen' (by omega)) ?_
      exact reads_pure ..

theorem covered_unset {kw target semi : Token} (hk : kw.kind = .kwVar)
    (ht : target.kind = .identifier) (hs : semi.kind = .semicolon) :
    Symbol.binding.Covered ok [kw, target, semi] (.var target (impliedNil target.line)) := by
  refine ⟨kw, [target, semi], rfl, hk, fun depth c => ?_⟩
  refine Leads.bind (reads_expect ht c [semi]) ?_
  refine Leads.accept_false (by simp [hs]) (Leads.bind (reads_pure ..) ?_)
  exact Leads.bind (reads_expect hs c []) (reads_pure ..)

theorem covered_set {kw target equals semi : Token} (hk : kw.kind = .kwVar)
    (ht : target.kind = .identifier) (he : equals.kind = .equal)
    (h : Symbol.expression.Covered ok ts n) (hs : semi.kind = .semicolon) :
    Symbol.binding.Covered ok (kw :: target :: equals :: (ts ++ [semi])) (.var target n) := by
  refine ⟨kw, target :: equals :: (ts ++ [semi]), rfl, hk, fun depth c => ?_⟩
  refine Leads.bind (reads_expect ht c _) (Leads.accept_true he ?_)
  rw [Cursor.before_append]
  refine Leads.bind (h depth _ (by rw [Cursor.peek_before_cons, hs]; decide)) ?_
  exact Leads.bind (reads_expect hs c []) (reads_pure ..)

theorem covered_simple {semi : Token} (h : Symbol.expression.Covered ok ts n)
    (hs : semi.kind = .semicolon) : Symbol.simple.Covered ok (ts ++ [semi]) (.expression n) := by
  intro depth c
  rw [Cursor.before_append]
  refine Leads.bind (h depth _ (by rw [Cursor.peek_before_cons, hs]; decide)) ?_
  exact Leads.bind (reads_expect hs c []) (reads_pure ..)

theorem covered_noInitializer {semi : Token} (hs : semi.kind = .semicolon) :
    Symbol.initializer.Covered ok [semi] (.block []) := by
  intro depth c
  exact Leads.accept_true hs (reads_pure ..)

theorem covered_boundInitializer (h : Symbol.binding.Covered ok ts n) :
    Symbol.initializer.Covered ok ts n := by
  intro depth c
  obtain ⟨kw, us, rfl, hk, hread⟩ := h
  exact Leads.accept_false (by simp [hk]) (Leads.accept_true hk (hread depth c))

theorem covered_simpleInitializer (h : Symbol.simple.Covered ok ts n)
    (hstart : StartsWith Symbol.simple.start ts) : Symbol.initializer.Covered ok ts n := by
  intro depth c
  refine Leads.accept_false (not_of_startsWith hstart (by decide) c) ?_
  exact Leads.accept_false (not_of_startsWith hstart (by decide) c) (h depth c)

theorem leads_clause_none {close : Kind} {implied : Datum → Node} {what : String}
    {expression : Parser Node} {go : Node → Parser Node} {s : Parsed Node} (ht : t.kind = close)
    (h : Leads ok (go (implied t.line) c) s) :
    Leads ok (clause close implied what expression go (c.before [t])) s := by
  refine Leads.check_true ht (Leads.bind (a := t) (Leads.refl _) ?_)
  exact Leads.bind (reads_pure ..) (Leads.bind (reads_expect ht c []) h)

theorem leads_clause_some {close : Kind} {implied : Datum → Node} {what : String}
    {go : Node → Parser Node} {s : Parsed Node} (he : Symbol.expression.Covered ok ts n)
    (hstart : StartsWith Symbol.expression.start ts) (ht : t.kind = close)
    (hclose : close ∉ Symbol.expression.start) (hcont : close ∉ Symbol.expression.continues)
    (h : Leads ok (go n c) s) :
    Leads ok (clause close implied what (Grammar.expression depth) go (c.before (ts ++ [t])))
      s := by
  rw [Cursor.before_append]
  refine Leads.check_false (not_of_startsWith hstart hclose _) ?_
  refine Leads.bind (he depth _ (by rw [Cursor.peek_before_cons, ht]; exact hcont)) ?_
  exact Leads.bind (reads_expect ht c []) h

theorem covered_plain (h : Symbol.simple.Covered ok ts n)
    (hstart : StartsWith Symbol.simple.start ts) : (Symbol.statement false).Covered ok ts n := by
  intro depth c _
  cases depth with
  | zero => exact reads_tooDeep ..
  | succ depth =>
    refine Leads.accept_false (not_of_startsWith hstart (by decide) c) ?_
    refine Leads.accept_false (not_of_startsWith hstart (by decide) c) ?_
    refine Leads.accept_false (not_of_startsWith hstart (by decide) c) ?_
    refine Leads.accept_false (not_of_startsWith hstart (by decide) c) ?_
    exact Leads.accept_false (not_of_startsWith hstart (by decide) c) (h depth c)

theorem covered_print {kw semi : Token} (hk : kw.kind = .kwPrint)
    (h : Symbol.expression.Covered ok ts n) (hs : semi.kind = .semicolon) :
    (Symbol.statement false).Covered ok (kw :: (ts ++ [semi])) (.print n) := by
  intro depth c _
  cases depth with
  | zero => exact reads_tooDeep ..
  | succ depth =>
    refine Leads.accept_false (by simp [hk]) (Leads.accept_true hk ?_)
    rw [Cursor.before_append]
    refine Leads.bind (h depth _ (by rw [Cursor.peek_before_cons, hs]; decide)) ?_
    exact Leads.bind (reads_expect hs c []) (reads_pure ..)

theorem reads_block {ns : List Node} (h : Symbol.declarations.Covered ok ts (.list ns))
    (hr : r.kind = .rightBrace) :
    Reads ok (Grammar.block (Grammar.declaration depth)) (c.before (ts ++ [r])) ns c := by
  rw [Cursor.before_append]
  refine Leads.bind (h ns rfl depth (c.before [r]) _ (by simp [hr]) (by simp)) ?_
  exact Leads.bind (reads_expect hr c []) (reads_pure ..)

theorem covered_block {ns : List Node} (hl : l.kind = .leftBrace)
    (h : Symbol.declarations.Covered ok ts (.list ns)) (hr : r.kind = .rightBrace) :
    (Symbol.statement false).Covered ok (l :: (ts ++ [r])) (.block ns) := by
  intro depth c _
  cases depth with
  | zero => exact reads_tooDeep ..
  | succ depth =>
    refine Leads.accept_false (by simp [hl]) (Leads.accept_false (by simp [hl]) ?_)
    refine Leads.accept_false (by simp [hl]) (Leads.accept_false (by simp [hl]) ?_)
    exact Leads.accept_true hl (Leads.bind (reads_block h hr) (reads_pure ..))

theorem covered_loop {kw : Token} {body : Node} {o : Bool} (hk : kw.kind = .kwWhile)
    (hl : l.kind = .leftParen) (h : Symbol.expression.Covered ok ts n) (hr : r.kind = .rightParen)
    (hb : (Symbol.statement o).Covered ok us body) :
    (Symbol.statement o).Covered ok (kw :: l :: (ts ++ r :: us)) (.loop n body) := by
  intro depth c ho
  cases depth with
  | zero => exact reads_tooDeep ..
  | succ depth =>
    refine Leads.accept_false (by simp [hk]) (Leads.accept_false (by simp [hk]) ?_)
    refine Leads.accept_true hk (Leads.bind (reads_expect hl c _) ?_)
    rw [Cursor.before_append]
    refine Leads.bind (h depth _ (by rw [Cursor.peek_before_cons, hr]; decide)) ?_
    refine Leads.bind (reads_expect hr c us) ?_
    exact Leads.bind (hb depth c ho) (reads_pure ..)

theorem covered_counted {kw : Token} {is cs ns : List Token}
    {initializer condition increment body : Node} {o : Bool} (hk : kw.kind = .kwFor)
    (hl : l.kind = .leftParen) (hi : Symbol.initializer.Covered ok is initializer)
    (hcond : Symbol.condition.Covered ok cs condition)
    (hinc : Symbol.increment.Covered ok ns increment)
    (hb : (Symbol.statement o).Covered ok us body) :
    (Symbol.statement o).Covered ok (kw :: l :: (is ++ (cs ++ (ns ++ us))))
      (forBlock initializer condition increment body) := by
  intro depth c ho
  cases depth with
  | zero => exact reads_tooDeep ..
  | succ depth =>
    refine Leads.accept_false (by simp [hk]) (Leads.accept_false (by simp [hk]) ?_)
    refine Leads.accept_false (by simp [hk]) (Leads.accept_true hk ?_)
    rw [forStatement_eq]
    refine Leads.bind (reads_expect hl c _) ?_
    rw [Cursor.before_append]
    refine Leads.bind (hi depth _) ?_
    rw [Cursor.before_append]
    refine hcond depth _ _ _ _ ?_
    rw [Cursor.before_append]
    refine hinc depth _ _ _ _ ?_
    exact Leads.bind (hb depth c ho) (reads_pure ..)

theorem leads_ifStatement {kw : Token} {thenBranch : Node} {o : Bool} {s : Parsed Node}
    (hk : kw.kind = .kwIf) (hl : l.kind = .leftParen) (h : Symbol.expression.Covered ok ts n)
    (hr : r.kind = .rightParen) (ht : (Symbol.statement o).Covered ok us thenBranch)
    (ho : o = true → c.peek.kind ≠ .kwElse)
    (hrest : Leads ok ((do
      let elseBranch ← if ← accept .kwElse then Grammar.statement depth else pure (.block [])
      return .ifElse n thenBranch elseBranch : Parser Node) c) s) :
    Leads ok (Grammar.statement (depth + 1) (c.before (kw :: l :: (ts ++ r :: us)))) s := by
  refine Leads.accept_true hk (Leads.bind (reads_expect hl c _) ?_)
  rw [Cursor.before_append]
  refine Leads.bind (h depth _ (by rw [Cursor.peek_before_cons, hr]; decide)) ?_
  refine Leads.bind (reads_expect hr c us) ?_
  exact Leads.bind (ht depth c ho) hrest

theorem covered_ifOnly {kw : Token} {thenBranch : Node} {o : Bool} (hk : kw.kind = .kwIf)
    (hl : l.kind = .leftParen) (h : Symbol.expression.Covered ok ts n) (hr : r.kind = .rightParen)
    (ht : (Symbol.statement o).Covered ok us thenBranch) :
    (Symbol.statement true).Covered ok (kw :: l :: (ts ++ r :: us))
      (.ifElse n thenBranch (.block [])) := by
  intro depth c hc
  cases depth with
  | zero => exact reads_tooDeep ..
  | succ depth =>
    refine leads_ifStatement hk hl h hr ht (fun _ => hc rfl) ?_
    exact Leads.accept_false (hc rfl) (Leads.bind (reads_pure ..) (reads_pure ..))

theorem covered_ifElse {kw otherwise : Token} {vs : List Token} {thenBranch elseBranch : Node}
    {o o' : Bool} (hk : kw.kind = .kwIf) (hl : l.kind = .leftParen)
    (h : Symbol.expression.Covered ok ts n) (hr : r.kind = .rightParen)
    (ht : (Symbol.statement o).Covered ok us thenBranch) (ho : o = false)
    (he : otherwise.kind = .kwElse) (helse : (Symbol.statement o').Covered ok vs elseBranch) :
    (Symbol.statement o').Covered ok (kw :: l :: (ts ++ r :: (us ++ otherwise :: vs)))
      (.ifElse n thenBranch elseBranch) := by
  intro depth c hc
  cases depth with
  | zero => exact reads_tooDeep ..
  | succ depth =>
    rw [show kw :: l :: (ts ++ r :: (us ++ otherwise :: vs)) =
      (kw :: l :: (ts ++ r :: us)) ++ otherwise :: vs by simp, Cursor.before_append]
    refine leads_ifStatement hk hl h hr ht (by simp [ho]) ?_
    exact Leads.accept_true he (Leads.bind (helse depth c hc) (reads_pure ..))

theorem reads_names {params turns : List Token} {count : Nat} (h : Names ts params)
    (hc : c.peek.kind ≠ .comma) (hlen : KeepsTo ok .tooManyParameters (count + params.length))
    (hturns : ts.length + c.rest.length ≤ turns.length) :
    Reads ok (parameters count turns) (c.before ts) params c := by
  induction h generalizing count turns with
  | last hname =>
    unfold parameters
    refine leads_limit hlen (Leads.bind (reads_expect hname c []) ?_)
    cases turns with
    | nil => exact reads_pure ..
    | cons turn turns => exact Leads.accept_false hc (reads_pure ..)
  | @more _ _ _ names hname hcomma _ ih =>
    unfold parameters
    simp only [List.length_cons] at hturns
    refine leads_limit (hlen.mono (by simp)) (Leads.bind (reads_expect hname c _) ?_)
    cases turns with
    | nil => simp at hturns
    | cons turn turns =>
      simp only [List.length_cons] at hturns
      have hlen' := hlen.mono (n := count + 1 + names.length) (by simp; omega)
      refine Leads.accept_true hcomma (Leads.bind (ih hlen' (by omega)) ?_)
      exact reads_pure ..

theorem Names.startsWith {params : List Token} (h : Names ts params) :
    StartsWith [.identifier] ts := by
  cases h with
  | last hname => exact startsWith_cons hname (by decide) _
  | more hname => exact startsWith_cons hname (by decide) _

theorem covered_function {kw target lb rb : Token} {ps params : List Token} {body : List Node}
    (hk : kw.kind = .kwFun) (ht : target.kind = .identifier) (hl : l.kind = .leftParen)
    (hp : Parameters ps params) (hlen : KeepsTo ok .tooManyParameters params.length)
    (hr : r.kind = .rightParen)
    (hlb : lb.kind = .leftBrace) (hb : Symbol.declarations.Covered ok ts (.list body))
    (hrb : rb.kind = .rightBrace) :
    Symbol.declaration.Covered ok (kw :: target :: l :: (ps ++ r :: lb :: (ts ++ [rb])))
      (.function target params body) := by
  intro depth c _
  cases depth with
  | zero => exact reads_tooDeep ..
  | succ depth =>
    refine Leads.accept_true hk (Leads.bind (reads_expect ht c _) ?_)
    refine Leads.bind (reads_expect hl c _) ?_
    obtain ⟨rfl, rfl⟩ | hnames := hp
    · refine Leads.check_true hr (Leads.bind (reads_pure ..) ?_)
      refine Leads.bind (reads_expect hr c _) (Leads.bind (reads_expect hlb c _) ?_)
      exact Leads.bind (reads_block hb hrb) (reads_pure ..)
    · rw [Cursor.before_append]
      refine Leads.check_false (not_of_startsWith hnames.startsWith (by decide) _) ?_
      refine Leads.bind (reads_names hnames (by simp [hr]) (by simpa using hlen) (by simp)) ?_
      refine Leads.bind (reads_expect hr c _) (Leads.bind (reads_expect hlb c _) ?_)
      exact Leads.bind (reads_block hb hrb) (reads_pure ..)

theorem covered_bound (h : Symbol.binding.Covered ok ts n) :
    Symbol.declaration.Covered ok ts n := by
  intro depth c _
  obtain ⟨kw, us, rfl, hk, hread⟩ := h
  cases depth with
  | zero => exact reads_tooDeep ..
  | succ depth => exact Leads.accept_false (by simp [hk]) (Leads.accept_true hk (hread depth c))

theorem covered_statement {o : Bool} (h : (Symbol.statement o).Covered ok ts n)
    (hstart : StartsWith (Symbol.statement o).start ts) : Symbol.declaration.Covered ok ts n := by
  intro depth c hc
  cases depth with
  | zero => exact reads_tooDeep ..
  | succ depth =>
    have hfun : Kind.kwFun ∉ (Symbol.statement o).start := by simp [Symbol.start, expressionStart, valueStart]
    have hvar : Kind.kwVar ∉ (Symbol.statement o).start := by simp [Symbol.start, expressionStart, valueStart]
    refine Leads.accept_false (not_of_startsWith hstart hfun c) ?_
    exact Leads.accept_false (not_of_startsWith hstart hvar c) (h depth c fun _ => hc)

theorem covered_none : Symbol.declarations.Covered ok [] (.list []) := by
  intro ns hns depth c turns hc _
  cases hns
  cases turns with
  | nil => exact reads_pure ..
  | cons turn turns => exact Leads.check_true hc (reads_pure ..)

theorem covered_more {rest : List Node} (h : Symbol.declaration.Covered ok ts n)
    (hstart : StartsWith Symbol.declaration.start ts)
    (hrest : Symbol.declarations.Covered ok us (.list rest))
    (hnext : us = [] ∨ StartsWith Symbol.declaration.start us) :
    Symbol.declarations.Covered ok (ts ++ us) (.list (n :: rest)) := by
  intro ns hns depth c turns hc hturns
  cases hns
  simp only [List.length_append] at hturns
  have hpos : 0 < ts.length := by
    obtain ⟨t, vs, rfl, -⟩ := hstart
    simp
  have helse : (c.before us).peek.kind ≠ .kwElse := by
    obtain rfl | hus := hnext
    · simp [hc]
    · exact not_of_startsWith hus (by decide) c
  rw [Cursor.before_append]
  cases turns with
  | nil =>
    simp only [List.length_nil] at hturns
    omega
  | cons turn turns =>
    simp only [List.length_cons] at hturns
    refine Leads.check_false (not_of_startsWith hstart (by decide) _) ?_
    refine Leads.check_false (not_of_startsWith hstart (by decide) _) ?_
    refine Leads.bind (h depth _ helse) ?_
    exact Leads.bind (hrest rest rfl depth c turns hc (by omega)) (reads_pure ..)

theorem Phrase.startsWith_of_declarations {nearest : Bool} (h : Phrase nearest .declarations ts n) :
    ts = [] ∨ StartsWith Symbol.declaration.start ts :=
  h.sentence.startsWith_of_declarations

/-- The parser of every symbol reads the phrases of the symbol. -/
theorem Phrase.covered {s : Symbol} (h : Phrase true s ts n) : s.Covered ok ts n := by
  induction h with
  | literal ht => exact covered_literal ht
  | name ht => exact covered_name ht
  | grouping hl _ hr ih => exact covered_grouping hl ih hr
  | callee _ ih => exact covered_callee ih
  | callNone _ hl hr ih => exact covered_callNone ih hl hr
  | callSome _ hl ha hlen hr ihc iha =>
    exact covered_callSome ihc hl iha (ha.startsWith (by decide)) (.inl hlen) hr
  | negated ho _ ih => exact covered_negated ho ih
  | called hcall ih => exact covered_called ih (hcall.startsWith (by decide))
  | operand _ ih => exact covered_operand ih
  | joined _ ho _ ihl ihr => exact covered_joined ihl ho ihr
  | value _ ih => exact covered_value ih
  | assigned ht he _ ih => exact covered_assigned ht he ih
  | lastArgument _ ih => exact covered_lastArgument ih
  | moreArguments _ hcomma _ ihe iha => exact covered_moreArguments ihe hcomma iha
  | unset hk ht hs => exact covered_unset hk ht hs
  | set hk ht he _ hs ih => exact covered_set hk ht he ih hs
  | simple _ hs ih => exact covered_simple ih hs
  | noInitializer hs => exact covered_noInitializer hs
  | boundInitializer _ ih => exact covered_boundInitializer ih
  | simpleInitializer hp ih => exact covered_simpleInitializer ih (hp.startsWith (by decide))
  | noCondition hs =>
    intro depth c what go r hgo
    exact leads_clause_none hs hgo
  | someCondition he hs ih =>
    intro depth c what go r hgo
    exact leads_clause_some ih (he.startsWith (by decide)) hs (by decide) (by decide) hgo
  | noIncrement hr =>
    intro depth c what go r hgo
    exact leads_clause_none hr hgo
  | someIncrement he hr ih =>
    intro depth c what go r hgo
    exact leads_clause_some ih (he.startsWith (by decide)) hr (by decide) (by decide) hgo
  | plain hp ih => exact covered_plain ih (hp.startsWith (by decide))
  | print hk _ hs ih => exact covered_print hk ih hs
  | block hl _ hr ih => exact covered_block hl ih hr
  | loop hk hl _ hr _ ihc ihb => exact covered_loop hk hl ihc hr ihb
  | counted hk hl _ _ _ _ ihi ihc ihn ihb => exact covered_counted hk hl ihi ihc ihn ihb
  | ifOnly hk hl _ hr _ ihc iht => exact covered_ifOnly hk hl ihc hr iht
  | ifElse hk hl _ hr _ ho he _ ihc iht ihe =>
    exact covered_ifElse hk hl ihc hr iht (ho rfl) he ihe
  | function hk ht hl hp hlen hr hlb _ hrb ih =>
    exact covered_function hk ht hl hp (.inl hlen) hr hlb ih hrb
  | bound _ ih => exact covered_bound ih
  | statement hs ih => exact covered_statement ih (hs.startsWith (by simp))
  | none => exact covered_none
  | more hd hrest ihd ihr =>
    exact covered_more ihd (hd.startsWith (by decide)) ihr hrest.startsWith_of_declarations

theorem programFrom_covers {turns : List Token} {ns : List Node} (h : Denotes ts ns)
    (hc : c.Closed) (hend : c.rest = []) (hturns : ts.length ≤ turns.length)
    (hdeep : ∀ e ∈ (programFrom depth turns (c.before ts)).errors, e.problem ≠ .nestedTooDeeply) :
    programFrom depth turns (c.before ts) = ⟨ns, [], []⟩ := by
  induction ns generalizing turns ts with
  | nil =>
    cases h
    cases turns with
    | nil => simp [programFrom, hend]
    | cons turn turns => simp [programFrom, Cursor.atEnd, hend]
  | cons n ns ih =>
    cases h with
    | @more ts us _ _ hfirst hrest =>
      have hpos : 0 < ts.length := by
        obtain ⟨t, vs, rfl, -⟩ := hfirst.startsWith (by decide)
        simp
      have helse : (c.before us).peek.kind ≠ .kwElse := by
        obtain rfl | hus := hrest.startsWith_of_declarations
        · simp [hc.peek_nil hend]
        · exact not_of_startsWith hus (by decide) c
      have hsome : ((c.before us).before ts).atEnd = false := by
        obtain ⟨t, vs, rfl, -⟩ := hfirst.startsWith (by decide)
        rfl
      rw [List.length_append] at hturns
      rw [Cursor.before_append] at hdeep ⊢
      cases turns with
      | nil =>
        simp only [List.length_nil] at hturns
        omega
      | cons turn turns =>
        simp only [List.length_cons] at hturns
        obtain hread | ⟨stop, errors, hread⟩ :=
          (hfirst.covered depth (c.before us) helse).eq_or_stopped
        · rw [programFrom_done hsome hread] at hdeep ⊢
          rw [ih hrest (by omega) (by simpa using hdeep)]
          rfl
        · rw [programFrom_tooDeep hsome hread] at hdeep
          exact absurd rfl (hdeep ⟨stop.peek, .nestedTooDeeply⟩ (by simp))

end Lox.Grammar
