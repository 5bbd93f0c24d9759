import Lox.Proofs.Grammar.Coverage

/-!
Programs of any size. As long as the nesting is not too deep, nothing is reported about a sentence
of the grammar but that it has too many parameters or arguments: every token is one that the
parser expects.
-/
namespace Lox

def Problem.IsLimit (p : Problem) : Prop := p = .tooManyParameters ∨ p = .tooManyArguments

namespace Grammar

def Symbol.Readable (ts : List Token) : Symbol → Prop
  | .arguments => ∃ args, Symbol.arguments.Covered Problem.IsLimit ts (.list args)
  | .declarations => ∃ ns, Symbol.declarations.Covered Problem.IsLimit ts (.list ns)
  | s => ∃ n, s.Covered Problem.IsLimit ts n

theorem Level.readable_operand {level : Level} {ts : List Token}
    (h : level.operand.Readable ts) : ∃ n, level.operand.Covered Problem.IsLimit ts n := by
  cases level <;> exact h

theorem Sentence.readable {s : Symbol} {ts : List Token} (h : Sentence true s ts) :
    s.Readable ts := by
  have hparams (n : Nat) : KeepsTo Problem.IsLimit .tooManyParameters n := .inr (.inl rfl)
  have hargs (n : Nat) : KeepsTo Problem.IsLimit .tooManyArguments n := .inr (.inr rfl)
  induction h with
  | literal ht => exact ⟨_, covered_literal ht⟩
  | name ht => exact ⟨_, covered_name ht⟩
  | grouping hl _ hr ih =>
    obtain ⟨n, h⟩ := ih
    exact ⟨_, covered_grouping hl h hr⟩
  | callee _ ih =>
    obtain ⟨n, h⟩ := ih
    exact ⟨n, covered_callee h⟩
  | callNone _ hl hr ih =>
    obtain ⟨n, h⟩ := ih
    exact ⟨_, covered_callNone h hl hr⟩
  | callSome _ hl ha hr ihc iha =>
    obtain ⟨n, hc⟩ := ihc
    obtain ⟨args, ha'⟩ := iha
    exact ⟨_, covered_callSome hc hl ha' (ha.startsWith (by decide)) (hargs _) hr⟩
  | negated ho _ ih =>
    obtain ⟨n, h⟩ := ih
    exact ⟨_, covered_negated ho h⟩
  | called hcall ih =>
    obtain ⟨n, h⟩ := ih
    exact ⟨n, covered_called h (hcall.startsWith (by decide))⟩
  | operand _ ih =>
    obtain ⟨n, h⟩ := Level.readable_operand ih
    exact ⟨n, covered_operand h⟩
  | joined _ ho _ ihl ihr =>
    obtain ⟨left, hl⟩ := ihl
    obtain ⟨right, hr⟩ := Level.readable_operand ihr
    exact ⟨_, covered_joined hl ho hr⟩
  | value _ ih =>
    obtain ⟨n, h⟩ := ih
    exact ⟨n, covered_value h⟩
  | assigned ht he _ ih =>
    obtain ⟨n, h⟩ := ih
    exact ⟨_, covered_assigned ht he h⟩
  | lastArgument _ ih =>
    obtain ⟨n, h⟩ := ih
    exact ⟨_, covered_lastArgument h⟩
  | moreArguments _ hcomma _ ihe iha =>
    obtain ⟨n, he⟩ := ihe
    obtain ⟨args, ha⟩ := iha
    exact ⟨_, covered_moreArguments he hcomma ha⟩
  | unset hk ht hs => exact ⟨_, covered_unset hk ht hs⟩
  | set hk ht he _ hs ih =>
    obtain ⟨n, h⟩ := ih
    exact ⟨_, covered_set hk ht he h hs⟩
  | simple _ hs ih =>
    obtain ⟨n, h⟩ := ih
    exact ⟨_, covered_simple h hs⟩
  | noInitializer hs => exact ⟨_, covered_noInitializer hs⟩
  | boundInitializer _ ih =>
    obtain ⟨n, h⟩ := ih
    exact ⟨n, covered_boundInitializer h⟩
  | simpleInitializer hs ih =>
    obtain ⟨n, h⟩ := ih
    exact ⟨n, covered_simpleInitializer h (hs.startsWith (by decide))⟩
  | @noCondition semi hs =>
    exact ⟨impliedTrue semi.line, fun depth c what go r hgo => leads_clause_none hs hgo⟩
  | someCondition he hs ih =>
    obtain ⟨n, h⟩ := ih
    exact ⟨n, fun depth c what go r hgo =>
      leads_clause_some h (he.startsWith (by decide)) hs (by decide) (by decide) hgo⟩
  | @noIncrement r hr =>
    exact ⟨impliedNil r.line, fun depth c what go r hgo => leads_clause_none hr hgo⟩
  | someIncrement he hr ih =>
    obtain ⟨n, h⟩ := ih
    exact ⟨n, fun depth c what go r hgo =>
      leads_clause_some h (he.startsWith (by decide)) hr (by decide) (by decide) hgo⟩
  | plain hs ih =>
    obtain ⟨n, h⟩ := ih
    exact ⟨n, covered_plain h (hs.startsWith (by decide))⟩
  | print hk _ hs ih =>
    obtain ⟨n, h⟩ := ih
    exact ⟨_, covered_print hk h hs⟩
  | block hl _ hr ih =>
    obtain ⟨ns, h⟩ := ih
    exact ⟨_, covered_block hl h hr⟩
  | loop hk hl _ hr _ ihc ihb =>
    obtain ⟨n, hc⟩ := ihc
    obtain ⟨body, hb⟩ := ihb
    exact ⟨_, covered_loop hk hl hc hr hb⟩
  | counted hk hl _ _ _ _ ihi ihc ihn ihb =>
    obtain ⟨initializer, hi⟩ := ihi
    obtain ⟨condition, hc⟩ := ihc
    obtain ⟨increment, hn⟩ := ihn
    obtain ⟨body, hb⟩ := ihb
    exact ⟨_, covered_counted hk hl hi hc hn hb⟩
  | ifOnly hk hl _ hr _ ihc iht =>
    obtain ⟨n, hc⟩ := ihc
    obtain ⟨thenBranch, ht⟩ := iht
    exact ⟨_, covered_ifOnly hk hl hc hr ht⟩
  | ifElse hk hl _ hr _ ho he _ ihc iht ihe =>
    obtain ⟨n, hc⟩ := ihc
    obtain ⟨thenBranch, ht⟩ := iht
    obtain ⟨elseBranch, he'⟩ := ihe
    exact ⟨_, covered_ifElse hk hl hc hr ht (ho rfl) he he'⟩
  | function hk ht hl hp hr hlb _ hrb ih =>
    obtain ⟨ns, h⟩ := ih
    exact ⟨_, covered_function hk ht hl hp (hparams _) hr hlb h hrb⟩
  | bound _ ih =>
    obtain ⟨n, h⟩ := ih
    exact ⟨n, covered_bound h⟩
  | statement hs ih =>
    obtain ⟨n, h⟩ := ih
    exact ⟨n, covered_statement h (hs.startsWith (by simp))⟩
  | none => exact ⟨[], covered_none⟩
  | more hd hrest ihd ihr =>
    obtain ⟨n, h⟩ := ihd
    obtain ⟨ns, h'⟩ := ihr
    exact ⟨_, covered_more h (hd.startsWith (by decide)) h' hrest.startsWith_of_declarations⟩

variable {depth : Nat} {last : Token}

theorem programFrom_sentence {turns ts : List Token} {c : Cursor}
    (h : Sentence true .declarations ts) (hc : c.Closed) (hend : c.rest = [])
    (hturns : ts.length ≤ turns.length)
    (hdeep : ∀ e ∈ (programFrom depth turns (c.before ts)).errors, e.problem ≠ .nestedTooDeeply) :
    ∀ e ∈ (programFrom depth turns (c.before ts)).errors, e.problem.IsLimit := by
  induction turns generalizing ts with
  | nil => simp [programFrom]
  | cons turn turns ih =>
    cases h with
    | none => simp [programFrom, Cursor.atEnd, hend]
    | @more ts us hfirst hrest =>
      have helse : (c.before us).peek.kind ≠ .kwElse := by
        obtain rfl | hus := hrest.startsWith_of_declarations
        · simp [hc.peek_nil hend]
        · exact not_of_startsWith hus (by decide) c
      obtain ⟨t, vs, hts, -⟩ := hfirst.startsWith (by decide)
      have hsome : ((c.before us).before ts).atEnd = false := by
        rw [hts]
        rfl
      simp only [List.length_append, List.length_cons, hts] at hturns
      obtain ⟨n, hcovered⟩ := hfirst.readable
      rw [Cursor.before_append] at hdeep ⊢
      obtain ⟨errors, herrors, hread⟩ | ⟨stop, errors, hread⟩ :=
        hcovered depth (c.before us) helse
      · rw [programFrom_done hsome hread] at hdeep ⊢
        simp only [List.mem_append] at hdeep ⊢
        rintro e (he | he)
        · exact herrors e (by simpa using he)
        · exact ih hrest (by omega) (fun e he => hdeep e (.inr he)) e he
      · rw [programFrom_tooDeep hsome hread] at hdeep
        exact absurd rfl (hdeep ⟨stop.peek, .nestedTooDeeply⟩ (by simp))

theorem parse_sentence {tokens : List Token} (hlast : last.kind = .eof) (h : IsSentence tokens)
    (hdeep : ∀ e ∈ (parse depth tokens last).errors, e.problem ≠ .nestedTooDeeply) :
    ∀ e ∈ (parse depth tokens last).errors, e.problem.IsLimit := by
  have hstart : (⟨tokens, last⟩ : Cursor) = Cursor.before ⟨[], last⟩ tokens := by
    simp [Cursor.before]
  unfold parse at hdeep ⊢
  rw [hstart] at hdeep ⊢
  exact programFrom_sentence h.regroups hlast rfl (Nat.le_refl _) hdeep

end Grammar

end Lox
