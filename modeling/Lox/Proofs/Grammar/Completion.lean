import Lox.Proofs.Grammar.Agreement
import Lox.Proofs.Grammar.Recognition

/-!
Rows that stop too early. If nothing is reported before the end of the file, what has been read
can be completed: each part of a rule either has been read in full or stands where the row ends,
and then any sentence will do for what is missing of it and for all that comes after it.
-/
namespace Lox

namespace Cursor

variable {c : Cursor}

/-- The end of the file comes after all tokens, and only there. -/
def EndsOnce (c : Cursor) : Prop := c.Closed ∧ ∀ t ∈ c.rest, t.kind ≠ .eof

theorem EndsOnce.of_before {ts : List Token} (h : (c.before ts).EndsOnce) : c.EndsOnce :=
  ⟨h.1, fun t ht => h.2 t (List.mem_append_right _ ht)⟩

theorem EndsOnce.rest_eq_nil (h : c.EndsOnce) (hpeek : c.peek.kind = .eof) : c.rest = [] := by
  obtain ⟨rest, last⟩ := c
  cases rest with
  | nil => rfl
  | cons t rest => exact absurd hpeek (h.2 t (List.mem_cons_self ..))

theorem eq_of_before {ts : List Token} {next : Cursor} (h : c = next.before ts)
    (hrest : c.rest = []) : ts = [] ∧ c = next := by
  subst h
  obtain ⟨rfl, -⟩ := List.append_eq_nil_iff.1 hrest
  exact ⟨rfl, rfl⟩

end Cursor

namespace Parser

variable {α β : Type} {L M : List Token → Prop} {p : Parser α}

/-- A run that reports nothing before the end has read a row of the language, or all that was left
and the start of such a row. -/
def Completes (L : List Token → Prop) (p : Parser α) : Prop :=
  ∀ ⦃c a next errors⦄, p c = .done a next errors → c.EndsOnce →
    (∀ e ∈ errors, e.token.kind = .eof) →
    ∃ ts more, c = next.before ts ∧ L (ts ++ more) ∧
      ((errors = [] ∧ more = []) ∨ next.rest = [])

theorem Completes.mono (h : Completes L p) (hLM : ∀ ts, L ts → M ts) : Completes M p := by
  intro c a next errors hrun hc herrors
  obtain ⟨ts, more, hts, hL, hend⟩ := h hrun hc herrors
  exact ⟨ts, more, hts, hLM _ hL, hend⟩

theorem completes_tooDeep : Completes L (tooDeep : Parser α) := by
  intro c a next errors h
  cases h

theorem completes_pure {a : α} (h : L []) : Completes L (pure a) := by
  intro c a' next errors hrun _ _
  cases hrun
  exact ⟨[], [], rfl, h, .inl ⟨rfl, rfl⟩⟩

theorem completes_expect {kind : Kind} {what : String} (hk : kind ≠ .eof) :
    Completes (fun ts => ∃ t, t.kind = kind ∧ ts = [t]) (expect kind what) := by
  intro c a next errors h hc herrors
  unfold expect at h
  split at h
  · rename_i hpeek
    cases h
    exact ⟨[c.peek], [], hc.1.eq_before (hpeek ▸ hk), ⟨_, hpeek, rfl⟩, .inl ⟨rfl, rfl⟩⟩
  · cases h
    -- the token is missing at the end, and any of its kind will do
    have hrest := hc.rest_eq_nil (herrors _ (List.mem_singleton_self _))
    exact ⟨[], [.implied kind what .null], rfl, ⟨_, rfl, rfl⟩, .inr hrest⟩

theorem Completes.bind {f : α → Parser β} (hp : Completes L p)
    (hf : ∀ a ts, L ts → Completes (fun us => M (ts ++ us)) (f a)) : Completes M (p >>= f) := by
  intro c b next errors h hc herrors
  obtain ⟨a, mid, earlier, later, hrun, hrun', rfl⟩ := bind_runs h
  have hearlier e (he : e ∈ earlier) := herrors e (List.mem_append_left _ he)
  have hlater e (he : e ∈ later) := herrors e (List.mem_append_right _ he)
  obtain ⟨ts, more, rfl, hL, hend⟩ := hp hrun hc hearlier
  obtain ⟨us, more', hus, hM, hend'⟩ := hf a _ hL hrun' hc.of_before hlater
  obtain ⟨rfl, rfl⟩ | hrest := hend
  · refine ⟨ts ++ us, more', by rw [hus, Cursor.before_append], by simpa using hM, ?_⟩
    simpa using hend'
  · obtain ⟨rfl, rfl⟩ := Cursor.eq_of_before hus hrest
    exact ⟨ts, more ++ more', rfl, by simpa using hM, .inr hrest⟩

theorem Completes.expect {kind : Kind} {what : String} {f : Token → Parser α} (hk : kind ≠ .eof)
    (hf : ∀ a t, t.kind = kind → Completes (fun ts => L (t :: ts)) (f a)) :
    Completes L (Parser.expect kind what >>= f) := by
  refine (completes_expect hk).bind ?_
  rintro a _ ⟨t, ht, rfl⟩
  exact hf a t ht

theorem Completes.stay {f : α → Parser β} (hp : ∀ c, ∃ a, p c = .done a c [])
    (hf : ∀ a, Completes L (f a)) : Completes L (p >>= f) := by
  intro c b next errors h
  obtain ⟨a, hrun⟩ := hp c
  rw [bind_of_done hrun, after_nil] at h
  exact hf a h

theorem Completes.accept? {kinds : List Kind} {f : Option Token → Parser α} (hk : .eof ∉ kinds)
    (hsome : ∀ t, t.kind ∈ kinds → Completes (fun ts => L (t :: ts)) (f (some t)))
    (hnone : Completes L (f none)) : Completes L (Parser.accept? kinds >>= f) := by
  intro c a next errors h hc herrors
  by_cases hpeek : c.peek.kind ∈ kinds
  · have hbefore := hc.1.eq_before fun he => hk (he ▸ hpeek)
    have hrun : Parser.accept? kinds c = .done (some c.peek) c.advance [] := by
      simp [Parser.accept?, hpeek]
    rw [bind_of_done hrun, after_nil] at h
    rw [hbefore] at hc
    obtain ⟨ts, more, hts, hL, hend⟩ := hsome c.peek hpeek h hc.of_before herrors
    exact ⟨c.peek :: ts, more, by rw [Cursor.before_cons, ← hts]; exact hbefore, hL, hend⟩
  · have hrun : Parser.accept? kinds c = .done none c [] := by simp [Parser.accept?, hpeek]
    rw [bind_of_done hrun, after_nil] at h
    exact hnone h hc herrors

theorem Completes.accept {kind : Kind} {yes no : Parser α} (hk : kind ≠ .eof)
    (hyes : ∀ t, t.kind = kind → Completes (fun ts => L (t :: ts)) yes) (hno : Completes L no) :
    Completes L (Parser.accept kind >>= fun found => if found = true then yes else no) := by
  rw [accept_bind]
  exact Completes.accept? (by simpa using hk.symm) (fun t ht => hyes t (by simpa using ht)) hno

theorem Completes.check {kind : Kind} {yes no : Parser α} (hyes : Completes L yes)
    (hno : Completes L no) :
    Completes L (Parser.check kind >>= fun found => if found = true then yes else no) := by
  intro c a next errors h
  by_cases hpeek : c.peek.kind = kind
  · have hrun : Parser.check kind c = .done true c [] := by simp [Parser.check, hpeek]
    rw [bind_of_done hrun, after_nil] at h
    exact hyes h
  · have hrun : Parser.check kind c = .done false c [] := by simp [Parser.check, hpeek]
    rw [bind_of_done hrun, after_nil] at h
    exact hno h

theorem Completes.complain {problem : Problem} {f : Token → Parser α}
    (hf : ∀ t, Completes L (f t)) : Completes L (complain problem >>= f) := by
  intro c a next errors h hc herrors
  have hrun : Parser.complain problem c = .done c.peek c [⟨c.peek, problem⟩] := rfl
  rw [bind_of_done hrun] at h
  obtain ⟨later, hrun', rfl⟩ := after_done h
  have hrest := hc.rest_eq_nil (herrors ⟨c.peek, problem⟩ (by simp))
  obtain ⟨ts, more, hts, hL, -⟩ := hf c.peek hrun' hc fun e he => herrors e (by simp [he])
  obtain ⟨rfl, rfl⟩ := Cursor.eq_of_before hts hrest
  exact ⟨[], more, rfl, hL, .inr hrest⟩

theorem completes_missing {problem : Problem} {g : Token → α} (ts : List Token) (h : L ts) :
    Completes L (complain problem >>= fun t => skip >>= fun _ => pure (g t)) := by
  intro c a next errors hrun hc herrors
  have hrun' : (Parser.complain problem >>= fun t => skip >>= fun _ => pure (g t)) c =
      .done (g c.peek) c.advance [⟨c.peek, problem⟩] := rfl
  rw [hrun'] at hrun
  cases hrun
  have hrest := hc.rest_eq_nil (herrors ⟨c.peek, problem⟩ (by simp))
  have hadvance : c.advance = c := by
    obtain ⟨rest, last⟩ := c
    cases hrest
    rfl
  rw [hadvance]
  exact ⟨[], ts, rfl, h, .inr hrest⟩

theorem Completes.bounded {loop : List Token → Parser α} (h : ∀ turns, Completes L (loop turns)) :
    Completes L (Parser.bounded loop) :=
  fun c => h c.rest (c := c)

end Parser

namespace Grammar

open Lox.Parser

abbrev Completed (s : Symbol) (p : Parser Node) : Prop := Completes (Sentence false s) p

def IsStatement (ts : List Token) : Prop := ∃ o, Sentence false (.statement o) ts

section Statements

variable {declaration statement expression : Parser Node}

theorem completes_limit {α : Type} {L : List Token → Prop} {count : Nat} {problem : Problem}
    {go : Unit → Parser α} (h : Completes L (go ())) :
    Completes L
      (if maxArguments ≤ count then
        (do let t ← peek
            let r ← report t problem
            go r)
      else go ()) := by
  rw [limit_eq]
  split
  · exact Completes.complain fun _ => h
  · exact h

theorem completes_parameters (count : Nat) (turns : List Token) :
    Completes (fun ts => ∃ params, Names ts params) (parameters count turns) := by
  induction turns generalizing count with
  | nil =>
    unfold parameters
    refine completes_limit (Completes.expect (by decide) fun _ t ht => ?_)
    exact completes_pure ⟨_, .last ht⟩
  | cons turn turns ih =>
    unfold parameters
    refine completes_limit (Completes.expect (by decide) fun _ t ht => ?_)
    refine Completes.accept (by decide) (fun comma hcomma => ?_) (completes_pure ⟨_, .last ht⟩)
    refine (ih (count + 1)).bind ?_
    rintro _ us ⟨params, hus⟩
    exact completes_pure ⟨t :: params, by simpa using .more ht hcomma hus⟩

theorem completes_arguments (he : Completed .expression expression) (count : Nat)
    (turns : List Token) :
    Completes (Sentence false .arguments) (arguments expression count turns) := by
  induction turns generalizing count with
  | nil =>
    unfold arguments
    refine completes_limit (he.bind fun _ ts hts => completes_pure ?_)
    simpa using .lastArgument hts
  | cons turn turns ih =>
    unfold arguments
    refine completes_limit (he.bind fun _ ts hts => ?_)
    refine Completes.accept (by decide) (fun comma hcomma => ?_) (completes_pure ?_)
    · refine (ih (count + 1)).bind fun _ us hus => completes_pure ?_
      simpa using .moreArguments hts hcomma hus
    · simpa using .lastArgument hts

theorem completes_declarations (hd : Completed .declaration declaration) (turns : List Token) :
    Completes (Sentence false .declarations) (declarations declaration turns) := by
  induction turns with
  | nil => exact completes_pure .none
  | cons turn turns ih =>
    refine Completes.check (completes_pure .none) (Completes.check (completes_pure .none) ?_)
    refine hd.bind fun _ ts hts => ih.bind fun _ us hus => completes_pure ?_
    simpa using .more hts hus

theorem completes_block {L : List Token → Prop} (hd : Completed .declaration declaration)
    (hL : ∀ ts rb, Sentence false .declarations ts → rb.kind = .rightBrace → L (ts ++ [rb])) :
    Completes L (block declaration) := by
  refine (Completes.bounded (completes_declarations hd)).bind fun _ ts hts => ?_
  exact Completes.expect (by decide) fun _ rb hrb => completes_pure (hL ts rb hts hrb)

theorem completes_functionDeclaration {kw : Token} (hkw : kw.kind = .kwFun)
    (hd : Completed .declaration declaration) :
    Completes (fun ts => Sentence false .declaration (kw :: ts))
      (functionDeclaration declaration) := by
  refine Completes.expect (by decide) fun target name hname => ?_
  refine Completes.expect (by decide) fun _ l hl => ?_
  have hbody (params ps : List Token) (hps : ∃ params, Parameters ps params) :
      Completes (fun ts => Sentence false .declaration (kw :: name :: l :: (ps ++ ts))) (do
        let _ ← expect .rightParen "')' after parameters"
        let _ ← expect .leftBrace "'\x7b' before function body"
        return .function target params (← block declaration) : Parser Node) := by
    obtain ⟨params, hps⟩ := hps
    refine Completes.expect (by decide) fun _ r hr => ?_
    refine Completes.expect (by decide) fun _ lb hlb => ?_
    refine Completes.bind (L := fun ts => ∃ us rb, ts = us ++ [rb] ∧
      Sentence false .declarations us ∧ rb.kind = .rightBrace) ?_ ?_
    · exact completes_block hd fun us rb hus hrb => ⟨us, rb, rfl, hus, hrb⟩
    · rintro _ _ ⟨us, rb, rfl, hus, hrb⟩
      exact completes_pure (by simpa using .function hkw hname hl hps hr hlb hus hrb)
  refine Completes.check (Completes.stay (fun c => ⟨_, rfl⟩) fun params => ?_) ?_
  · exact hbody params [] ⟨[], .inl ⟨rfl, rfl⟩⟩
  · refine (Completes.bounded (completes_parameters 0)).bind ?_
    rintro params ps ⟨names, hps⟩
    exact hbody params ps ⟨names, .inr hps⟩

theorem completes_varDeclaration {kw : Token} (hkw : kw.kind = .kwVar)
    (he : Completed .expression expression) :
    Completes (fun ts => Sentence false .binding (kw :: ts)) (varDeclaration expression) := by
  refine Completes.expect (by decide) fun target name hname => ?_
  refine Completes.accept (by decide) (fun equals hequals => ?_) ?_
  · refine he.bind fun _ ts hts => Completes.expect (by decide) fun _ semi hsemi => ?_
    exact completes_pure (by simpa using .set hkw hname hequals hts hsemi)
  · refine Completes.stay (fun c => ⟨_, rfl⟩) fun _ => ?_
    refine Completes.expect (by decide) fun _ semi hsemi => ?_
    exact completes_pure (.unset hkw hname hsemi)

theorem completes_expressionStatement (he : Completed .expression expression) :
    Completed .simple (expressionStatement expression) := by
  refine he.bind fun _ ts hts => Completes.expect (by decide) fun _ semi hsemi => ?_
  exact completes_pure (.simple hts hsemi)

theorem completes_printStatement {kw : Token} (hkw : kw.kind = .kwPrint)
    (he : Completed .expression expression) :
    Completes (fun ts => IsStatement (kw :: ts)) (printStatement expression) := by
  refine he.bind fun _ ts hts => Completes.expect (by decide) fun _ semi hsemi => ?_
  exact completes_pure ⟨false, .print hkw hts hsemi⟩

theorem completes_ifStatement {kw : Token} (hkw : kw.kind = .kwIf)
    (he : Completed .expression expression) (hs : Completes IsStatement statement) :
    Completes (fun ts => IsStatement (kw :: ts)) (ifStatement expression statement) := by
  refine Completes.expect (by decide) fun _ l hl => ?_
  refine he.bind fun _ ts hts => Completes.expect (by decide) fun _ r hr => ?_
  refine hs.bind ?_
  rintro _ us ⟨o, hus⟩
  refine Completes.accept (by decide) (fun otherwise helse => hs.bind ?_) ?_
  · rintro _ vs ⟨o', hvs⟩
    exact completes_pure ⟨o', by simpa using .ifElse hkw hl hts hr hus nofun helse hvs⟩
  · refine Completes.stay (fun c => ⟨_, rfl⟩) fun _ => ?_
    exact completes_pure ⟨true, by simpa using .ifOnly hkw hl hts hr hus⟩

theorem completes_whileStatement {kw : Token} (hkw : kw.kind = .kwWhile)
    (he : Completed .expression expression) (hs : Completes IsStatement statement) :
    Completes (fun ts => IsStatement (kw :: ts)) (whileStatement expression statement) := by
  refine Completes.expect (by decide) fun _ l hl => ?_
  refine he.bind fun _ ts hts => Completes.expect (by decide) fun _ r hr => ?_
  refine hs.bind ?_
  rintro _ us ⟨o, hus⟩
  exact completes_pure ⟨o, by simpa using .loop hkw hl hts hr hus⟩

theorem completes_forInitializer (he : Completed .expression expression) :
    Completed .initializer (forInitializer expression) := by
  refine Completes.accept (by decide) (fun semi hsemi => completes_pure (.noInitializer hsemi)) ?_
  refine Completes.accept (by decide) (fun kw hkw => ?_) ?_
  · exact (completes_varDeclaration hkw he).mono fun ts hts => .boundInitializer hts
  · exact (completes_expressionStatement he).mono fun ts hts => .simpleInitializer hts

theorem completes_clause {L : List Token → Prop} {close : Kind} {implied : Datum → Node}
    {what : String} {go : Node → Parser Node} (he : Completed .expression expression)
    (hk : close ≠ .eof)
    (hgo : ∀ x ts t, t.kind = close → (ts = [] ∨ Sentence false .expression ts) →
      Completes (fun us => L (ts ++ t :: us)) (go x)) :
    Completes L (clause close implied what expression go) := by
  refine Completes.check ?_ ?_
  · refine Completes.stay (fun c => ⟨_, rfl⟩) fun _ => ?_
    refine Completes.stay (fun c => ⟨_, rfl⟩) fun x => ?_
    exact Completes.expect hk fun _ t ht => hgo x [] t ht (.inl rfl)
  · exact he.bind fun x ts hts => Completes.expect hk fun _ t ht => hgo x ts t ht (.inr hts)

theorem completes_forStatement {kw : Token} (hkw : kw.kind = .kwFor)
    (he : Completed .expression expression) (hs : Completes IsStatement statement) :
    Completes (fun ts => IsStatement (kw :: ts)) (forStatement expression statement) := by
  rw [forStatement_eq]
  refine Completes.expect (by decide) fun _ l hl => ?_
  refine (completes_forInitializer he).bind fun _ is his => ?_
  refine completes_clause he (by decide) fun _ cs semi hsemi hcs => ?_
  refine completes_clause he (by decide) fun _ ns r hr hns => hs.bind ?_
  rintro _ us ⟨o, hus⟩
  have hcondition : Sentence false .condition (cs ++ [semi]) := by
    obtain rfl | hcs := hcs
    · exact .noCondition hsemi
    · exact .someCondition hcs hsemi
  have hincrement : Sentence false .increment (ns ++ [r]) := by
    obtain rfl | hns := hns
    · exact .noIncrement hr
    · exact .someIncrement hns hr
  exact completes_pure ⟨o, by
    simpa using Sentence.counted hkw hl his hcondition hincrement hus⟩

theorem completes_statementRule (hd : Completed .declaration declaration)
    (hs : Completes IsStatement statement) (he : Completed .expression expression) :
    Completes IsStatement (statementRule declaration statement expression) := by
  refine Completes.accept (by decide) (fun kw hkw => completes_ifStatement hkw he hs) ?_
  refine Completes.accept (by decide) (fun kw hkw => completes_printStatement hkw he) ?_
  refine Completes.accept (by decide) (fun kw hkw => completes_whileStatement hkw he hs) ?_
  refine Completes.accept (by decide) (fun kw hkw => completes_forStatement hkw he hs) ?_
  refine Completes.accept (by decide) (fun l hl => ?_) ?_
  · refine Completes.bind (L := fun ts => IsStatement (l :: ts)) ?_ fun _ ts hts => ?_
    · exact completes_block hd fun ts rb hts hrb => ⟨false, .block hl hts hrb⟩
    · exact completes_pure (by simpa using hts)
  · exact (completes_expressionStatement he).mono fun ts hts => ⟨false, .plain hts⟩

theorem completes_declarationRule (hd : Completed .declaration declaration)
    (hs : Completes IsStatement statement) (he : Completed .expression expression) :
    Completed .declaration (declarationRule declaration statement expression) := by
  refine Completes.accept (by decide) (fun kw hkw => completes_functionDeclaration hkw hd) ?_
  refine Completes.accept (by decide) (fun kw hkw => ?_) ?_
  · exact (completes_varDeclaration hkw he).mono fun ts hts => .bound hts
  · exact hs.mono fun ts ⟨o, hts⟩ => .statement hts

end Statements

section Expressions

variable {expression operand assignment chain unary call primary : Parser Node} {us : List Token}

theorem completes_chainTail {level : Level} (ho : Completed level.operand operand)
    (left : Node) (turns : List Token) (hus : Sentence false (.chain level) us) :
    Completes (fun ts => Sentence false (.chain level) (us ++ ts))
      (chainTail level operand left turns) := by
  induction turns generalizing left us with
  | nil => exact completes_pure (by simpa using hus)
  | cons turn turns ih =>
    refine Completes.accept? (by cases level <;> decide) (fun operator hop => ?_)
      (completes_pure (by simpa using hus))
    refine ho.bind fun right ts hts => ?_
    simpa using ih (level.join left operator right) (.joined hus hop hts)

theorem completes_chainRule {level : Level} (ho : Completed level.operand operand) :
    Completed (.chain level) (chainRule level operand) :=
  ho.bind fun left _ hts => Completes.bounded fun turns =>
    completes_chainTail ho left turns (.operand hts)

/-- An operand of an assignment that is not the last thing in the row has been read in full; so
whether it is a name can be told from its node. -/
theorem completes_assignmentRule (ha : Completed .expression assignment)
    (hchain : Completed (.chain .or) chain) (hname : Recognizes (.chain .or) chain) :
    Completed .expression (assignmentRule assignment chain) := by
  rw [assignmentRule_eq]
  intro c n next errors h hc herrors
  obtain ⟨target, mid, earlier, later, hrun, hrest, rfl⟩ := bind_runs h
  have hearlier e (he : e ∈ earlier) := herrors e (List.mem_append_left _ he)
  have hlater e (he : e ∈ later) := herrors e (List.mem_append_right _ he)
  obtain ⟨ts, more, rfl, hts, hend⟩ := hchain hrun hc hearlier
  obtain ⟨equals, mid, value, inside, hequals, rfl, hvalue, rfl, rfl⟩ | ⟨rfl, rfl, rfl⟩ :=
    acceptLate_runs hrest hc.of_before.1 (by decide)
  · obtain ⟨rfl, rfl⟩ := hend.resolve_right (by simp)
    have hequals : equals.kind = .equal := by simpa using hequals
    obtain ⟨token, rfl, hnone⟩ | hone := name_or_reported target equals
    · obtain ⟨ts', hts', htarget⟩ := hname hrun hc.1
      obtain ⟨rfl, ht⟩ := htarget.eq_of_name rfl
      have hrests := congrArg Cursor.rest hts'
      obtain rfl : ts = [token] := List.append_cancel_right hrests
      obtain ⟨us, more, rfl, hus, hend'⟩ := ha hvalue hc.of_before.of_before fun e he =>
        hlater e (List.mem_append_left _ he)
      exact ⟨token :: equals :: us, more, rfl, .assigned ht hequals hus,
        by simpa [hnone] using hend'⟩
    · -- an error at an equals sign is not at the end
      have heof := hlater ⟨equals, .invalidTarget⟩ (by simp [hone])
      simp [hequals] at heof
  · exact ⟨ts, more, rfl, .value hts, by simpa using hend⟩

theorem completes_unaryRule (hu : Completed .unary unary) (hc : Completed .call call) :
    Completed .unary (unaryRule unary call) := by
  refine Completes.accept? (by decide) (fun operator hop => ?_) ?_
  · exact hu.bind fun _ ts hts => completes_pure (by simpa using .negated hop hts)
  · exact hc.mono fun ts hts => .called hts

theorem completes_finishCall (he : Completed .expression expression) (callee : Node) {l : Token}
    (hl : l.kind = .leftParen) (hus : Sentence false .call us) :
    Completes (fun ts => Sentence false .call (us ++ l :: ts)) (finishCall expression callee) := by
  refine Completes.check (Completes.stay (fun c => ⟨_, rfl⟩) fun args => ?_) ?_
  · exact Completes.expect (by decide) fun _ r hr => completes_pure (.callNone hus hl hr)
  · refine (Completes.bounded (completes_arguments he 0)).bind fun args ts hts => ?_
    exact Completes.expect (by decide) fun _ r hr => completes_pure (.callSome hus hl hts hr)

theorem completes_callTail (he : Completed .expression expression) (callee : Node)
    (turns : List Token) (hus : Sentence false .call us) :
    Completes (fun ts => Sentence false .call (us ++ ts)) (callTail expression callee turns) := by
  induction turns generalizing callee us with
  | nil => exact completes_pure (by simpa using hus)
  | cons turn turns ih =>
    refine Completes.accept (by decide) (fun l hl => ?_) (completes_pure (by simpa using hus))
    refine Completes.bind (L := fun ts => Sentence false .call (us ++ l :: ts)) ?_ ?_
    · exact completes_finishCall he callee hl hus
    · intro called ts hts
      simpa using ih called hts

theorem completes_callRule (he : Completed .expression expression)
    (hp : Completed .primary primary) : Completed .call (callRule expression primary) :=
  hp.bind fun callee _ hts => Completes.bounded fun turns =>
    completes_callTail he callee turns (.callee hts)

theorem completes_primaryRule (he : Completed .expression expression) :
    Completed .primary (primaryRule expression) := by
  refine Completes.accept? (by decide) (fun t ht => completes_pure (.literal ht)) ?_
  refine Completes.accept? (by decide) (fun t ht => completes_pure (.name (by simpa using ht))) ?_
  refine Completes.accept (by decide) (fun l hl => ?_) ?_
  · refine he.bind fun _ ts hts => Completes.expect (by decide) fun _ r hr => ?_
    exact completes_pure (.grouping hl hts hr)
  · rw [complain_bind]
    exact completes_missing [.implied .kwNil "nil" .null] (.literal (by decide))

end Expressions

structure CompletedAt (depth : Nat) : Prop where
  declaration : Completed .declaration (Grammar.declaration depth)
  statement : Completes IsStatement (Grammar.statement depth)
  expression : Completed .expression (Grammar.expression depth)
  chain (level : Level) : Completed (.chain level) (Grammar.chain level depth)
  unary : Completed .unary (Grammar.unary depth)
  call : Completed .call (Grammar.call depth)
  primary : Completed .primary (Grammar.primary depth)

theorem completedAt (depth : Nat) : CompletedAt depth := by
  induction depth with
  | zero =>
    constructor
    case chain => exact fun _ => completes_tooDeep
    all_goals exact completes_tooDeep
  | succ d ih =>
    constructor
    case declaration => exact completes_declarationRule ih.declaration ih.statement ih.expression
    case statement => exact completes_statementRule ih.declaration ih.statement ih.expression
    case expression =>
      exact completes_assignmentRule ih.expression (ih.chain .or) ((recognizesAt d).chain .or)
    case chain =>
      intro level
      refine completes_chainRule ?_
      cases level with
      | factor => exact ih.unary
      | _ => exact ih.chain _
    case unary => exact completes_unaryRule ih.unary ih.call
    case call => exact completes_callRule ih.expression ih.primary
    case primary => exact completes_primaryRule ih.expression

/-- If nothing is reported before the end, the tokens can be completed to a program. -/
theorem programFrom_completes {depth : Nat} {turns : List Token} {c : Cursor} (hc : c.EndsOnce)
    (hturns : c.rest.length ≤ turns.length) (hdeep : Shallow (programFrom depth turns c).errors)
    (herrors : ∀ e ∈ (programFrom depth turns c).errors, e.token.kind = .eof) :
    ∃ more, IsSentence (c.rest ++ more) := by
  by_cases hrest : c.rest = []
  · exact ⟨[], by rw [hrest]; exact .none⟩
  induction turns generalizing c with
  | nil => exact absurd (List.eq_nil_of_length_eq_zero (Nat.le_zero.1 hturns)) hrest
  | cons turn turns ih =>
    obtain ⟨first, next, errors, hrun, heq, hdeep'⟩ := programFrom_cons hrest hdeep
    rw [heq] at herrors
    have hfirst e (he : e ∈ errors) := herrors e (List.mem_append_left _ he)
    have hlater e he := herrors e (List.mem_append_right errors he)
    obtain ⟨ts, more, rfl, hts, hend⟩ := (completedAt depth).declaration hrun hc hfirst
    by_cases hnext : next.rest = []
    · have hall : IsSentence (ts ++ more ++ []) := .more hts .none
      rw [List.append_nil] at hall
      exact ⟨more, by rwa [Cursor.rest_before, hnext, List.append_nil]⟩
    · obtain ⟨-, rfl⟩ := hend.resolve_right hnext
      rw [List.append_nil] at hts
      obtain ⟨t, us, rfl, -⟩ := hts.startsWith (by decide)
      obtain ⟨more, hmore⟩ := ih hc.of_before (by simp at hturns; omega) hdeep' hlater hnext
      exact ⟨more, by simpa using .more hts hmore⟩

theorem parse_completes {depth : Nat} {tokens : List Token} {last : Token}
    (hlast : last.kind = .eof) (htokens : ∀ t ∈ tokens, t.kind ≠ .eof)
    (hdeep : Shallow (parse depth tokens last).errors)
    (herrors : ∀ e ∈ (parse depth tokens last).errors, e.token.kind = .eof) :
    ∃ more, IsSentence (tokens ++ more) :=
  programFrom_completes (c := ⟨tokens, last⟩) ⟨hlast, htokens⟩ (Nat.le_refl _) hdeep herrors

end Grammar

end Lox
