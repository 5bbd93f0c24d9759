import Lox.Proofs.Grammar.Progress

/-!
What a parser reports of the tokens it has seen does not depend on those to come. Two runs, over
rows that start alike, go together until one of them comes to where the rows part. From there on
each of them reports only what is ahead of it. So with some tokens near and no near token after
the place where the rows part, both runs report the same of the near tokens, even if the one may
nest deeper than the other.
-/
namespace Lox

section Cursors

variable {near : Token → Bool} {c : Cursor} {ts : List Token}

/-- No token ahead is near. -/
def Cursor.Far (near : Token → Bool) (c : Cursor) : Prop := ∀ t, c.Ahead t → near t = false

theorem Cursor.Far.of_before (h : (c.before ts).Far near) : c.Far near :=
  fun t ht => h t (ht.before ts)

def nearErrors (near : Token → Bool) (errors : List SyntaxError) : List SyntaxError :=
  errors.filter fun e => near e.token

theorem nearErrors_append (errors errors' : List SyntaxError) :
    nearErrors near (errors ++ errors') = nearErrors near errors ++ nearErrors near errors' :=
  List.filter_append ..

theorem Cursor.Far.nearErrors {errors : List SyntaxError} (h : c.Far near)
    (herrors : ∀ e ∈ errors, c.Ahead e.token) : nearErrors near errors = [] := by
  simpa [Lox.nearErrors] using fun e he => h _ (herrors e he)

end Cursors

namespace Parser

variable {α β : Type} {near : Token → Bool} {moves : Bool} {d e : Cursor}

/-- Two runs that came to where their rows part have reported the same of the near tokens, unless
one of them was stopped. -/
inductive Apart (near : Token → Bool) : Parsed α → Parsed α → Prop where
  | done {a b : α} {next next' : Cursor} {errors errors' : List SyntaxError} :
      next.Closed → next'.Closed → next.Far near → next'.Far near →
      nearErrors near errors = nearErrors near errors' →
      Apart near (.done a next errors) (.done b next' errors')
  | left {next : Cursor} {errors : List SyntaxError} {r : Parsed α} :
      Apart near (.tooDeep next errors) r
  | right {next : Cursor} {errors : List SyntaxError} {r : Parsed α} :
      Apart near r (.tooDeep next errors)

/-- Two runs are together, with the rows `d` and `e` still to come, or apart. -/
inductive Matched (near : Token → Bool) (d e : Cursor) : Parsed α → Parsed α → Prop where
  | together (a : α) (us : List Token) (errors : List SyntaxError) :
      Matched near d e (.done a (d.before us) errors) (.done a (e.before us) errors)
  | apart {r s : Parsed α} : Apart near r s → Matched near d e r s

/-- Two parsers go onward, and go together over rows that start alike. -/
structure Agree (near : Token → Bool) (moves : Bool) (p q : Parser α) : Prop where
  left : Onward moves p
  right : Onward moves q
  matched (us : List Token) {d e : Cursor} : d.Closed → e.Closed → d.Far near → e.Far near →
    Matched near d e (p (d.before us)) (q (e.before us))

theorem Apart.after {r s : Parsed α} (h : Apart near r s) {errors errors' : List SyntaxError}
    (herrors : nearErrors near errors = nearErrors near errors') :
    Apart near (after errors r) (Parser.after errors' s) := by
  cases h with
  | done hc hc' hfar hfar' hnear =>
    refine .done hc hc' hfar hfar' ?_
    rw [nearErrors_append, nearErrors_append, herrors, hnear]
  | left => exact .left
  | right => exact .right

theorem Matched.after {r s : Parsed α} (h : Matched near d e r s) (errors : List SyntaxError) :
    Matched near d e (after errors r) (Parser.after errors s) := by
  cases h with
  | together a us errors' => exact .together a us _
  | apart h => exact .apart (h.after rfl)

theorem Onward.apart {moves' : Bool} {p q : Parser α} (hp : Onward moves p)
    (hq : Onward moves' q) {c c' : Cursor} (hc : c.Closed) (hc' : c'.Closed) (hfar : c.Far near)
    (hfar' : c'.Far near) : Apart near (p c) (q c') := by
  cases hrun : p c with
  | tooDeep => exact .left
  | done a next errors =>
    cases hrun' : q c' with
    | tooDeep => exact .right
    | done b next' errors' =>
      obtain ⟨ts, rfl, -, herrors⟩ := hp hrun hc
      obtain ⟨ts', rfl, -, herrors'⟩ := hq hrun' hc'
      refine .done hc hc' hfar.of_before hfar'.of_before ?_
      rw [hfar.nearErrors herrors, hfar'.nearErrors herrors']

/-- Whether parsers go together is to be seen where a token is left before the rows part. -/
theorem Agree.of_cons {p q : Parser α} (hp : Onward moves p) (hq : Onward moves q)
    (h : ∀ t us {d e : Cursor}, d.Closed → e.Closed → d.Far near → e.Far near →
      Matched near d e (p (d.before (t :: us))) (q (e.before (t :: us)))) :
    Agree near moves p q where
  left := hp
  right := hq
  matched us {d e} hd he hfar hfar' := by
    cases us with
    | nil => exact .apart (hp.apart hq hd he hfar hfar')
    | cons t us => exact h t us hd he hfar hfar'

theorem Agree.weak {p q : Parser α} (h : Agree near moves p q) : Agree near false p q :=
  ⟨h.left.weak, h.right.weak, h.matched⟩

theorem agree_pure (a : α) : Agree near false (pure a) (pure a) :=
  ⟨onward_pure a, onward_pure a, fun us _ _ _ _ _ _ => .together a us []⟩

theorem agree_peek : Agree near false peek peek :=
  .of_cons onward_peek onward_peek fun t us _ _ _ _ _ _ => .together t (t :: us) []

theorem agree_check (kind : Kind) : Agree near false (check kind) (check kind) :=
  .of_cons (onward_check kind) (onward_check kind) fun t us _ _ _ _ _ _ =>
    .together (decide (t.kind = kind)) (t :: us) []

theorem agree_skip : Agree near true skip skip :=
  .of_cons onward_skip onward_skip fun _ us _ _ _ _ _ _ => .together () us []

theorem agree_complain (problem : Problem) :
    Agree near false (complain problem) (complain problem) :=
  .of_cons (onward_complain problem) (onward_complain problem) fun t us _ _ _ _ _ _ =>
    .together t (t :: us) [⟨t, problem⟩]

theorem agree_expect {kind : Kind} {what : String} (hk : kind ≠ .eof) :
    Agree near false (expect kind what) (expect kind what) := by
  refine .of_cons (onward_expect hk) (onward_expect hk) fun t us d e _ _ _ _ => ?_
  by_cases h : t.kind = kind
  · simpa [expect, h] using .together t us []
  · simpa [expect, h] using .together t (t :: us) [⟨t, .expected what⟩]

theorem agree_accept? {kinds : List Kind} (hk : .eof ∉ kinds) :
    Agree near false (accept? kinds) (accept? kinds) := by
  refine .of_cons (onward_accept? hk) (onward_accept? hk) fun t us d e _ _ _ _ => ?_
  by_cases h : t.kind ∈ kinds
  · simpa [Parser.accept?, h] using .together (some t) us []
  · simpa [Parser.accept?, h] using .together none (t :: us) []

theorem Matched.bind {p q : Parser α} {f g : α → Parser β} {c c' : Cursor}
    (h : Matched near d e (p c) (q c'))
    (hf : ∀ a us, Matched near d e (f a (d.before us)) (g a (e.before us)))
    (hfar : ∀ a b {next next' : Cursor}, next.Closed → next'.Closed → next.Far near →
      next'.Far near → Apart near (f a next) (g b next')) :
    Matched near d e ((p >>= f) c) ((q >>= g) c') := by
  generalize hr : p c = r at h
  generalize hs : q c' = s at h
  cases h with
  | together a us errors =>
    rw [bind_of_done hr, bind_of_done hs]
    exact (hf a us).after errors
  | apart h =>
    cases h with
    | @done a b _ _ _ _ hc hc' hnext hnext' herrors =>
      rw [bind_of_done hr, bind_of_done hs]
      exact .apart ((hfar a b hc hc' hnext hnext').after herrors)
    | left =>
      rw [bind_of_tooDeep hr]
      exact .apart .left
    | right =>
      rw [bind_of_tooDeep hs]
      exact .apart .right

theorem Agree.bind_matched {p q : Parser α} {f g : α → Parser β} {moves' : Bool}
    (hp : Agree near moves p q) (hf : ∀ a, Agree near moves' (f a) (g a)) (us : List Token)
    (hd : d.Closed) (he : e.Closed) (hfar : d.Far near) (hfar' : e.Far near) :
    Matched near d e ((p >>= f) (d.before us)) ((q >>= g) (e.before us)) :=
  (hp.matched us hd he hfar hfar').bind (fun a vs => (hf a).matched vs hd he hfar hfar')
    fun a b => (hf a).left.apart (hf b).right

theorem Agree.bind {p q : Parser α} {f g : α → Parser β} (hp : Agree near moves p q)
    (hf : ∀ a, Agree near false (f a) (g a)) : Agree near moves (p >>= f) (q >>= g) :=
  ⟨hp.left.bind fun a => (hf a).left, hp.right.bind fun a => (hf a).right,
    fun us _ _ hd he => hp.bind_matched hf us hd he⟩

theorem Agree.seq {p q : Parser α} {f g : α → Parser β} (hp : Agree near false p q)
    (hf : ∀ a, Agree near moves (f a) (g a)) : Agree near moves (p >>= f) (q >>= g) :=
  ⟨hp.left.seq fun a => (hf a).left, hp.right.seq fun a => (hf a).right,
    fun us _ _ hd he => hp.bind_matched hf us hd he⟩

theorem Agree.accept? {kinds : List Kind} {f g : Option Token → Parser α} (hk : .eof ∉ kinds)
    (hsome : ∀ t, Agree near false (f (some t)) (g (some t)))
    (hnone : Agree near moves (f none) (g none)) :
    Agree near moves (Parser.accept? kinds >>= f) (Parser.accept? kinds >>= g) := by
  refine ⟨.accept? hk (fun t => (hsome t).left) hnone.left,
    .accept? hk (fun t => (hsome t).right) hnone.right, fun us _ _ hd he => ?_⟩
  have hfound (found : Option Token) : Agree near false (f found) (g found) := by
    cases found with
    | none => exact hnone.weak
    | some t => exact hsome t
  exact (agree_accept? hk).bind_matched hfound us hd he

theorem Agree.accept {kind : Kind} {yes yes' no no' : Parser α} (hk : kind ≠ .eof)
    (hyes : Agree near false yes yes') (hno : Agree near moves no no') :
    Agree near moves (Parser.accept kind >>= fun found => if found = true then yes else no)
      (Parser.accept kind >>= fun found => if found = true then yes' else no') := by
  rw [accept_bind, accept_bind]
  exact Agree.accept? (by simpa using hk.symm) (fun _ => hyes) hno

theorem Agree.check {kind : Kind} {yes yes' no no' : Parser α}
    (hyes : Agree near false yes yes') (hno : Agree near false no no') :
    Agree near false (Parser.check kind >>= fun found => if found = true then yes else no)
      (Parser.check kind >>= fun found => if found = true then yes' else no') := by
  refine (agree_check kind).bind fun found => ?_
  cases found with
  | true => exact hyes
  | false => exact hno

def finish (b : β) (late : List SyntaxError) : Parser β := fun c => .done b c late

/-- A choice by the next token, which may be reported after what follows it. -/
def acceptLate (kinds : List Kind) (b : β) (p : Parser α) (result : α → β)
    (late : Token → List SyntaxError) : Parser β := do
  match ← accept? kinds with
  | none => return b
  | some t => finish (result (← p)) (late t)

theorem acceptLate_runs {kinds : List Kind} {b b' : β} {p : Parser α} {result : α → β}
    {late : Token → List SyntaxError} {c next : Cursor} {errors : List SyntaxError}
    (h : acceptLate kinds b p result late c = .done b' next errors) (hc : c.Closed)
    (hk : .eof ∉ kinds) :
    (∃ t mid a earlier, t.kind ∈ kinds ∧ c = mid.before [t] ∧ p mid = .done a next earlier ∧
      b' = result a ∧ errors = earlier ++ late t) ∨ (c = next ∧ b' = b ∧ errors = []) := by
  obtain ⟨found, mid, earlier, later, hrun, hrest, rfl⟩ := bind_runs h
  obtain ⟨rfl, ⟨t, rfl, ht, rfl⟩ | ⟨rfl, rfl, -⟩⟩ := accept?_runs hrun hc hk
  · obtain ⟨a, _, earlier, later, hp, hlast, rfl⟩ := bind_runs hrest
    cases hlast
    exact .inl ⟨t, mid, a, earlier, ht, rfl, hp, rfl, rfl⟩
  · cases hrest
    exact .inr ⟨rfl, rfl, rfl⟩

theorem Onward.acceptLate {kinds : List Kind} {b : β} {p : Parser α} {result : α → β}
    {late : Token → List SyntaxError} (hk : .eof ∉ kinds) (hp : Onward moves p)
    (hlate : ∀ t, ∀ e ∈ late t, e.token = t) :
    Onward false (acceptLate kinds b p result late) := by
  intro c b' next errors h hc
  obtain ⟨t, mid, a, earlier, -, rfl, hrun, -, rfl⟩ | ⟨rfl, -, rfl⟩ := acceptLate_runs h hc hk
  · obtain ⟨ts, rfl, -, hearlier⟩ := hp hrun hc
    refine ⟨t :: ts, rfl, nofun, fun e he => ?_⟩
    obtain he | he := List.mem_append.1 he
    · exact (hearlier e he).before [t]
    · exact Cursor.ahead_before.2 (.inl (by simp [hlate t e he]))
  · exact ⟨[], rfl, nofun, by simp⟩

theorem Agree.acceptLate {kinds : List Kind} {b : β} {p q : Parser α} {result : α → β}
    {late : Token → List SyntaxError} (hk : .eof ∉ kinds) (h : Agree near moves p q)
    (hlate : ∀ t, ∀ e ∈ late t, e.token = t) :
    Agree near false (acceptLate kinds b p result late) (acceptLate kinds b q result late) := by
  refine .of_cons (h.left.acceptLate hk hlate) (h.right.acceptLate hk hlate)
    fun t us d e hd he hfar hfar' => ?_
  by_cases ht : t.kind ∈ kinds
  · have hrun (c : Cursor) :
        Parser.accept? kinds (c.before (t :: us)) = .done (some t) (c.before us) [] := by
      simp [Parser.accept?, ht]
    unfold Parser.acceptLate
    rw [bind_of_done (hrun d), bind_of_done (hrun e), after_nil, after_nil]
    refine (h.matched us hd he hfar hfar').bind (fun a vs => .together (result a) vs (late t)) ?_
    exact fun a b _ _ hc hc' hnext hnext' => .done hc hc' hnext hnext' rfl
  · have hrun (c : Cursor) :
        Parser.accept? kinds (c.before (t :: us)) = .done none (c.before (t :: us)) [] := by
      simp [Parser.accept?, ht]
    unfold Parser.acceptLate
    rw [bind_of_done (hrun d), bind_of_done (hrun e), after_nil, after_nil]
    exact .together b (t :: us) []

theorem Agree.bounded {loop loop' : List Token → Parser α} (hs : Settled loop)
    (hs' : Settled loop') (h : ∀ turns, Agree near moves (loop turns) (loop' turns)) :
    Agree near moves (Parser.bounded loop) (Parser.bounded loop') := by
  refine ⟨onward_bounded fun turns => (h turns).left, onward_bounded fun turns => (h turns).right,
    fun us d e hd he hfar hfar' => ?_⟩
  have hlen : (d.before us).rest.length ≤ (us ++ d.rest ++ e.rest).length := by simp
  have hlen' : (e.before us).rest.length ≤ (us ++ d.rest ++ e.rest).length := by
    simp only [Cursor.rest_before, List.length_append]
    omega
  rw [hs.bounded_eq (Cursor.closed_before.2 hd) hlen,
    hs'.bounded_eq (Cursor.closed_before.2 he) hlen']
  exact (h _).matched us hd he hfar hfar'

end Parser

namespace Grammar

open Lox.Parser

variable {near : Token → Bool}

section Statements

variable {declaration declaration' statement statement' expression expression' : Parser Node}

theorem agree_limit {α : Type} {count : Nat} {problem : Problem} {go go' : Unit → Parser α}
    (h : Agree near false (go ()) (go' ())) :
    Agree near false
      (if maxArguments ≤ count then
        (do let t ← peek
            let r ← report t problem
            go r)
      else go ())
      (if maxArguments ≤ count then
        (do let t ← peek
            let r ← report t problem
            go' r)
      else go' ()) := by
  rw [limit_eq, limit_eq]
  split
  · exact (agree_complain problem).bind fun _ => h
  · exact h

theorem agree_parameters (count : Nat) (turns : List Token) :
    Agree near false (parameters count turns) (parameters count turns) := by
  induction turns generalizing count with
  | nil =>
    unfold parameters
    exact agree_limit ((agree_expect (by decide)).bind fun _ => agree_pure _)
  | cons turn turns ih =>
    unfold parameters
    refine agree_limit ((agree_expect (by decide)).bind fun param => ?_)
    exact Agree.accept (by decide) ((ih (count + 1)).bind fun _ => agree_pure _) (agree_pure _)

theorem agree_arguments (he : Agree near false expression expression') (count : Nat)
    (turns : List Token) :
    Agree near false (arguments expression count turns) (arguments expression' count turns) := by
  induction turns generalizing count with
  | nil =>
    unfold arguments
    exact agree_limit (he.bind fun _ => agree_pure _)
  | cons turn turns ih =>
    unfold arguments
    refine agree_limit (he.bind fun argument => ?_)
    exact Agree.accept (by decide) ((ih (count + 1)).bind fun _ => agree_pure _) (agree_pure _)

theorem agree_declarations (hd : Agree near true declaration declaration') (turns : List Token) :
    Agree near false (declarations declaration turns) (declarations declaration' turns) := by
  induction turns with
  | nil => exact agree_pure _
  | cons turn turns ih =>
    refine Agree.check (agree_pure _) (Agree.check (agree_pure _) ?_)
    exact hd.weak.bind fun first => ih.bind fun rest => agree_pure _

theorem agree_block (hd : Agree near true declaration declaration') :
    Agree near false (block declaration) (block declaration') :=
  (Agree.bounded (settled_declarations hd.left) (settled_declarations hd.right)
    (agree_declarations hd)).bind fun _ => (agree_expect (by decide)).bind fun _ => agree_pure _

theorem agree_functionDeclaration (hd : Agree near true declaration declaration') :
    Agree near false (functionDeclaration declaration) (functionDeclaration declaration') := by
  have hbody (target : Token) (params : List Token) : Agree near false (do
      let _ ← expect .rightParen "')' after parameters"
      let _ ← expect .leftBrace "'\x7b' before function body"
      return .function target params (← block declaration) : Parser Node) (do
      let _ ← expect .rightParen "')' after parameters"
      let _ ← expect .leftBrace "'\x7b' before function body"
      return .function target params (← block declaration') : Parser Node) :=
    (agree_expect (by decide)).bind fun _ => (agree_expect (by decide)).bind fun _ =>
      (agree_block hd).bind fun _ => agree_pure _
  refine (agree_expect (by decide)).bind fun target => (agree_expect (by decide)).bind fun _ => ?_
  refine Agree.check ((agree_pure _).bind (hbody target)) ?_
  exact (Agree.bounded (settled_parameters 0) (settled_parameters 0)
    (agree_parameters 0)).bind (hbody target)

theorem agree_varDeclaration (he : Agree near false expression expression') :
    Agree near false (varDeclaration expression) (varDeclaration expression') := by
  refine (agree_expect (by decide)).bind fun target => Agree.accept (by decide) ?_ ?_
  · exact he.bind fun _ => (agree_expect (by decide)).bind fun _ => agree_pure _
  · exact (agree_pure _).bind fun _ => (agree_expect (by decide)).bind fun _ => agree_pure _

theorem agree_expressionStatement {moves : Bool} (he : Agree near moves expression expression') :
    Agree near moves (expressionStatement expression) (expressionStatement expression') :=
  he.bind fun _ => (agree_expect (by decide)).bind fun _ => agree_pure _

theorem agree_printStatement (he : Agree near false expression expression') :
    Agree near false (printStatement expression) (printStatement expression') :=
  he.bind fun _ => (agree_expect (by decide)).bind fun _ => agree_pure _

theorem agree_ifStatement (he : Agree near false expression expression')
    (hs : Agree near false statement statement') :
    Agree near false (ifStatement expression statement) (ifStatement expression' statement') := by
  refine (agree_expect (by decide)).bind fun _ => he.bind fun _ => ?_
  refine (agree_expect (by decide)).bind fun _ => hs.bind fun _ => ?_
  exact Agree.accept (by decide) (hs.bind fun _ => agree_pure _)
    ((agree_pure _).bind fun _ => agree_pure _)

theorem agree_whileStatement (he : Agree near false expression expression')
    (hs : Agree near false statement statement') :
    Agree near false (whileStatement expression statement)
      (whileStatement expression' statement') :=
  (agree_expect (by decide)).bind fun _ => he.bind fun _ =>
    (agree_expect (by decide)).bind fun _ => hs.bind fun _ => agree_pure _

theorem agree_forInitializer (he : Agree near false expression expression') :
    Agree near false (forInitializer expression) (forInitializer expression') :=
  Agree.accept (by decide) (agree_pure _)
    (Agree.accept (by decide) (agree_varDeclaration he) (agree_expressionStatement he))

theorem agree_clause {close : Kind} {implied : Datum → Node} {what : String}
    {go go' : Node → Parser Node} (he : Agree near false expression expression')
    (hk : close ≠ .eof) (hgo : ∀ x, Agree near false (go x) (go' x)) :
    Agree near false (clause close implied what expression go)
      (clause close implied what expression' go') := by
  refine Agree.check (agree_peek.bind fun t => (agree_pure _).bind fun x => ?_)
    (he.bind fun x => ?_)
  · exact (agree_expect hk).bind fun _ => hgo x
  · exact (agree_expect hk).bind fun _ => hgo x

theorem agree_forStatement (he : Agree near false expression expression')
    (hs : Agree near false statement statement') :
    Agree near false (forStatement expression statement)
      (forStatement expression' statement') := by
  rw [forStatement_eq, forStatement_eq]
  refine (agree_expect (by decide)).bind fun _ => (agree_forInitializer he).bind fun _ => ?_
  refine agree_clause he (by decide) fun _ => agree_clause he (by decide) fun _ => ?_
  exact hs.bind fun _ => agree_pure _

theorem agree_statementRule (hd : Agree near true declaration declaration')
    (hs : Agree near true statement statement') (he : Agree near true expression expression') :
    Agree near true (statementRule declaration statement expression)
      (statementRule declaration' statement' expression') := by
  refine Agree.accept (by decide) (agree_ifStatement he.weak hs.weak) ?_
  refine Agree.accept (by decide) (agree_printStatement he.weak) ?_
  refine Agree.accept (by decide) (agree_whileStatement he.weak hs.weak) ?_
  refine Agree.accept (by decide) (agree_forStatement he.weak hs.weak) ?_
  exact Agree.accept (by decide) ((agree_block hd).bind fun _ => agree_pure _)
    (agree_expressionStatement he)

theorem agree_declarationRule (hd : Agree near true declaration declaration')
    (hs : Agree near true statement statement') (he : Agree near true expression expression') :
    Agree near true (declarationRule declaration statement expression)
      (declarationRule declaration' statement' expression') :=
  Agree.accept (by decide) (agree_functionDeclaration hd)
    (Agree.accept (by decide) (agree_varDeclaration he.weak) hs)

end Statements

section Expressions

variable {expression expression' operand operand' assignment assignment' : Parser Node}
  {chain chain' unary unary' call call' primary primary' : Parser Node}

theorem agree_chainTail {level : Level} (ho : Agree near false operand operand') (left : Node)
    (turns : List Token) :
    Agree near false (chainTail level operand left turns)
      (chainTail level operand' left turns) := by
  induction turns generalizing left with
  | nil => exact agree_pure _
  | cons turn turns ih =>
    refine Agree.accept? (by cases level <;> decide) (fun t => ?_) (agree_pure _)
    exact ho.bind fun right => ih _

theorem agree_chainRule {level : Level} (ho : Agree near true operand operand') :
    Agree near true (chainRule level operand) (chainRule level operand') :=
  ho.bind fun left => Agree.bounded (settled_chainTail ho.left level left)
    (settled_chainTail ho.right level left) (agree_chainTail ho.weak left)

def assigned (target value : Node) : Node :=
  match target with
  | .name token => .assign token value
  | _ => target

def targetErrors (target : Node) (equals : Token) : List SyntaxError :=
  match target with
  | .name _ => []
  | _ => [⟨equals, .invalidTarget⟩]

theorem name_or_reported (target : Node) (equals : Token) :
    (∃ token, target = .name token ∧ targetErrors target equals = []) ∨
      targetErrors target equals = [⟨equals, .invalidTarget⟩] := by
  cases target with
  | name token => exact .inl ⟨token, rfl, rfl⟩
  | _ => exact .inr rfl

theorem assignmentRule_eq :
    assignmentRule assignment chain = (chain >>= fun target =>
      acceptLate [.equal] target assignment (assigned target) (targetErrors target)) := by
  unfold assignmentRule acceptLate
  congr
  funext target
  congr
  funext found
  cases found with
  | none => rfl
  | some equals => cases target <;> rfl

theorem agree_assignmentRule (ha : Agree near true assignment assignment')
    (hc : Agree near true chain chain') :
    Agree near true (assignmentRule assignment chain) (assignmentRule assignment' chain') := by
  rw [assignmentRule_eq, assignmentRule_eq]
  refine hc.bind fun target => ha.acceptLate (by decide) fun equals e he => ?_
  obtain ⟨token, -, hnone⟩ | hone := name_or_reported target equals
  · simp [hnone] at he
  · simp only [hone, List.mem_singleton] at he
    rw [he]

theorem agree_unaryRule (hu : Agree near true unary unary') (hc : Agree near true call call') :
    Agree near true (unaryRule unary call) (unaryRule unary' call') :=
  Agree.accept? (by decide) (fun _ => hu.weak.bind fun _ => agree_pure _) hc

theorem agree_finishCall (he : Agree near false expression expression') (callee : Node) :
    Agree near false (finishCall expression callee) (finishCall expression' callee) := by
  have hrest (args : List Node) : Agree near false (do
      let paren ← expect .rightParen "')' after arguments"
      return Node.call callee paren args : Parser Node) (do
      let paren ← expect .rightParen "')' after arguments"
      return Node.call callee paren args : Parser Node) :=
    (agree_expect (by decide)).bind fun _ => agree_pure _
  refine Agree.check ((agree_pure _).bind hrest) ?_
  exact (Agree.bounded (settled_arguments he.left 0) (settled_arguments he.right 0)
    (agree_arguments he 0)).bind hrest

theorem agree_callTail (he : Agree near false expression expression') (callee : Node)
    (turns : List Token) :
    Agree near false (callTail expression callee turns) (callTail expression' callee turns) := by
  induction turns generalizing callee with
  | nil => exact agree_pure _
  | cons turn turns ih =>
    exact Agree.accept (by decide) ((agree_finishCall he callee).bind ih) (agree_pure _)

theorem agree_callRule (he : Agree near true expression expression')
    (hp : Agree near true primary primary') :
    Agree near true (callRule expression primary) (callRule expression' primary') := by
  have hcall := agree_finishCall he.weak
  exact hp.bind fun callee => Agree.bounded (settled_callTail (fun c => (hcall c).left) callee)
    (settled_callTail (fun c => (hcall c).right) callee) (agree_callTail he.weak callee)

theorem agree_primaryRule (he : Agree near true expression expression') :
    Agree near true (primaryRule expression) (primaryRule expression') := by
  refine Agree.accept? (by decide) (fun _ => agree_pure _) ?_
  refine Agree.accept? (by decide) (fun _ => agree_pure _) ?_
  refine Agree.accept (by decide) ?_ ?_
  · exact he.weak.bind fun _ => (agree_expect (by decide)).bind fun _ => agree_pure _
  · rw [complain_bind]
    exact (agree_complain _).seq fun t => agree_skip.bind fun _ => agree_pure _

end Expressions

structure AgreeAt (near : Token → Bool) (d d' : Nat) : Prop where
  declaration : Agree near true (Grammar.declaration d) (Grammar.declaration d')
  statement : Agree near true (Grammar.statement d) (Grammar.statement d')
  expression : Agree near true (Grammar.expression d) (Grammar.expression d')
  chain (level : Level) : Agree near true (Grammar.chain level d) (Grammar.chain level d')
  unary : Agree near true (Grammar.unary d) (Grammar.unary d')
  call : Agree near true (Grammar.call d) (Grammar.call d')
  primary : Agree near true (Grammar.primary d) (Grammar.primary d')

theorem AgreeAt.succ {d d' : Nat} (h : AgreeAt near d d') : AgreeAt near (d + 1) (d' + 1) where
  declaration := agree_declarationRule h.declaration h.statement h.expression
  statement := agree_statementRule h.declaration h.statement h.expression
  expression := agree_assignmentRule h.expression (h.chain .or)
  chain level := by
    refine agree_chainRule ?_
    cases level with
    | factor => exact h.unary
    | _ => exact h.chain _
  unary := agree_unaryRule h.unary h.call
  call := agree_callRule h.expression h.primary
  primary := agree_primaryRule h.expression

theorem agree_tooDeep_left {q : Parser Node} (h : Onward true q) : Agree near true tooDeep q :=
  ⟨onward_tooDeep, h, fun _ _ _ _ _ _ _ => .apart .left⟩

theorem agree_tooDeep_right {p : Parser Node} (h : Onward true p) : Agree near true p tooDeep :=
  ⟨h, onward_tooDeep, fun _ _ _ _ _ _ _ => .apart .right⟩

theorem agreeAt_self (d : Nat) : AgreeAt near d d := by
  induction d with
  | zero =>
    constructor
    case chain => exact fun _ => agree_tooDeep_left onward_tooDeep
    all_goals exact agree_tooDeep_left onward_tooDeep
  | succ d ih => exact ih.succ

theorem agreeAt (d d' : Nat) : AgreeAt near d d' := by
  induction d generalizing d' with
  | zero =>
    have h : AgreeAt near d' d' := agreeAt_self d'
    constructor
    case chain => exact fun level => agree_tooDeep_left (h.chain level).right
    case declaration => exact agree_tooDeep_left h.declaration.right
    case statement => exact agree_tooDeep_left h.statement.right
    case expression => exact agree_tooDeep_left h.expression.right
    case unary => exact agree_tooDeep_left h.unary.right
    case call => exact agree_tooDeep_left h.call.right
    case primary => exact agree_tooDeep_left h.primary.right
  | succ d ih =>
    cases d' with
    | succ d' => exact (ih d').succ
    | zero =>
      have h : AgreeAt near (d + 1) (d + 1) := agreeAt_self (d + 1)
      constructor
      case chain => exact fun level => agree_tooDeep_right (h.chain level).left
      case declaration => exact agree_tooDeep_right h.declaration.left
      case statement => exact agree_tooDeep_right h.statement.left
      case expression => exact agree_tooDeep_right h.expression.left
      case unary => exact agree_tooDeep_right h.unary.left
      case call => exact agree_tooDeep_right h.call.left
      case primary => exact agree_tooDeep_right h.primary.left

theorem onward_declaration (depth : Nat) : Onward true (Grammar.declaration depth) :=
  have h : AgreeAt (fun _ => false) depth depth := agreeAt_self depth
  h.declaration.left

/-- None of the errors is that the nesting was too deep. -/
def Shallow (errors : List SyntaxError) : Prop := ∀ e ∈ errors, e.problem ≠ .nestedTooDeeply

theorem programFrom_cons {depth : Nat} {turn : Token} {turns : List Token} {c : Cursor}
    (hrest : c.rest ≠ []) (hdeep : Shallow (programFrom depth (turn :: turns) c).errors) :
    ∃ first next errors, declaration depth c = .done first next errors ∧
      (programFrom depth (turn :: turns) c).errors =
        errors ++ (programFrom depth turns next).errors ∧
      Shallow (programFrom depth turns next).errors := by
  have hend : c.atEnd = false := by simpa [Cursor.atEnd] using hrest
  cases hrun : declaration depth c with
  | tooDeep next errors =>
    rw [programFrom_tooDeep hend hrun] at hdeep
    exact absurd rfl (hdeep ⟨next.peek, .nestedTooDeeply⟩ (by simp))
  | done first next errors =>
    rw [programFrom_done hend hrun] at hdeep ⊢
    exact ⟨first, next, errors, rfl, rfl, fun e he => hdeep e (List.mem_append_right _ he)⟩

theorem programFrom_end {depth : Nat} {turns : List Token} {c : Cursor} (hrest : c.rest = []) :
    programFrom depth turns c = ⟨[], [], []⟩ := by
  cases turns <;> simp [programFrom, Cursor.atEnd, hrest]

theorem programFrom_nil {depth : Nat} {turns : List Token} {c : Cursor} (hrest : c.rest = []) :
    (programFrom depth turns c).errors = [] := by
  rw [programFrom_end hrest]

/-- A program is the same however many turns it may take, if those are no fewer than the tokens
left. -/
theorem programFrom_turns {depth : Nat} {turns turns' : List Token} {c : Cursor} (hc : c.Closed)
    (hlen : c.rest.length ≤ turns.length) (hlen' : c.rest.length ≤ turns'.length) :
    programFrom depth turns c = programFrom depth turns' c := by
  induction turns generalizing turns' c with
  | nil =>
    have hrest := List.eq_nil_of_length_eq_zero (Nat.le_zero.1 hlen)
    rw [programFrom_end hrest, programFrom_end hrest]
  | cons turn turns ih =>
    by_cases hrest : c.rest = []
    · rw [programFrom_end hrest, programFrom_end hrest]
    · have hpos := List.length_pos_iff.2 hrest
      obtain ⟨turn', turns', rfl⟩ := List.exists_cons_of_length_pos (Nat.lt_of_lt_of_le hpos hlen')
      have hend : c.atEnd = false := by simpa [Cursor.atEnd] using hrest
      cases hrun : declaration depth c with
      | tooDeep next errors =>
        rw [programFrom_tooDeep hend hrun, programFrom_tooDeep hend hrun]
      | done first next errors =>
        obtain ⟨ts, rfl, hmoves, -⟩ := onward_declaration depth hrun hc
        have hts := List.length_pos_iff.2 (hmoves rfl hrest)
        simp only [Cursor.rest_before, List.length_append, List.length_cons] at hlen hlen'
        have hrest : programFrom depth turns next = programFrom depth turns' next :=
          ih hc (by omega) (by omega)
        rw [programFrom_done hend hrun, programFrom_done hend hrun, hrest]

theorem programFrom_ahead {depth : Nat} {turns : List Token} {c : Cursor} (hc : c.Closed)
    (hdeep : Shallow (programFrom depth turns c).errors) :
    ∀ e ∈ (programFrom depth turns c).errors, c.Ahead e.token := by
  induction turns generalizing c with
  | nil => simp [programFrom]
  | cons turn turns ih =>
    by_cases hrest : c.rest = []
    · simp [programFrom_nil hrest]
    · obtain ⟨first, next, errors, hrun, heq, hdeep'⟩ := programFrom_cons hrest hdeep
      obtain ⟨ts, rfl, -, herrors⟩ := onward_declaration depth hrun hc
      rw [heq]
      intro e he
      obtain he | he := List.mem_append.1 he
      · exact herrors e he
      · exact (ih (Cursor.closed_before.1 hc) hdeep' e he).before ts

theorem nearErrors_programFrom {depth : Nat} {turns : List Token} {c : Cursor} (hc : c.Closed)
    (hfar : c.Far near) (hdeep : Shallow (programFrom depth turns c).errors) :
    nearErrors near (programFrom depth turns c).errors = [] :=
  hfar.nearErrors (programFrom_ahead hc hdeep)

/-- Programs that start alike have the same errors at near tokens, if no near token stands after
what they start with. -/
theorem programFrom_agree {depth depth' : Nat} {turns turns' us : List Token} {d e : Cursor}
    (hd : d.Closed) (he : e.Closed) (hfar : d.Far near) (hfar' : e.Far near)
    (hlen : us.length ≤ turns.length) (hlen' : us.length ≤ turns'.length)
    (hdeep : Shallow (programFrom depth turns (d.before us)).errors)
    (hdeep' : Shallow (programFrom depth' turns' (e.before us)).errors) :
    nearErrors near (programFrom depth turns (d.before us)).errors =
      nearErrors near (programFrom depth' turns' (e.before us)).errors := by
  induction turns generalizing turns' us with
  | nil =>
    obtain rfl := List.eq_nil_of_length_eq_zero (Nat.le_zero.1 hlen)
    exact (nearErrors_programFrom hd hfar hdeep).trans
      (nearErrors_programFrom he hfar' hdeep').symm
  | cons turn turns ih =>
    match us, turns' with
    | [], _ =>
      exact (nearErrors_programFrom hd hfar hdeep).trans
        (nearErrors_programFrom he hfar' hdeep').symm
    | u :: us, turn' :: turns' =>
      have hagree : AgreeAt near depth depth' := agreeAt depth depth'
      have hmatched := hagree.declaration.matched (u :: us) hd he hfar hfar'
      obtain ⟨first, next, errors, hrun, heq, hrest⟩ := programFrom_cons (by simp) hdeep
      obtain ⟨first', next', errors', hrun', heq', hrest'⟩ := programFrom_cons (by simp) hdeep'
      rw [heq, heq', nearErrors_append, nearErrors_append]
      rw [hrun, hrun'] at hmatched
      cases hmatched with
      | together _ vs _ =>
        -- the declaration has taken some of the tokens that both have in common
        obtain ⟨ts, hts, hmoves, -⟩ := onward_declaration depth hrun hd
        have hrests : (u :: us) ++ d.rest = (ts ++ vs) ++ d.rest := by
          rw [List.append_assoc]
          exact congrArg Cursor.rest hts
        have hsplit := congrArg List.length (List.append_cancel_right hrests)
        have hpos := List.length_pos_iff.2 (hmoves rfl (by simp))
        simp only [List.length_cons, List.length_append] at hsplit hlen hlen'
        rw [ih (by omega) (by omega) hrest hrest']
      | apart h =>
        -- from here on neither of the two has a near token ahead
        cases h with
        | done hc hc' hnext hnext' herrors =>
          rw [herrors, nearErrors_programFrom hc hnext hrest,
            nearErrors_programFrom hc' hnext' hrest']

end Grammar

end Lox
