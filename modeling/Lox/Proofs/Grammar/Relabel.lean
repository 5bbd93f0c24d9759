import Lox.Proofs.Grammar.Reading
import Lox.Proofs.Tree.Relabel

/-!
Parsing looks at the kinds of tokens only. With other tokens of the same kinds it goes the same
way: to the tree with those tokens in the same places, and to the same errors at those tokens.
-/
namespace Lox

namespace Parser

variable {α β γ δ : Type} {g : Relabelling} {f : α → γ} {h : β → δ}

/-- What the one parser reads, the other reads in the new tokens. -/
def Relabels (g : Relabelling) (f : α → γ) (p : Parser α) (q : Parser γ) : Prop :=
  ∀ c, q (c.map g) = (p c).map g f

theorem relabels_pure (a : α) : Relabels g f (pure a) (pure (f a)) := fun _ => rfl

theorem after_map (earlier : List SyntaxError) (r : Parsed α) :
    after (earlier.map (SyntaxError.map g)) (r.map g f) = (after earlier r).map g f := by
  cases r <;> simp [after, Parsed.map]

theorem Relabels.bind {p : Parser α} {q : Parser γ} {k : α → Parser β} {k' : γ → Parser δ}
    (hp : Relabels g f p q) (hk : ∀ a, Relabels g h (k a) (k' (f a))) :
    Relabels g h (p >>= k) (q >>= k') := by
  intro c
  have hq := hp c
  cases hrun : p c with
  | done a next errors =>
    rw [hrun] at hq
    rw [bind_of_done hrun, bind_of_done hq, hk a next, after_map]
  | tooDeep next errors =>
    rw [hrun] at hq
    rw [bind_of_tooDeep hrun, bind_of_tooDeep hq]
    rfl

theorem relabels_tooDeep : Relabels g f tooDeep tooDeep := fun _ => rfl

theorem relabels_peek : Relabels g g peek peek := by
  intro c
  rw [peek, Cursor.peek_map]
  rfl

theorem relabels_check (kind : Kind) : Relabels g id (check kind) (check kind) := by
  intro c
  rw [check, Cursor.peek_map, g.kind]
  rfl

theorem relabels_skip : Relabels g id skip skip := by
  intro c
  rw [skip, Cursor.advance_map]
  rfl

theorem relabels_report (t : Token) (problem : Problem) :
    Relabels g id (report t problem) (report (g t) problem) := fun _ => rfl

theorem relabels_accept? (kinds : List Kind) :
    Relabels g (Option.map g) (accept? kinds) (accept? kinds) := by
  intro c
  unfold accept?
  rw [Cursor.peek_map, Cursor.advance_map, g.kind]
  split <;> rfl

theorem relabels_accept (kind : Kind) : Relabels g id (accept kind) (accept kind) := by
  apply (relabels_accept? [kind]).bind
  intro found
  cases found <;> exact relabels_pure _

theorem relabels_expect (kind : Kind) (what : String) :
    Relabels g g (expect kind what) (expect kind what) := by
  intro c
  unfold expect
  rw [Cursor.peek_map, Cursor.advance_map, g.kind]
  split <;> rfl

theorem relabels_bounded {loop : List Token → Parser α} {loop' : List Token → Parser γ}
    (hloop : ∀ turns, Relabels g f (loop turns) (loop' (turns.map g))) :
    Relabels g f (bounded loop) (bounded loop') :=
  fun c => hloop c.rest c

theorem relabels_ite {p p' : Parser α} {q q' : Parser γ} (b : Bool) (hp : Relabels g f p q)
    (hp' : Relabels g f p' q') :
    Relabels g f (if b = true then p else p') (if b = true then q else q') := by
  cases b with
  | true => exact hp
  | false => exact hp'

theorem relabels_either {p p' : Parser α} {q q' : Parser γ} {k : α → Parser β}
    {k' : γ → Parser δ} (b : Bool) (hp : Relabels g f p q) (hp' : Relabels g f p' q')
    (hk : ∀ a, Relabels g h (k a) (k' (f a))) :
    Relabels g h (if b = true then p >>= k else p' >>= k)
      (if b = true then q >>= k' else q' >>= k') :=
  relabels_ite b (hp.bind hk) (hp'.bind hk)

end Parser

namespace Grammar

open Lox.Parser Node

abbrev Blind (g : Relabelling) (p : Parser Node) : Prop := Relabels g (map g) p p

variable {g : Relabelling}

theorem map_impliedNil (t : Token) : (impliedNil t.line).map g = impliedNil (g t).line := by
  rw [impliedNil, map, g.implied]
  rfl

theorem map_impliedTrue (t : Token) : (impliedTrue t.line).map g = impliedTrue (g t).line := by
  rw [impliedTrue, map, g.implied]
  rfl

theorem relabels_implied {implied : Datum → Node}
    (himplied : ∀ t : Token, (implied t.line).map g = implied (g t).line) (t : Token) :
    Relabels g (map g) (pure (implied t.line)) (pure (implied (g t).line)) := by
  rw [← himplied]
  exact relabels_pure _

section Rules

theorem relabels_limit {α γ : Type} {f : α → γ} {count : Nat} {problem : Problem}
    {go : Unit → Parser α} {go' : Unit → Parser γ} (h : Relabels g f (go ()) (go' ())) :
    Relabels g f
      (if maxArguments ≤ count then
        (do let t ← peek
            let r ← report t problem
            go r)
      else go ())
      (if maxArguments ≤ count then
        (do let t ← peek
            let r ← report t problem
            go' r)
      else go' ()) := by
  split
  · exact relabels_peek.bind fun t => (relabels_report t problem).bind fun _ => h
  · exact h

theorem relabels_parameters (turns : List Token) (count : Nat) :
    Relabels g (List.map g) (parameters count turns)
      (parameters count (turns.map g)) := by
  induction turns generalizing count with
  | nil =>
    unfold parameters
    apply relabels_limit
    exact (relabels_expect _ _).bind fun param => relabels_pure [param]
  | cons t turns ih =>
    unfold parameters
    apply relabels_limit
    refine (relabels_expect _ _).bind fun param => (relabels_accept _).bind fun b => ?_
    apply relabels_ite b _ (relabels_pure [param])
    exact (ih (count + 1)).bind fun rest => relabels_pure (param :: rest)

variable {declaration statement expression : Parser Node}

theorem relabels_arguments (h : Blind g expression) (turns : List Token)
    (count : Nat) :
    Relabels g (List.map (map g)) (arguments expression count turns)
      (arguments expression count (turns.map g)) := by
  induction turns generalizing count with
  | nil =>
    unfold arguments
    apply relabels_limit
    exact h.bind fun argument => relabels_pure [argument]
  | cons t turns ih =>
    unfold arguments
    apply relabels_limit
    refine h.bind fun argument => (relabels_accept _).bind fun b => ?_
    apply relabels_ite b _ (relabels_pure [argument])
    exact (ih (count + 1)).bind fun rest => relabels_pure (argument :: rest)

theorem relabels_declarations (h : Blind g declaration) (turns : List Token) :
    Relabels g (List.map (map g)) (declarations declaration turns)
      (declarations declaration (turns.map g)) := by
  induction turns with
  | nil => exact relabels_pure []
  | cons t turns ih =>
    refine (relabels_check .rightBrace).bind fun b => relabels_ite b (relabels_pure []) ?_
    refine (relabels_check .eof).bind fun b => relabels_ite b (relabels_pure []) ?_
    exact h.bind fun first => ih.bind fun rest => relabels_pure (first :: rest)

theorem relabels_block (h : Blind g declaration) :
    Relabels g (mapAll g) (block declaration) (block declaration) := by
  rw [funext (mapAll_eq g)]
  refine (relabels_bounded (relabels_declarations h)).bind fun statements => ?_
  exact (relabels_expect _ _).bind fun _ => relabels_pure statements

theorem relabels_functionDeclaration (h : Blind g declaration) :
    Blind g (functionDeclaration declaration) := by
  refine (relabels_expect _ _).bind fun target => (relabels_expect _ _).bind fun _ => ?_
  refine (relabels_check _).bind fun b => ?_
  refine relabels_either b (relabels_pure [])
    (relabels_bounded fun turns => relabels_parameters turns 0) fun params => ?_
  refine (relabels_expect _ _).bind fun _ => (relabels_expect _ _).bind fun _ => ?_
  exact (relabels_block h).bind fun body => relabels_pure _

theorem relabels_varDeclaration (h : Blind g expression) :
    Blind g (varDeclaration expression) := by
  refine (relabels_expect _ _).bind fun target => (relabels_accept _).bind fun b => ?_
  refine relabels_either b h (relabels_implied map_impliedNil target) fun initial => ?_
  exact (relabels_expect _ _).bind fun _ => relabels_pure _

theorem relabels_expressionStatement (h : Blind g expression) :
    Blind g (expressionStatement expression) :=
  h.bind fun _ => (relabels_expect _ _).bind fun _ => relabels_pure _

theorem relabels_printStatement (h : Blind g expression) :
    Blind g (printStatement expression) :=
  h.bind fun _ => (relabels_expect _ _).bind fun _ => relabels_pure _

theorem relabels_ifStatement (he : Blind g expression)
    (hs : Blind g statement) :
    Blind g (ifStatement expression statement) := by
  refine (relabels_expect _ _).bind fun _ => he.bind fun condition => ?_
  refine (relabels_expect _ _).bind fun _ => hs.bind fun thenBranch => ?_
  refine (relabels_accept _).bind fun b => ?_
  refine relabels_either b hs (relabels_pure _) fun elseBranch => ?_
  exact relabels_pure _

theorem relabels_whileStatement (he : Blind g expression)
    (hs : Blind g statement) :
    Blind g (whileStatement expression statement) := by
  refine (relabels_expect _ _).bind fun _ => he.bind fun condition => ?_
  exact (relabels_expect _ _).bind fun _ => hs.bind fun body => relabels_pure _

theorem relabels_forInitializer (h : Blind g expression) :
    Blind g (forInitializer expression) := by
  refine (relabels_accept _).bind fun b => relabels_ite b (relabels_pure _) ?_
  refine (relabels_accept _).bind fun b => relabels_ite b (relabels_varDeclaration h) ?_
  exact relabels_expressionStatement h

theorem relabels_clause (h : Blind g expression) {close : Kind} {implied : Datum → Node}
    {what : String} {go go' : Node → Parser Node}
    (himplied : ∀ t : Token, (implied t.line).map g = implied (g t).line)
    (hgo : ∀ n, Relabels g (map g) (go n) (go' (n.map g))) :
    Relabels g (map g) (clause close implied what expression go)
      (clause close implied what expression go') := by
  refine (relabels_check close).bind fun b => ?_
  have hrest (n : Node) : Relabels g (map g) (do let _ ← expect close what; go n)
      (do let _ ← expect close what; go' (n.map g)) :=
    (relabels_expect close what).bind fun _ => hgo n
  apply relabels_ite b
  · exact relabels_peek.bind fun t => (relabels_implied himplied t).bind hrest
  · exact h.bind hrest

theorem relabels_forStatement (he : Blind g expression)
    (hs : Blind g statement) :
    Blind g (forStatement expression statement) := by
  rw [forStatement_eq]
  refine (relabels_expect _ _).bind fun _ => (relabels_forInitializer he).bind fun initializer => ?_
  refine relabels_clause he map_impliedTrue fun condition => ?_
  refine relabels_clause he map_impliedNil fun increment => hs.bind fun body => ?_
  exact relabels_pure (forBlock initializer condition increment body)

theorem relabels_statementRule (hd : Blind g declaration)
    (hs : Blind g statement) (he : Blind g expression) :
    Blind g (statementRule declaration statement expression) := by
  refine (relabels_accept _).bind fun b => relabels_ite b (relabels_ifStatement he hs) ?_
  refine (relabels_accept _).bind fun b => relabels_ite b (relabels_printStatement he) ?_
  refine (relabels_accept _).bind fun b => relabels_ite b (relabels_whileStatement he hs) ?_
  refine (relabels_accept _).bind fun b => relabels_ite b (relabels_forStatement he hs) ?_
  refine (relabels_accept _).bind fun b => relabels_ite b ?_ (relabels_expressionStatement he)
  exact (relabels_block hd).bind fun statements => relabels_pure _

theorem relabels_declarationRule (hd : Blind g declaration)
    (hs : Blind g statement) (he : Blind g expression) :
    Blind g (declarationRule declaration statement expression) := by
  refine (relabels_accept _).bind fun b => relabels_ite b (relabels_functionDeclaration hd) ?_
  exact (relabels_accept _).bind fun b => relabels_ite b (relabels_varDeclaration he) hs

theorem map_join (level : Level) (left : Node) (operator : Token) (right : Node) :
    (level.join left operator right).map g =
      level.join (left.map g) (g operator) (right.map g) := by
  cases level <;> rfl

variable {operand assignment chain unary call primary : Parser Node}

theorem relabels_chainTail (h : Blind g operand) (level : Level) (left : Node)
    (turns : List Token) :
    Relabels g (map g) (chainTail level operand left turns)
      (chainTail level operand (left.map g) (turns.map g)) := by
  induction turns generalizing left with
  | nil => exact relabels_pure left
  | cons t turns ih =>
    refine (relabels_accept? _).bind fun found => ?_
    cases found with
    | none => exact relabels_pure left
    | some operator =>
      refine h.bind fun right => ?_
      have hjoin := ih (level.join left operator right)
      rwa [map_join] at hjoin

theorem relabels_chainRule (h : Blind g operand) (level : Level) :
    Blind g (chainRule level operand) :=
  h.bind fun left => relabels_bounded (relabels_chainTail h level left)

theorem relabels_assignmentRule (ha : Blind g assignment)
    (hc : Blind g chain) :
    Blind g (assignmentRule assignment chain) := by
  refine hc.bind fun target => (relabels_accept? _).bind fun found => ?_
  cases found with
  | none => exact relabels_pure target
  | some equals =>
    refine ha.bind fun value => ?_
    cases target with
    | name token => exact relabels_pure _
    | _ => exact (relabels_report equals _).bind fun _ => relabels_pure _

theorem relabels_unaryRule (hu : Blind g unary) (hc : Blind g call) :
    Blind g (unaryRule unary call) := by
  refine (relabels_accept? _).bind fun found => ?_
  cases found with
  | none => exact hc
  | some operator => exact hu.bind fun right => relabels_pure _

theorem relabels_finishCall (h : Blind g expression) (callee : Node) :
    Relabels g (map g) (finishCall expression callee) (finishCall expression (callee.map g)) := by
  refine (relabels_check _).bind fun b => ?_
  refine relabels_either b (relabels_pure [])
    (relabels_bounded fun turns => relabels_arguments h turns 0) fun args => ?_
  refine (relabels_expect _ _).bind fun paren => ?_
  have hcall := relabels_pure (g := g) (f := map g) (Node.call callee paren args)
  rwa [map, mapAll_eq] at hcall

theorem relabels_callTail (h : Blind g expression) (callee : Node)
    (turns : List Token) :
    Relabels g (map g) (callTail expression callee turns)
      (callTail expression (callee.map g) (turns.map g)) := by
  induction turns generalizing callee with
  | nil => exact relabels_pure callee
  | cons t turns ih =>
    refine (relabels_accept _).bind fun b => relabels_ite b ?_ (relabels_pure callee)
    exact (relabels_finishCall h callee).bind ih

theorem relabels_callRule (he : Blind g expression)
    (hp : Blind g primary) :
    Blind g (callRule expression primary) :=
  hp.bind fun callee => relabels_bounded (relabels_callTail he callee)

theorem relabels_primaryRule (h : Blind g expression) :
    Blind g (primaryRule expression) := by
  refine (relabels_accept? _).bind fun found => ?_
  cases found with
  | some token => exact relabels_pure _
  | none =>
    refine (relabels_accept? _).bind fun found => ?_
    cases found with
    | some token => exact relabels_pure _
    | none =>
      refine (relabels_accept _).bind fun b => relabels_ite b ?_ ?_
      · refine h.bind fun inside => (relabels_expect _ _).bind fun _ => ?_
        exact relabels_pure _
      · refine relabels_peek.bind fun token => (relabels_report token _).bind fun _ => ?_
        exact relabels_skip.bind fun _ => relabels_implied map_impliedNil token

end Rules

structure RelabelsAt (g : Relabelling) (d : Nat) : Prop where
  declaration : Blind g (declaration d)
  statement : Blind g (statement d)
  expression : Blind g (expression d)
  chain (level : Level) : Blind g (chain level d)
  unary : Blind g (unary d)
  call : Blind g (call d)
  primary : Blind g (primary d)

theorem relabelsAt (g : Relabelling) (d : Nat) : RelabelsAt g d := by
  induction d with
  | zero =>
    constructor
    case chain => exact fun _ => relabels_tooDeep
    all_goals exact relabels_tooDeep
  | succ d ih =>
    constructor
    case declaration => exact relabels_declarationRule ih.declaration ih.statement ih.expression
    case statement => exact relabels_statementRule ih.declaration ih.statement ih.expression
    case expression => exact relabels_assignmentRule ih.expression (ih.chain .or)
    case chain =>
      intro level
      apply relabels_chainRule _ level
      cases level with
      | factor => exact ih.unary
      | _ => exact ih.chain _
    case unary => exact relabels_unaryRule ih.unary ih.call
    case call => exact relabels_callRule ih.expression ih.primary
    case primary => exact relabels_primaryRule ih.expression

theorem programFrom_map (g : Relabelling) (depth : Nat) (turns : List Token) (c : Cursor) :
    programFrom depth (turns.map g) (c.map g) = (programFrom depth turns c).map g := by
  induction turns generalizing c with
  | nil => rfl
  | cons t turns ih =>
    have hend : (c.map g).atEnd = c.atEnd := List.isEmpty_map
    have hfirst := (relabelsAt g depth).declaration c
    rw [List.map_cons, programFrom, programFrom, hend]
    cases hc : c.atEnd with
    | true => rfl
    | false =>
      cases hrun : declaration depth c with
      | tooDeep next errors =>
        rw [hrun] at hfirst
        simp [hfirst, Parsed.map, Parse.map, SyntaxError.map]
      | done first next errors =>
        rw [hrun] at hfirst
        simp [hfirst, Parsed.map, Parse.map, ih next]

/-- New tokens of the same kinds parse to the same tree and the same errors, with the new tokens
in the places of the old. -/
theorem parse_map (g : Relabelling) (depth : Nat) (tokens : List Token) (last : Token) :
    parse depth (tokens.map g) (g last) = (parse depth tokens last).map g :=
  programFrom_map g depth tokens ⟨tokens, last⟩

end Grammar

end Lox
