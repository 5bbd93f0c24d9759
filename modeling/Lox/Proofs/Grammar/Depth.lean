import Lox.Grammar.Parse
import Lox.Proofs.Grammar.Reading

/-!
How deep the parsers have to go. Every rule that comes back to itself has taken a token first, and
ten levels lie between an expression and the expression inside its parentheses. So ten levels for
each token, and a few more, are enough for any row of tokens, in order or not.
-/
namespace Lox

namespace Parser

variable {α β : Type} {n : Nat}

/-- With at most `n` tokens left a parser comes to a result, moves on by some of them, and does
not complain of deep nesting. -/
def Fits (n : Nat) (p : Parser α) : Prop :=
  ∀ c : Cursor, c.Closed → c.rest.length ≤ n → ∃ a next errors ts,
    p c = .done a next errors ∧ c = next.before ts ∧ ∀ e ∈ errors, e.problem ≠ .nestedTooDeeply

theorem Fits.mono {m : Nat} {p : Parser α} (h : Fits n p) (hm : m ≤ n) : Fits m p :=
  fun c hc hlen => h c hc (Nat.le_trans hlen hm)

theorem fits_pure (a : α) : Fits n (pure a) := fun c _ _ => ⟨a, c, [], [], rfl, rfl, by simp⟩

theorem fits_peek : Fits n peek := fun c _ _ => ⟨c.peek, c, [], [], rfl, rfl, by simp⟩

theorem fits_report (t : Token) {problem : Problem} (h : problem ≠ .nestedTooDeeply) :
    Fits n (report t problem) :=
  fun c _ _ => ⟨(), c, _, [], rfl, rfl, by simp [h]⟩

theorem fits_skip : Fits n skip := by
  intro c _ _
  obtain ⟨rest, last⟩ := c
  cases rest with
  | nil => exact ⟨(), _, [], [], rfl, rfl, by simp⟩
  | cons t rest => exact ⟨(), _, [], [t], rfl, rfl, by simp⟩

theorem fits_expect {kind : Kind} {what : String} (hk : kind ≠ .eof) : Fits n (expect kind what) := by
  intro c hc _
  by_cases h : c.peek.kind = kind
  · exact ⟨c.peek, c.advance, [], [c.peek], by simp [expect, h], hc.eq_before (h ▸ hk), by simp⟩
  · exact ⟨c.peek, c, [⟨c.peek, .expected what⟩], [], by simp [expect, h], rfl, by simp⟩

theorem Fits.bind {p : Parser α} {f : α → Parser β} (hp : Fits n p) (hf : ∀ a, Fits n (f a)) :
    Fits n (p >>= f) := by
  intro c hc hlen
  obtain ⟨a, mid, errors, ts, hrun, rfl, herrors⟩ := hp c hc hlen
  simp only [Cursor.rest_before, List.length_append] at hlen
  obtain ⟨b, next, errors', us, hrun', rfl, herrors'⟩ := hf a mid hc (by omega)
  refine ⟨b, next, errors ++ errors', ts ++ us, ?_, by simp [Cursor.before], ?_⟩
  · rw [bind_of_done hrun, hrun']
    rfl
  · simp only [List.mem_append]
    rintro e (he | he)
    · exact herrors e he
    · exact herrors' e he

theorem Fits.accept? {kinds : List Kind} {f : Option Token → Parser α} (hk : .eof ∉ kinds)
    (hsome : ∀ t, ∀ m < n, Fits m (f (some t))) (hnone : Fits n (f none)) :
    Fits n (Parser.accept? kinds >>= f) := by
  intro c hc hlen
  by_cases h : c.peek.kind ∈ kinds
  · have hbefore : c = c.advance.before [c.peek] := hc.eq_before fun he => hk (he ▸ h)
    have hrest : c.rest.length = c.advance.rest.length + 1 := by
      rw [hbefore]
      rfl
    have hrun : Parser.accept? kinds c = .done (some c.peek) c.advance [] := by
      simp [Parser.accept?, h]
    obtain ⟨a, next, errors, ts, hf, hts, herrors⟩ :=
      hsome c.peek c.advance.rest.length (by omega) c.advance hc (Nat.le_refl _)
    refine ⟨a, next, errors, c.peek :: ts, ?_, ?_, herrors⟩
    · rw [bind_of_done hrun, after_nil, hf]
    · rw [Cursor.before_cons, ← hts]
      exact hbefore
  · have hrun : Parser.accept? kinds c = .done none c [] := by simp [Parser.accept?, h]
    obtain ⟨a, next, errors, ts, hf, hts, herrors⟩ := hnone c hc hlen
    refine ⟨a, next, errors, ts, ?_, hts, herrors⟩
    rw [bind_of_done hrun, after_nil, hf]

theorem Fits.accept {kind : Kind} {yes no : Parser α} (hk : kind ≠ .eof)
    (hyes : ∀ m < n, Fits m yes) (hno : Fits n no) :
    Fits n (Parser.accept kind >>= fun found => if found = true then yes else no) := by
  rw [accept_bind]
  exact Fits.accept? (by simpa using hk.symm) (fun _ => hyes) hno

theorem Fits.check {kind : Kind} {yes no : Parser α} (hyes : Fits n yes) (hno : Fits n no) :
    Fits n (Parser.check kind >>= fun found => if found = true then yes else no) := by
  refine Fits.bind (fun c _ _ => ⟨_, c, [], [], rfl, rfl, by simp⟩) fun found => ?_
  cases found with
  | true => exact hyes
  | false => exact hno

theorem Fits.bounded {loop : List Token → Parser α} (h : ∀ turns, Fits n (loop turns)) :
    Fits n (Parser.bounded loop) :=
  fun c hc hlen => h c.rest c hc hlen

end Parser

namespace Grammar

open Lox.Parser

variable {declaration statement expression : Parser Node} {n : Nat}

theorem fits_limit {α : Type} {count : Nat} {problem : Problem} {go : Unit → Parser α}
    (hp : problem ≠ .nestedTooDeeply) (hgo : Fits n (go ())) :
    Fits n (if maxArguments ≤ count then
        (do let t ← peek
            let r ← report t problem
            go r)
      else go ()) := by
  split
  · exact fits_peek.bind fun t => (fits_report t hp).bind fun _ => hgo
  · exact hgo

theorem fits_parameters (count : Nat) (turns : List Token) : Fits n (parameters count turns) := by
  induction turns generalizing count n with
  | nil =>
    unfold parameters
    exact fits_limit (by decide) ((fits_expect (by decide)).bind fun _ => fits_pure _)
  | cons turn turns ih =>
    unfold parameters
    refine fits_limit (by decide) ((fits_expect (by decide)).bind fun param => ?_)
    exact Fits.accept (by decide) (fun m _ => (ih (count + 1)).bind fun _ => fits_pure _)
      (fits_pure _)

theorem fits_arguments (he : Fits n expression) (count : Nat) (turns : List Token) :
    Fits n (arguments expression count turns) := by
  induction turns generalizing count n with
  | nil =>
    unfold arguments
    exact fits_limit (by decide) (he.bind fun _ => fits_pure _)
  | cons turn turns ih =>
    unfold arguments
    refine fits_limit (by decide) (he.bind fun argument => ?_)
    refine Fits.accept (by decide) (fun m hm => ?_) (fits_pure _)
    exact (ih (he.mono (Nat.le_of_lt hm)) (count + 1)).bind fun _ => fits_pure _

theorem fits_declarations (hd : Fits n declaration) (turns : List Token) :
    Fits n (declarations declaration turns) := by
  induction turns with
  | nil => exact fits_pure _
  | cons turn turns ih =>
    refine Fits.check (fits_pure _) (Fits.check (fits_pure _) ?_)
    exact hd.bind fun first => ih.bind fun rest => fits_pure _

theorem fits_block (hd : Fits n declaration) : Fits n (block declaration) :=
  (Fits.bounded (fits_declarations hd)).bind fun _ =>
    (fits_expect (by decide)).bind fun _ => fits_pure _

theorem fits_functionDeclaration (hd : Fits n declaration) :
    Fits n (functionDeclaration declaration) := by
  have hbody (target : Token) (params : List Token) : Fits n (do
      let _ ← expect .rightParen "')' after parameters"
      let _ ← expect .leftBrace "'\x7b' before function body"
      return .function target params (← block declaration) : Parser Node) :=
    (fits_expect (by decide)).bind fun _ => (fits_expect (by decide)).bind fun _ =>
      (fits_block hd).bind fun _ => fits_pure _
  refine (fits_expect (by decide)).bind fun target => (fits_expect (by decide)).bind fun _ => ?_
  refine Fits.check ?_ ?_
  · exact (fits_pure _).bind (hbody target)
  · exact (Fits.bounded (fits_parameters 0)).bind (hbody target)

theorem fits_varDeclaration (he : Fits n expression) : Fits n (varDeclaration expression) := by
  refine (fits_expect (by decide)).bind fun target => ?_
  refine Fits.accept (by decide) (fun m hm => ?_) ?_
  · exact (he.mono (Nat.le_of_lt hm)).bind fun _ =>
      (fits_expect (by decide)).bind fun _ => fits_pure _
  · exact (fits_pure _).bind fun _ => (fits_expect (by decide)).bind fun _ => fits_pure _

theorem fits_expressionStatement (he : Fits n expression) :
    Fits n (expressionStatement expression) :=
  he.bind fun _ => (fits_expect (by decide)).bind fun _ => fits_pure _

theorem fits_printStatement (he : Fits n expression) : Fits n (printStatement expression) :=
  he.bind fun _ => (fits_expect (by decide)).bind fun _ => fits_pure _

theorem fits_ifStatement (he : Fits n expression) (hs : Fits n statement) :
    Fits n (ifStatement expression statement) := by
  refine (fits_expect (by decide)).bind fun _ => he.bind fun _ => ?_
  refine (fits_expect (by decide)).bind fun _ => hs.bind fun _ => ?_
  refine Fits.accept (by decide) (fun m hm => ?_) ((fits_pure _).bind fun _ => fits_pure _)
  exact (hs.mono (Nat.le_of_lt hm)).bind fun _ => fits_pure _

theorem fits_whileStatement (he : Fits n expression) (hs : Fits n statement) :
    Fits n (whileStatement expression statement) :=
  (fits_expect (by decide)).bind fun _ => he.bind fun _ =>
    (fits_expect (by decide)).bind fun _ => hs.bind fun _ => fits_pure _

theorem fits_forInitializer (he : Fits n expression) : Fits n (forInitializer expression) := by
  refine Fits.accept (by decide) (fun _ _ => fits_pure _) ?_
  refine Fits.accept (by decide) (fun m hm => ?_) (fits_expressionStatement he)
  exact fits_varDeclaration (he.mono (Nat.le_of_lt hm))

theorem fits_clause {close : Kind} {implied : Datum → Node} {what : String}
    {go : Node → Parser Node} (he : Fits n expression) (hk : close ≠ .eof)
    (hgo : ∀ x, Fits n (go x)) : Fits n (clause close implied what expression go) := by
  refine Fits.check (fits_peek.bind fun t => (fits_pure _).bind fun x => ?_) (he.bind fun x => ?_)
  · exact (fits_expect hk).bind fun _ => hgo x
  · exact (fits_expect hk).bind fun _ => hgo x

theorem fits_forStatement (he : Fits n expression) (hs : Fits n statement) :
    Fits n (forStatement expression statement) := by
  rw [forStatement_eq]
  refine (fits_expect (by decide)).bind fun _ => (fits_forInitializer he).bind fun _ => ?_
  refine fits_clause he (by decide) fun _ => fits_clause he (by decide) fun _ => ?_
  exact hs.bind fun _ => fits_pure _

theorem fits_statementRule (hd : ∀ m < n, Fits m declaration) (hs : ∀ m < n, Fits m statement)
    (he : Fits n expression) : Fits n (statementRule declaration statement expression) := by
  have he' (m : Nat) (hm : m < n) : Fits m expression := he.mono (Nat.le_of_lt hm)
  refine Fits.accept (by decide) (fun m hm => fits_ifStatement (he' m hm) (hs m hm)) ?_
  refine Fits.accept (by decide) (fun m hm => fits_printStatement (he' m hm)) ?_
  refine Fits.accept (by decide) (fun m hm => fits_whileStatement (he' m hm) (hs m hm)) ?_
  refine Fits.accept (by decide) (fun m hm => fits_forStatement (he' m hm) (hs m hm)) ?_
  refine Fits.accept (by decide) (fun m hm => ?_) (fits_expressionStatement he)
  exact (fits_block (hd m hm)).bind fun _ => fits_pure _

theorem fits_declarationRule (hd : ∀ m < n, Fits m declaration) (hs : Fits n statement)
    (he : ∀ m < n, Fits m expression) :
    Fits n (declarationRule declaration statement expression) := by
  refine Fits.accept (by decide) (fun m hm => fits_functionDeclaration (hd m hm)) ?_
  exact Fits.accept (by decide) (fun m hm => fits_varDeclaration (he m hm)) hs

theorem fits_chainTail {level : Level} {operand : Parser Node} (ho : Fits n operand) (left : Node)
    (turns : List Token) : Fits n (chainTail level operand left turns) := by
  induction turns generalizing left n with
  | nil => exact fits_pure _
  | cons turn turns ih =>
    refine Fits.accept? (by cases level <;> decide) (fun t m hm => ?_) (fits_pure _)
    have ho' := ho.mono (Nat.le_of_lt hm)
    exact ho'.bind fun right => ih ho' _

theorem fits_chainRule {level : Level} {operand : Parser Node} (ho : Fits n operand) :
    Fits n (chainRule level operand) :=
  ho.bind fun left => Fits.bounded (fits_chainTail ho left)

theorem fits_assignmentRule {assignment chain : Parser Node} (ha : ∀ m < n, Fits m assignment)
    (hchain : Fits n chain) : Fits n (assignmentRule assignment chain) := by
  refine hchain.bind fun target => ?_
  refine Fits.accept? (by decide) (fun equals m hm => (ha m hm).bind fun value => ?_) (fits_pure _)
  split
  · exact fits_pure _
  · exact (fits_report _ (by decide)).bind fun _ => fits_pure _

theorem fits_unaryRule {unary call : Parser Node} (hu : ∀ m < n, Fits m unary)
    (hc : Fits n call) : Fits n (unaryRule unary call) :=
  Fits.accept? (by decide) (fun _ m hm => (hu m hm).bind fun _ => fits_pure _) hc

theorem fits_finishCall (he : Fits n expression) (callee : Node) :
    Fits n (finishCall expression callee) := by
  refine Fits.check ((fits_pure _).bind fun _ => ?_)
    ((Fits.bounded (fits_arguments he 0)).bind fun _ => ?_)
  · exact (fits_expect (by decide)).bind fun _ => fits_pure _
  · exact (fits_expect (by decide)).bind fun _ => fits_pure _

theorem fits_callTail (he : ∀ m < n, Fits m expression) (callee : Node) (turns : List Token) :
    Fits n (callTail expression callee turns) := by
  induction turns generalizing callee n with
  | nil => exact fits_pure _
  | cons turn turns ih =>
    refine Fits.accept (by decide) (fun m hm => ?_) (fits_pure _)
    exact (fits_finishCall (he m hm) callee).bind fun called =>
      ih (fun k hk => he k (Nat.lt_trans hk hm)) called

theorem fits_callRule {primary : Parser Node} (he : ∀ m < n, Fits m expression)
    (hp : Fits n primary) : Fits n (callRule expression primary) :=
  hp.bind fun callee => Fits.bounded (fits_callTail he callee)

theorem fits_primaryRule (he : ∀ m < n, Fits m expression) : Fits n (primaryRule expression) := by
  refine Fits.accept? (by decide) (fun _ _ _ => fits_pure _) ?_
  refine Fits.accept? (by decide) (fun _ _ _ => fits_pure _) ?_
  refine Fits.accept (by decide) (fun m hm => ?_) ?_
  · exact (he m hm).bind fun _ => (fits_expect (by decide)).bind fun _ => fits_pure _
  · exact fits_peek.bind fun t => (fits_report t (by decide)).bind fun _ =>
      fits_skip.bind fun _ => fits_pure _

def Level.below : Level → Nat
  | .or => 5
  | .and => 4
  | .equality => 3
  | .comparison => 2
  | .term => 1
  | .factor => 0

structure FitsAt (depth : Nat) : Prop where
  declaration {n : Nat} : 10 * n + 12 ≤ depth → Fits n (Grammar.declaration depth)
  statement {n : Nat} : 10 * n + 11 ≤ depth → Fits n (Grammar.statement depth)
  expression {n : Nat} : 10 * n + 10 ≤ depth → Fits n (Grammar.expression depth)
  chain {n : Nat} {level : Level} : 10 * n + 4 + level.below ≤ depth →
    Fits n (Grammar.chain level depth)
  unary {n : Nat} : 10 * n + 3 ≤ depth → Fits n (Grammar.unary depth)
  call {n : Nat} : 10 * n + 2 ≤ depth → Fits n (Grammar.call depth)
  primary {n : Nat} : 10 * n + 1 ≤ depth → Fits n (Grammar.primary depth)

theorem fitsAt (depth : Nat) : FitsAt depth := by
  induction depth with
  | zero => constructor <;> intros <;> omega
  | succ d ih =>
    constructor
    case declaration =>
      intro n h
      exact fits_declarationRule (fun m hm => ih.declaration (by omega)) (ih.statement (by omega))
        (fun m hm => ih.expression (by omega))
    case statement =>
      intro n h
      exact fits_statementRule (fun m hm => ih.declaration (by omega))
        (fun m hm => ih.statement (by omega)) (ih.expression (by omega))
    case expression =>
      intro n h
      exact fits_assignmentRule (fun m hm => ih.expression (by omega))
        (ih.chain (by simp only [Level.below]; omega))
    case chain =>
      intro n level h
      refine fits_chainRule ?_
      cases level with
      | factor => exact ih.unary (by simp only [Level.below] at h; omega)
      | _ => exact ih.chain (by simp only [Level.below] at h ⊢; omega)
    case unary =>
      intro n h
      exact fits_unaryRule (fun m hm => ih.unary (by omega)) (ih.call (by omega))
    case call =>
      intro n h
      exact fits_callRule (fun m hm => ih.expression (by omega)) (ih.primary (by omega))
    case primary =>
      intro n h
      exact fits_primaryRule fun m hm => ih.expression (by omega)

theorem programFrom_fits {depth : Nat} {turns : List Token} {c : Cursor} (hc : c.Closed)
    (h : 10 * c.rest.length + 12 ≤ depth) :
    ∀ e ∈ (programFrom depth turns c).errors, e.problem ≠ .nestedTooDeeply := by
  induction turns generalizing c with
  | nil => simp [programFrom]
  | cons turn turns ih =>
    unfold programFrom
    split
    · simp
    · obtain ⟨first, next, errors, ts, hrun, rfl, herrors⟩ :=
        (fitsAt depth).declaration h c hc (Nat.le_refl _)
      simp only [Cursor.rest_before, List.length_append] at h
      simp only [hrun, List.mem_append]
      rintro e (he | he)
      · exact herrors e he
      · exact ih (Cursor.closed_before.1 hc) (by omega) e he

end Grammar

end Lox
