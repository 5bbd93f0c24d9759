import Lox.Grammar.Parse
import Lox.Proofs.Grammar.Coverage
import Lox.Proofs.Grammar.Depth
import Lox.Proofs.Grammar.Recognition

/-!
Programs one after the other. A clean run that leaves tokens over does the same if more tokens
follow, for no parser looks further than one token ahead; and a declaration does the same even if
it leaves none, unless an `else` comes next. So two rows of tokens that are programs on their own,
put one after the other, are parsed to the statements of both, to the same depth.
-/
namespace Lox

namespace Cursor

def extend (more : List Token) (c : Cursor) : Cursor := { c with rest := c.rest ++ more }

variable {more : List Token} {c : Cursor}

@[simp] theorem rest_extend : (c.extend more).rest = c.rest ++ more := rfl

theorem peek_extend (h : c.rest ≠ []) : (c.extend more).peek = c.peek := by
  obtain ⟨rest, last⟩ := c
  cases rest with
  | nil => exact absurd rfl h
  | cons t rest => rfl

theorem advance_extend (h : c.rest ≠ []) : (c.extend more).advance = c.advance.extend more := by
  obtain ⟨rest, last⟩ := c
  cases rest with
  | nil => exact absurd rfl h
  | cons t rest => rfl

theorem Closed.rest_ne_nil (hc : c.Closed) (h : c.peek.kind ≠ .eof) : c.rest ≠ [] :=
  fun hrest => h (hc.peek_nil hrest)

theorem length_advance (h : c.rest ≠ []) : c.advance.rest.length < c.rest.length := by
  have := List.length_pos_iff.2 h
  rw [advance, List.length_tail]
  omega

end Cursor

namespace Parser

variable {α β : Type} {more : List Token}

/-- A clean run does not go back, and with more tokens it is the same if it leaves some over. -/
def Extends (more : List Token) (p : Parser α) : Prop :=
  ∀ ⦃c a next⦄, p c = .done a next [] → c.Closed → next.Closed ∧
    next.rest.length ≤ c.rest.length ∧
    (next.rest ≠ [] → p (c.extend more) = .done a (next.extend more) [])

/-- A clean run does not go back, and with more tokens it is the same. -/
def Steady (more : List Token) (p : Parser α) : Prop :=
  ∀ ⦃c a next⦄, p c = .done a next [] → c.Closed → next.Closed ∧
    next.rest.length ≤ c.rest.length ∧ p (c.extend more) = .done a (next.extend more) []

/-- A clean run moves on, and with more tokens it is the same. -/
def Closes (more : List Token) (p : Parser α) : Prop :=
  ∀ ⦃c a next⦄, p c = .done a next [] → c.Closed → next.Closed ∧
    next.rest.length < c.rest.length ∧ p (c.extend more) = .done a (next.extend more) []

theorem Closes.steady {p : Parser α} (h : Closes more p) : Steady more p := by
  intro c a next hrun hc
  obtain ⟨hnext, hlt, hmore⟩ := h hrun hc
  exact ⟨hnext, Nat.le_of_lt hlt, hmore⟩

theorem Steady.extends {p : Parser α} (h : Steady more p) : Extends more p := by
  intro c a next hrun hc
  obtain ⟨hnext, hle, hmore⟩ := h hrun hc
  exact ⟨hnext, hle, fun _ => hmore⟩

theorem bind_extend {p : Parser α} {f : α → Parser β} {c mid next : Cursor} {a : α} {b : β}
    (hp : p (c.extend more) = .done a (mid.extend more) [])
    (hf : f a (mid.extend more) = .done b (next.extend more) []) :
    (p >>= f) (c.extend more) = .done b (next.extend more) [] := by
  rw [bind_of_done hp, after_nil, hf]

theorem Extends.bind {p : Parser α} {f : α → Parser β} (hp : Extends more p)
    (hf : ∀ a, Extends more (f a)) : Extends more (p >>= f) := by
  intro c b next h hc
  obtain ⟨a, mid, r, k⟩ := bind_done h
  obtain ⟨hmid, hle, hfirst⟩ := hp r hc
  obtain ⟨hnext, hle', hsecond⟩ := hf a k hmid
  refine ⟨hnext, Nat.le_trans hle' hle, fun hrest => bind_extend (hfirst ?_) (hsecond hrest)⟩
  exact List.length_pos_iff.1 (Nat.lt_of_lt_of_le (List.length_pos_iff.2 hrest) hle')

theorem Extends.closes {p : Parser α} {f : α → Parser β} (hp : Extends more p)
    (hf : ∀ a, Closes more (f a)) : Closes more (p >>= f) := by
  intro c b next h hc
  obtain ⟨a, mid, r, k⟩ := bind_done h
  obtain ⟨hmid, hle, hfirst⟩ := hp r hc
  obtain ⟨hnext, hlt, hsecond⟩ := hf a k hmid
  refine ⟨hnext, Nat.lt_of_lt_of_le hlt hle, bind_extend (hfirst ?_) hsecond⟩
  exact List.length_pos_iff.1 (Nat.lt_of_le_of_lt (Nat.zero_le _) hlt)

theorem Steady.bind {p : Parser α} {f : α → Parser β} (hp : Steady more p)
    (hf : ∀ a, Steady more (f a)) : Steady more (p >>= f) := by
  intro c b next h hc
  obtain ⟨a, mid, r, k⟩ := bind_done h
  obtain ⟨hmid, hle, hfirst⟩ := hp r hc
  obtain ⟨hnext, hle', hsecond⟩ := hf a k hmid
  exact ⟨hnext, Nat.le_trans hle' hle, bind_extend hfirst hsecond⟩

theorem Closes.bind {p : Parser α} {f : α → Parser β} (hp : Closes more p)
    (hf : ∀ a, Steady more (f a)) : Closes more (p >>= f) := by
  intro c b next h hc
  obtain ⟨a, mid, r, k⟩ := bind_done h
  obtain ⟨hmid, hlt, hfirst⟩ := hp r hc
  obtain ⟨hnext, hle, hsecond⟩ := hf a k hmid
  exact ⟨hnext, Nat.lt_of_le_of_lt hle hlt, bind_extend hfirst hsecond⟩

theorem steady_pure (a : α) : Steady more (pure a) := by
  intro c a' next h hc
  obtain ⟨rfl, rfl⟩ := pure_done h
  exact ⟨hc, Nat.le_refl _, rfl⟩

theorem closes_tooDeep : Closes more (tooDeep : Parser α) := by
  intro c a next h
  cases h

theorem closes_report (t : Token) (problem : Problem) (f : Unit → Parser α) :
    Closes more (report t problem >>= f) := by
  intro c a next h
  obtain ⟨_, mid, r, -⟩ := bind_done h
  cases r

theorem extends_peek : Extends more peek := by
  intro c a next h hc
  cases h
  refine ⟨hc, Nat.le_refl _, fun hrest => ?_⟩
  rw [peek, Cursor.peek_extend hrest]

theorem extends_check (kind : Kind) : Extends more (check kind) := by
  intro c a next h hc
  cases h
  refine ⟨hc, Nat.le_refl _, fun hrest => ?_⟩
  rw [check, Cursor.peek_extend hrest]

theorem closes_expect {kind : Kind} {what : String} (hk : kind ≠ .eof) :
    Closes more (expect kind what) := by
  intro c t next h hc
  obtain ⟨ht, rfl⟩ := expect_done h hc hk
  refine ⟨hc, by simp, ?_⟩
  have hpeek : ((next.before [t]).extend more).peek = t := rfl
  unfold expect
  rw [hpeek, if_pos ht]
  rfl

theorem extends_accept? {kinds : List Kind} (hk : .eof ∉ kinds) :
    Extends more (accept? kinds) := by
  intro c o next h hc
  obtain ⟨t, rfl, ht, rfl⟩ | ⟨rfl, rfl, ht⟩ := accept?_done h hc hk
  · refine ⟨hc, by simp, fun _ => ?_⟩
    have hpeek : ((next.before [t]).extend more).peek = t := rfl
    unfold accept?
    rw [hpeek, if_pos ht]
    rfl
  · refine ⟨hc, Nat.le_refl _, fun hrest => ?_⟩
    unfold accept?
    rw [Cursor.peek_extend hrest, if_neg ht]

theorem extends_accept {kind : Kind} (hk : kind ≠ .eof) : Extends more (accept kind) :=
  (extends_accept? (by simpa using hk.symm)).bind fun _ => (steady_pure _).extends

theorem extends_ite {p q : Parser α} (b : Bool) (hp : Extends more p) (hq : Extends more q) :
    Extends more (if b = true then p else q) := by
  cases b with
  | true => exact hp
  | false => exact hq

theorem closes_ite {p q : Parser α} (b : Bool) (hp : Closes more p) (hq : Closes more q) :
    Closes more (if b = true then p else q) := by
  cases b with
  | true => exact hp
  | false => exact hq

theorem closes_accept {kind : Kind} {yes no : Parser α} (hk : kind ≠ .eof)
    (hyes : Steady more yes) (hno : Closes more no) :
    Closes more (accept kind >>= fun found => if found = true then yes else no) := by
  intro c a next h hc
  obtain ⟨t, mid, ht, rfl, k⟩ | ⟨hpeek, k⟩ := accept_done h hc hk
  · obtain ⟨hnext, hle, hmore⟩ := hyes k hc
    refine ⟨hnext, by simp; omega, ?_⟩
    have hfound :
        accept kind ((mid.before [t]).extend more) = .done true (mid.extend more) [] := by
      have hpeek : ((mid.before [t]).extend more).peek = t := rfl
      rw [accept_eq, hpeek, if_pos ht]
      rfl
    exact bind_extend hfound hmore
  · obtain ⟨hnext, hlt, hmore⟩ := hno k hc
    have hrest : c.rest ≠ [] := List.length_pos_iff.1 (Nat.lt_of_le_of_lt (Nat.zero_le _) hlt)
    have hnone : accept kind (c.extend more) = .done false (c.extend more) [] := by
      rw [accept_eq, Cursor.peek_extend hrest, if_neg hpeek]
    exact ⟨hnext, hlt, bind_extend hnone hmore⟩

/-- Where at most `n` tokens are left, the one parser does without more tokens what the other does
with them. -/
def ExtendsTo (more : List Token) (n : Nat) (p q : Parser α) : Prop :=
  ∀ ⦃c a next⦄, p c = .done a next [] → c.Closed → c.rest.length ≤ n → next.Closed ∧
    next.rest.length ≤ c.rest.length ∧
    (next.rest ≠ [] → q (c.extend more) = .done a (next.extend more) [])

theorem Extends.extendsTo {p : Parser α} (h : Extends more p) (n : Nat) : ExtendsTo more n p p :=
  fun _ _ _ hrun hc _ => h hrun hc

theorem extends_of_extendsTo {p : Parser α} (h : ∀ n, ExtendsTo more n p p) : Extends more p :=
  fun _ _ _ hrun hc => h _ hrun hc (Nat.le_refl _)

theorem Extends.extendsTo_zero {p : Parser α} (h : Extends more p) (q : Parser α) :
    ExtendsTo more 0 p q := by
  intro c a next hrun hc hlen
  obtain ⟨hnext, hle, -⟩ := h hrun hc
  refine ⟨hnext, hle, fun hrest => ?_⟩
  have := List.length_pos_iff.2 hrest
  omega

theorem ExtendsTo.bind {n : Nat} {p p' : Parser α} {f f' : α → Parser β}
    (hp : ExtendsTo more n p p') (hf : ∀ a, ExtendsTo more n (f a) (f' a)) :
    ExtendsTo more n (p >>= f) (p' >>= f') := by
  intro c b next h hc hlen
  obtain ⟨a, mid, r, k⟩ := bind_done h
  obtain ⟨hmid, hle, hfirst⟩ := hp r hc hlen
  obtain ⟨hnext, hle', hsecond⟩ := hf a k hmid (Nat.le_trans hle hlen)
  refine ⟨hnext, Nat.le_trans hle' hle, fun hrest => bind_extend (hfirst ?_) (hsecond hrest)⟩
  exact List.length_pos_iff.1 (Nat.lt_of_lt_of_le (List.length_pos_iff.2 hrest) hle')

theorem Closes.extendsTo_bind {n : Nat} {p : Parser α} {f f' : α → Parser β}
    (hp : Closes more p) (hf : ∀ a, ExtendsTo more n (f a) (f' a)) :
    ExtendsTo more (n + 1) (p >>= f) (p >>= f') := by
  intro c b next h hc hlen
  obtain ⟨a, mid, r, k⟩ := bind_done h
  obtain ⟨hmid, hlt, hfirst⟩ := hp r hc
  obtain ⟨hnext, hle, hsecond⟩ := hf a k hmid (by omega)
  exact ⟨hnext, by omega, fun hrest => bind_extend hfirst (hsecond hrest)⟩

theorem ExtendsTo.accept? {n : Nat} {kinds : List Kind} {f f' : Option Token → Parser α}
    (hk : .eof ∉ kinds) (hsome : ∀ t, ExtendsTo more n (f (some t)) (f' (some t)))
    (hnone : ExtendsTo more (n + 1) (f none) (f' none)) :
    ExtendsTo more (n + 1) (Parser.accept? kinds >>= f) (Parser.accept? kinds >>= f') := by
  intro c b next h hc hlen
  obtain ⟨o, mid, r, k⟩ := bind_done h
  have haccept : Extends more (Parser.accept? kinds) := extends_accept? hk
  obtain ⟨hmid, hle, hfirst⟩ := haccept r hc
  have hrest' (hle : next.rest.length ≤ mid.rest.length) (hrest : next.rest ≠ []) :
      mid.rest ≠ [] :=
    List.length_pos_iff.1 (Nat.lt_of_lt_of_le (List.length_pos_iff.2 hrest) hle)
  obtain ⟨t, rfl, -, rfl⟩ | ⟨rfl, rfl, -⟩ := accept?_done r hc hk
  · simp only [Cursor.rest_before, List.length_append, List.length_singleton] at hlen
    obtain ⟨hnext, hle', hsecond⟩ := hsome t k hmid (by omega)
    exact ⟨hnext, Nat.le_trans hle' hle,
      fun hrest => bind_extend (hfirst (hrest' hle' hrest)) (hsecond hrest)⟩
  · obtain ⟨hnext, hle', hsecond⟩ := hnone k hmid hlen
    exact ⟨hnext, hle', fun hrest => bind_extend (hfirst (hrest' hle' hrest)) (hsecond hrest)⟩

theorem ExtendsTo.accept {n : Nat} {kind : Kind} {yes yes' no no' : Parser α} (hk : kind ≠ .eof)
    (hyes : ExtendsTo more n yes yes') (hno : ExtendsTo more (n + 1) no no') :
    ExtendsTo more (n + 1) (Parser.accept kind >>= fun found => if found = true then yes else no)
      (Parser.accept kind >>= fun found => if found = true then yes' else no') := by
  rw [accept_bind, accept_bind]
  exact ExtendsTo.accept? (by simpa using hk.symm) (fun _ => hyes) hno

theorem extends_bounded {loop : List Token → Parser α}
    (h : ∀ turns turns', turns.length ≤ turns'.length →
      ExtendsTo more turns.length (loop turns) (loop turns')) : Extends more (bounded loop) := by
  intro c a next hrun hc
  exact h c.rest (c.rest ++ more) (by simp) hrun hc (Nat.le_refl _)

end Parser

namespace Grammar

open Lox.Parser

variable {more : List Token}

section Rules

variable {declaration statement expression : Parser Node}

theorem extends_limit {α : Type} {n count : Nat} {problem : Problem} {go go' : Unit → Parser α}
    (h : ExtendsTo more n (go ()) (go' ())) :
    ExtendsTo more n
      (if maxArguments ≤ count then
        (do let t ← peek
            let r ← report t problem
            go r)
      else go ())
      (if maxArguments ≤ count then
        (do let t ← peek
            let r ← report t problem
            go' r)
      else go' ()) := by
  split
  · intro c a next hrun
    obtain ⟨t, mid, -, k⟩ := bind_done hrun
    obtain ⟨_, mid', r, -⟩ := bind_done k
    cases r
  · exact h

theorem extends_parameters (turns turns' : List Token) (hle : turns.length ≤ turns'.length)
    (count : Nat) :
    ExtendsTo more turns.length (parameters count turns) (parameters count turns') := by
  have hname : Closes more (expect .identifier "parameter name") := closes_expect (by decide)
  induction turns generalizing turns' count with
  | nil =>
    apply Extends.extendsTo_zero
    apply extends_of_extendsTo
    intro n
    unfold parameters
    apply extends_limit
    exact (hname.bind fun param => steady_pure [param]).steady.extends.extendsTo n
  | cons t turns ih =>
    obtain ⟨t', turns', rfl⟩ := List.exists_cons_of_length_pos (Nat.lt_of_lt_of_le (by simp) hle)
    unfold parameters
    apply extends_limit
    refine (hname.steady.extends.extendsTo _).bind fun param => ?_
    refine ExtendsTo.accept (by decide) ?_ ((steady_pure _).extends.extendsTo _)
    refine (ih turns' (Nat.le_of_succ_le_succ hle) (count + 1)).bind fun rest => ?_
    exact (steady_pure _).extends.extendsTo _

theorem extends_arguments (he : Extends more expression) (turns turns' : List Token)
    (hle : turns.length ≤ turns'.length) (count : Nat) :
    ExtendsTo more turns.length (arguments expression count turns)
      (arguments expression count turns') := by
  induction turns generalizing turns' count with
  | nil =>
    apply Extends.extendsTo_zero
    apply extends_of_extendsTo
    intro n
    unfold arguments
    apply extends_limit
    exact (he.bind fun argument => (steady_pure [argument]).extends).extendsTo n
  | cons t turns ih =>
    obtain ⟨t', turns', rfl⟩ := List.exists_cons_of_length_pos (Nat.lt_of_lt_of_le (by simp) hle)
    unfold arguments
    apply extends_limit
    refine (he.extendsTo _).bind fun argument => ?_
    refine ExtendsTo.accept (by decide) ?_ ((steady_pure _).extends.extendsTo _)
    refine (ih turns' (Nat.le_of_succ_le_succ hle) (count + 1)).bind fun rest => ?_
    exact (steady_pure _).extends.extendsTo _

theorem extends_declarations (hd : Closes more declaration) (turns turns' : List Token)
    (hle : turns.length ≤ turns'.length) :
    ExtendsTo more turns.length (declarations declaration turns)
      (declarations declaration turns') := by
  induction turns generalizing turns' with
  | nil => exact (steady_pure []).extends.extendsTo_zero _
  | cons t turns ih =>
    obtain ⟨t', turns', rfl⟩ := List.exists_cons_of_length_pos (Nat.lt_of_lt_of_le (by simp) hle)
    have hmore : ExtendsTo more (turns.length + 1)
        (do let first ← declaration
            return first :: (← declarations declaration turns))
        (do let first ← declaration
            return first :: (← declarations declaration turns')) := by
      refine hd.extendsTo_bind fun first => ?_
      refine (ih turns' (Nat.le_of_succ_le_succ hle)).bind fun rest => ?_
      exact (steady_pure _).extends.extendsTo _
    refine ((extends_check _).extendsTo _).bind fun b => ?_
    cases b with
    | true => exact (steady_pure _).extends.extendsTo _
    | false =>
      refine ((extends_check _).extendsTo _).bind fun b => ?_
      cases b with
      | true => exact (steady_pure _).extends.extendsTo _
      | false => exact hmore

theorem closes_block (hd : Closes more declaration) : Closes more (block declaration) := by
  refine (extends_bounded (extends_declarations hd)).closes fun statements => ?_
  exact (closes_expect (by decide)).bind fun _ => steady_pure _

theorem closes_functionDeclaration (hd : Closes more declaration) :
    Closes more (functionDeclaration declaration) := by
  have hbody (target : Token) (params : List Token) : Closes more (do
      let _ ← expect .rightParen "')' after parameters"
      let _ ← expect .leftBrace "'\x7b' before function body"
      return .function target params (← block declaration) : Parser Node) := by
    refine (closes_expect (by decide)).bind fun _ => Closes.steady ?_
    refine (closes_expect (by decide)).bind fun _ => Closes.steady ?_
    exact (closes_block hd).bind fun _ => steady_pure _
  refine (closes_expect (by decide)).bind fun target => Closes.steady ?_
  refine (closes_expect (by decide)).bind fun _ => Closes.steady ?_
  refine (extends_check _).closes fun b => closes_ite b ?_ ?_
  · exact (steady_pure _).extends.closes (hbody target)
  · refine Extends.closes ?_ (hbody target)
    exact extends_bounded fun turns turns' hle => extends_parameters turns turns' hle 0

theorem closes_varDeclaration (he : Extends more expression) :
    Closes more (varDeclaration expression) := by
  have hend (target : Token) (initial : Node) : Closes more (do
      let _ ← expect .semicolon "';' after variable declaration"
      return .var target initial : Parser Node) :=
    (closes_expect (by decide)).bind fun _ => steady_pure _
  refine (closes_expect (by decide)).bind fun target => Closes.steady ?_
  refine (extends_accept (by decide)).closes fun b => closes_ite b ?_ ?_
  · exact he.closes (hend target)
  · exact (steady_pure _).extends.closes (hend target)

theorem closes_expressionStatement (he : Extends more expression) :
    Closes more (expressionStatement expression) :=
  he.closes fun _ => (closes_expect (by decide)).bind fun _ => steady_pure _

theorem closes_printStatement (he : Extends more expression) :
    Closes more (printStatement expression) :=
  he.closes fun _ => (closes_expect (by decide)).bind fun _ => steady_pure _

def NoElse (more : List Token) : Prop := ∀ t ∈ more.head?, t.kind ≠ .kwElse

theorem NoElse.peek_extend {c : Cursor} (h : NoElse more) (hc : c.Closed) (hrest : c.rest = []) :
    (c.extend more).peek.kind ≠ .kwElse := by
  obtain ⟨rest, last⟩ := c
  cases hrest
  cases more with
  | nil =>
    have hlast : last.kind = .eof := hc
    simp [Cursor.extend, Cursor.peek, hlast]
  | cons t more => exact h t rfl

theorem steady_accept_else (h : NoElse more) : Steady more (accept .kwElse) := by
  intro c b next hrun hc
  rw [accept_eq] at hrun
  split at hrun
  · rename_i hpeek
    have hrest : c.rest ≠ [] := hc.rest_ne_nil (by simp [hpeek])
    cases hrun
    refine ⟨hc, Nat.le_of_lt (Cursor.length_advance hrest), ?_⟩
    rw [accept_eq, Cursor.peek_extend hrest, if_pos hpeek, Cursor.advance_extend hrest]
  · rename_i hpeek
    cases hrun
    refine ⟨hc, Nat.le_refl _, ?_⟩
    have hmore : (c.extend more).peek.kind ≠ .kwElse := by
      by_cases hrest : c.rest = []
      · exact h.peek_extend hc hrest
      · rwa [Cursor.peek_extend hrest]
    rw [accept_eq, if_neg hmore]

theorem closes_ifStatement (h : NoElse more) (he : Extends more expression)
    (hs : Closes more statement) : Closes more (ifStatement expression statement) := by
  refine (closes_expect (by decide)).bind fun _ => Closes.steady ?_
  refine he.closes fun condition => (closes_expect (by decide)).bind fun _ => Closes.steady ?_
  refine hs.bind fun thenBranch => (steady_accept_else h).bind fun b => ?_
  cases b with
  | true => exact hs.steady.bind fun _ => steady_pure _
  | false => exact (steady_pure _).bind fun _ => steady_pure _

theorem closes_whileStatement (he : Extends more expression) (hs : Closes more statement) :
    Closes more (whileStatement expression statement) := by
  refine (closes_expect (by decide)).bind fun _ => Closes.steady ?_
  refine he.closes fun condition => (closes_expect (by decide)).bind fun _ => Closes.steady ?_
  exact hs.bind fun _ => steady_pure _

theorem closes_forInitializer (he : Extends more expression) :
    Closes more (forInitializer expression) := by
  refine closes_accept (by decide) (steady_pure _) ?_
  refine (extends_accept (by decide)).closes fun b => closes_ite b (closes_varDeclaration he) ?_
  exact closes_expressionStatement he

theorem closes_clause (he : Extends more expression) {close : Kind} {implied : Datum → Node}
    {what : String} {go : Node → Parser Node} (hk : close ≠ .eof)
    (hgo : ∀ n, Steady more (go n)) : Closes more (clause close implied what expression go) := by
  have hrest (n : Node) : Closes more (do let _ ← expect close what; go n) :=
    (closes_expect hk).bind fun _ => hgo n
  refine (extends_check close).closes fun b => closes_ite b ?_ (he.closes hrest)
  exact extends_peek.closes fun t => (steady_pure _).extends.closes hrest

theorem closes_forStatement (he : Extends more expression) (hs : Closes more statement) :
    Closes more (forStatement expression statement) := by
  rw [forStatement_eq]
  refine (closes_expect (by decide)).bind fun _ => Closes.steady ?_
  refine (closes_forInitializer he).bind fun initializer => Closes.steady ?_
  refine closes_clause he (by decide) fun condition => Closes.steady ?_
  refine closes_clause he (by decide) fun increment => Closes.steady ?_
  exact hs.bind fun _ => steady_pure _

theorem closes_statementRule (h : NoElse more) (hd : Closes more declaration)
    (hs : Closes more statement) (he : Extends more expression) :
    Closes more (statementRule declaration statement expression) := by
  refine (extends_accept (by decide)).closes fun b => closes_ite b (closes_ifStatement h he hs) ?_
  refine (extends_accept (by decide)).closes fun b => closes_ite b (closes_printStatement he) ?_
  refine (extends_accept (by decide)).closes fun b => closes_ite b (closes_whileStatement he hs) ?_
  refine (extends_accept (by decide)).closes fun b => closes_ite b (closes_forStatement he hs) ?_
  refine (extends_accept (by decide)).closes fun b => ?_
  apply closes_ite b _ (closes_expressionStatement he)
  exact (closes_block hd).bind fun _ => steady_pure _

theorem closes_declarationRule (hd : Closes more declaration) (hs : Closes more statement)
    (he : Extends more expression) :
    Closes more (declarationRule declaration statement expression) := by
  refine (extends_accept (by decide)).closes fun b => ?_
  refine closes_ite b (closes_functionDeclaration hd) ?_
  exact (extends_accept (by decide)).closes fun b => closes_ite b (closes_varDeclaration he) hs

variable {operand assignment chain unary call primary : Parser Node}

theorem extends_chainTail (ho : Extends more operand) (level : Level) (turns turns' : List Token)
    (hle : turns.length ≤ turns'.length) (left : Node) :
    ExtendsTo more turns.length (chainTail level operand left turns)
      (chainTail level operand left turns') := by
  induction turns generalizing turns' left with
  | nil => exact (steady_pure left).extends.extendsTo_zero _
  | cons t turns ih =>
    obtain ⟨t', turns', rfl⟩ := List.exists_cons_of_length_pos (Nat.lt_of_lt_of_le (by simp) hle)
    refine ExtendsTo.accept? (by cases level <;> decide) (fun operator => ?_)
      ((steady_pure left).extends.extendsTo _)
    refine (ho.extendsTo _).bind fun right => ?_
    exact ih turns' (Nat.le_of_succ_le_succ hle) (level.join left operator right)

theorem extends_chainRule (ho : Extends more operand) (level : Level) :
    Extends more (chainRule level operand) := by
  refine ho.bind fun left => extends_bounded fun turns turns' hle => ?_
  exact extends_chainTail ho level turns turns' hle left

theorem extends_assignmentRule (ha : Extends more assignment) (hc : Extends more chain) :
    Extends more (assignmentRule assignment chain) := by
  refine hc.bind fun target => (extends_accept? (by decide)).bind fun found => ?_
  cases found with
  | none => exact (steady_pure _).extends
  | some equals =>
    refine ha.bind fun value => ?_
    cases target with
    | name token => exact (steady_pure _).extends
    | _ => exact (closes_report equals _ _).steady.extends

theorem extends_unaryRule (hu : Extends more unary) (hc : Extends more call) :
    Extends more (unaryRule unary call) := by
  refine (extends_accept? (by decide)).bind fun found => ?_
  cases found with
  | none => exact hc
  | some operator => exact hu.bind fun right => (steady_pure _).extends

theorem closes_finishCall (he : Extends more expression) (callee : Node) :
    Closes more (finishCall expression callee) := by
  have hend (args : List Node) : Closes more (do
      let paren ← expect .rightParen "')' after arguments"
      return .call callee paren args : Parser Node) :=
    (closes_expect (by decide)).bind fun _ => steady_pure _
  refine (extends_check _).closes fun b => closes_ite b ?_ ?_
  · exact (steady_pure _).extends.closes hend
  · refine Extends.closes ?_ hend
    exact extends_bounded fun turns turns' hle => extends_arguments he turns turns' hle 0

theorem extends_callTail (he : Extends more expression) (turns turns' : List Token)
    (hle : turns.length ≤ turns'.length) (callee : Node) :
    ExtendsTo more turns.length (callTail expression callee turns)
      (callTail expression callee turns') := by
  induction turns generalizing turns' callee with
  | nil => exact (steady_pure callee).extends.extendsTo_zero _
  | cons t turns ih =>
    obtain ⟨t', turns', rfl⟩ := List.exists_cons_of_length_pos (Nat.lt_of_lt_of_le (by simp) hle)
    refine ExtendsTo.accept (by decide) ?_ ((steady_pure callee).extends.extendsTo _)
    refine ((closes_finishCall he callee).steady.extends.extendsTo _).bind fun called => ?_
    exact ih turns' (Nat.le_of_succ_le_succ hle) called

theorem extends_callRule (he : Extends more expression) (hp : Extends more primary) :
    Extends more (callRule expression primary) := by
  refine hp.bind fun callee => extends_bounded fun turns turns' hle => ?_
  exact extends_callTail he turns turns' hle callee

theorem extends_primaryRule (he : Extends more expression) :
    Extends more (primaryRule expression) := by
  refine (extends_accept? (by decide)).bind fun found => ?_
  cases found with
  | some token => exact (steady_pure _).extends
  | none =>
    refine (extends_accept? (by decide)).bind fun found => ?_
    cases found with
    | some token => exact (steady_pure _).extends
    | none =>
      refine (extends_accept (by decide)).bind fun b => extends_ite b ?_ ?_
      · refine he.bind fun inside => Steady.extends (Closes.steady ?_)
        exact (closes_expect (by decide)).bind fun _ => steady_pure _
      · exact extends_peek.bind fun token => (closes_report token _ _).steady.extends

end Rules

structure ExtendsAt (more : List Token) (d : Nat) : Prop where
  declaration : Closes more (declaration d)
  statement : Closes more (statement d)
  expression : Extends more (expression d)
  chain (level : Level) : Extends more (chain level d)
  unary : Extends more (unary d)
  call : Extends more (call d)
  primary : Extends more (primary d)

theorem extendsAt (h : NoElse more) (d : Nat) : ExtendsAt more d := by
  induction d with
  | zero =>
    constructor
    case declaration => exact closes_tooDeep
    case statement => exact closes_tooDeep
    all_goals intros; exact closes_tooDeep.steady.extends
  | succ d ih =>
    constructor
    case declaration => exact closes_declarationRule ih.declaration ih.statement ih.expression
    case statement => exact closes_statementRule h ih.declaration ih.statement ih.expression
    case expression => exact extends_assignmentRule ih.expression (ih.chain .or)
    case chain =>
      intro level
      apply extends_chainRule _ level
      cases level with
      | factor => exact ih.unary
      | _ => exact ih.chain _
    case unary => exact extends_unaryRule ih.unary ih.call
    case call => exact extends_callRule ih.expression ih.primary
    case primary => exact extends_primaryRule ih.expression

/-- A program that is read without an error is read in the same way if more tokens follow, and
then the rest of the turns is for those. -/
theorem programFrom_extend (h : NoElse more) {depth : Nat} {turns : List Token}
    (turns' : List Token) {c : Cursor} (hclean : (programFrom depth turns c).errors = [])
    (hc : c.Closed) (hturns : c.rest.length ≤ turns.length)
    (hturns' : turns.length ≤ turns'.length) :
    ∃ left, turns'.length ≤ left.length + turns.length ∧
      programFrom depth turns' (c.extend more) =
        let rest := programFrom depth left ⟨more, c.last⟩
        ⟨(programFrom depth turns c).statements ++ rest.statements, rest.errors, rest.unread⟩ := by
  induction turns generalizing turns' c with
  | nil =>
    have hrest : c.rest = [] := List.length_eq_zero_iff.1 (Nat.le_zero.1 hturns)
    refine ⟨turns', by simp, ?_⟩
    simp [programFrom, Cursor.extend, hrest]
  | cons t turns ih =>
    obtain ⟨t', turns', rfl⟩ :=
      List.exists_cons_of_length_pos (Nat.lt_of_lt_of_le (by simp) hturns')
    simp only [List.length_cons] at hturns hturns'
    cases hend : c.atEnd with
    | true =>
      have hrest : c.rest = [] := List.isEmpty_iff.1 hend
      refine ⟨t' :: turns', by simp, ?_⟩
      have hdone : programFrom depth (t :: turns) c = ⟨[], [], []⟩ := by simp [programFrom, hend]
      rw [hdone]
      simp [Cursor.extend, hrest]
    | false =>
      have hsome : (c.extend more).atEnd = false := by
        simp only [Cursor.atEnd, Cursor.rest_extend, List.isEmpty_eq_false_iff] at hend ⊢
        simp [hend]
      cases hd : declaration depth c with
      | tooDeep stop errors =>
        rw [programFrom_tooDeep hend hd] at hclean
        simp at hclean
      | done first mid errors =>
        -- the declaration is the same with more tokens after it, and so is the rest
        rw [programFrom_done hend hd] at hclean ⊢
        obtain ⟨rfl, hclean⟩ := List.append_eq_nil_iff.1 hclean
        obtain ⟨hmid, hlt, hmore⟩ := (extendsAt h depth).declaration hd hc
        obtain ⟨left, hleft, hrest⟩ :=
          ih turns' hclean hmid (by omega) (Nat.le_of_succ_le_succ hturns')
        have hlast : mid.last = c.last := by
          obtain ⟨ts, rfl, -⟩ := (recognizesAt depth).declaration hd hc
          rfl
        refine ⟨left, by simp; omega, ?_⟩
        rw [programFrom_done hsome hmore, hrest, hlast]
        simp

variable {depth : Nat} {tokens : List Token} {last : Token}

theorem programFrom_of_clean {turns : List Token} (hlast : last.kind = .eof)
    (hclean : (parse depth tokens last).errors = []) (hturns : tokens.length ≤ turns.length) :
    programFrom depth turns ⟨tokens, last⟩ = ⟨(parse depth tokens last).statements, [], []⟩ := by
  have hnone : NoElse [] := by simp [NoElse]
  obtain ⟨left, -, hrest⟩ :=
    programFrom_extend hnone turns (c := ⟨tokens, last⟩) hclean hlast (Nat.le_refl _) hturns
  have hend : programFrom depth left ⟨[], last⟩ = ⟨[], [], []⟩ := by
    cases left <;> simp [programFrom, Cursor.atEnd]
  simpa [parse, Cursor.extend, hend] using hrest

theorem noElse_of_clean (hlast : last.kind = .eof)
    (hclean : (parse depth tokens last).errors = []) : NoElse tokens := by
  intro t ht helse
  obtain rfl | hstart := (parse_recognizes hlast hclean).startsWith_of_declarations
  · cases ht
  · obtain ⟨u, us, rfl, hu⟩ := hstart
    cases ht
    rw [helse] at hu
    exact absurd hu (by decide)

/-- Two programs one after the other are parsed to the statements of the first and then those of
the second. -/
theorem parse_append (hlast : last.kind = .eof) (hclean : (parse depth tokens last).errors = [])
    (hmore : (parse depth more last).errors = []) :
    parse depth (tokens ++ more) last =
      ⟨(parse depth tokens last).statements ++ (parse depth more last).statements, [], []⟩ := by
  obtain ⟨left, hleft, hrest⟩ :=
    programFrom_extend (noElse_of_clean hlast hmore) (tokens ++ more) (c := ⟨tokens, last⟩)
      hclean hlast (Nat.le_refl _) (by simp)
  rw [List.length_append] at hleft
  rw [programFrom_of_clean hlast hmore (by omega)] at hrest
  exact hrest

end Grammar

end Lox
