import Lox.Lexeme.Scan
import Lox.Proofs.Grammar.Agreement
import Lox.Proofs.Grammar.Depth
import Lox.Proofs.Grammar.Walk

/-!
Parsing comes to an end. Every rule is put together from operations on the cursor and from loops
that take a token in every turn that is not the last one, so that the whole parse can be walked
through the row of tokens, whatever they are. A declaration is walked onward from every position
before the end, and a program up to the end, unless it nests too deeply.
-/
namespace Lox

namespace Parser

variable {α β σ : Type}

protected theorem bind_assoc {γ : Type} (p : Parser α) (f : α → Parser β) (g : β → Parser γ) :
    p >>= f >>= g = p >>= fun a => f a >>= g := by
  funext c
  cases hp : p c with
  | tooDeep next errors =>
    rw [bind_of_tooDeep hp, bind_of_tooDeep (bind_of_tooDeep hp)]
  | done a next errors =>
    rw [bind_of_done hp]
    cases hf : f a next with
    | tooDeep next' errors' =>
      rw [bind_of_tooDeep hf]
      exact bind_of_tooDeep (by rw [bind_of_done hp, hf]; rfl)
    | done b next' errors' =>
      have hpf : (p >>= f) c = .done b next' (errors ++ errors') := by
        rw [bind_of_done hp, hf]
        rfl
      rw [bind_of_done hf, bind_of_done hpf, after_after]

protected theorem bind_pure (p : Parser α) : (fun a => a) <$> p = p := by
  funext c
  change (p >>= pure) c = p c
  cases hp : p c with
  | tooDeep next errors => exact bind_of_tooDeep hp
  | done a next errors =>
    rw [bind_of_done hp]
    exact congrArg (Parsed.done a next) (List.append_nil _)

protected theorem pure_bind (a : α) (f : α → Parser β) : pure a >>= f = f a := by
  funext c
  exact after_nil _

instance : LawfulMonad Parser :=
  LawfulMonad.mk' Parser Parser.bind_pure Parser.pure_bind Parser.bind_assoc

/-- A turn that leaves something to go on with has taken a token. -/
def Advances (turn : Parser (σ ⊕ α)) : Prop :=
  ∀ ⦃c s next errors⦄, turn c = .done (.inl s) next errors → c.Closed →
    ∃ ts ≠ [], c = next.before ts

theorem advances_last (a : α) : Advances (pure (.inr a) : Parser (σ ⊕ α)) := by
  intro c s next errors h
  cases h

theorem Advances.bind {moves : Bool} {p : Parser β} {f : β → Parser (σ ⊕ α)}
    (hp : Onward moves p) (hf : ∀ b, Advances (f b)) : Advances (p >>= f) := by
  intro c s next errors h hc
  obtain ⟨b, mid, _, _, hrun, hrun', -⟩ := bind_runs h
  obtain ⟨ts, rfl, -⟩ := hp hrun hc
  obtain ⟨us, hus, rfl⟩ := hf b hrun' hc
  exact ⟨ts ++ us, List.append_ne_nil_of_right_ne_nil ts hus, by rw [Cursor.before_append]⟩

theorem Advances.accept? {kinds : List Kind} {f : Option Token → Parser (σ ⊕ α)}
    (hk : .eof ∉ kinds) (hsome : ∀ t, Onward false (f (some t))) (hnone : Advances (f none)) :
    Advances (Parser.accept? kinds >>= f) := by
  intro c s next errors h hc
  obtain ⟨found, mid, _, _, hrun, hrun', -⟩ := bind_runs h
  obtain ⟨-, ⟨t, rfl, -, rfl⟩ | ⟨rfl, rfl, -⟩⟩ := accept?_runs hrun hc hk
  · obtain ⟨ts, rfl, -⟩ := hsome t hrun' hc
    exact ⟨t :: ts, by simp, rfl⟩
  · exact hnone hrun' hc

def further (loop : σ → List Token → Parser α) (turns : List Token) : σ ⊕ α → Parser α
  | .inl s => loop s turns
  | .inr a => pure a

/-- A loop that does the same however many turns it may take, and that takes a token in each but
the last one, needs no more turns than there are tokens left and one. -/
theorem isLoop {loop : σ → List Token → Parser α} {turn : σ → Parser (σ ⊕ α)}
    (hsettled : ∀ s, Settled (loop s))
    (hcons : ∀ s t turns, loop s (t :: turns) = turn s >>= further loop turns)
    (hadvances : ∀ s, Advances (turn s)) (s : σ) : IsLoop turn s (bounded (loop s)) := by
  intro c hc
  -- By the tokens left, of which a turn that is not the last one takes some.
  induction hlen : c.rest.length using Nat.strongRecOn generalizing s c with
  | _ m ih =>
    subst hlen
    have hbounded : bounded (loop s) c = loop s (c.last :: c.rest) c :=
      (hsettled s).bounded_eq hc (Nat.le_succ _)
    rw [hbounded, hcons]
    cases hturn : turn s c with
    | tooDeep next errors =>
      rw [bind_of_tooDeep hturn]
      exact ⟨1, by omega, .tooDeep hturn⟩
    | done x next errors =>
      rw [bind_of_done hturn]
      cases x with
      | inr a =>
        refine ⟨1, by omega, ?_⟩
        have hlast : after errors (further loop c.rest (.inr a) next) = .done a next errors :=
          congrArg (Parsed.done a next) (List.append_nil _)
        rw [hlast]
        exact .last hturn
      | inl s' =>
        obtain ⟨ts, hts, rfl⟩ := hadvances s hturn hc
        have hlen : ts.length + next.rest.length = (next.before ts).rest.length := by simp
        have hpos := List.length_pos_iff.2 hts
        obtain ⟨n, hn, hr⟩ := ih next.rest.length (by omega) s' next hc rfl
        have hnext : next.Closed := hc
        have hrest : loop s' (next.before ts).rest next = bounded (loop s') next :=
          ((hsettled s').bounded_eq hnext (by omega)).symm
        refine ⟨n + 1, by omega, ?_⟩
        rw [further, hrest]
        exact .more hturn hr

def joined (rest : List α → List Token → Parser (List α)) (read : List α) (turns : List Token) :
    Parser (List α) := do
  return read ++ (← rest read turns)

theorem isLoop_row {rest : List α → List Token → Parser (List α)}
    {turn : List α → Parser (List α ⊕ List α)} (hsettled : ∀ read, Settled (rest read))
    (hcons : ∀ read t turns,
      joined rest read (t :: turns) = turn read >>= further (joined rest) turns)
    (hadvances : ∀ read, Advances (turn read)) : IsLoop turn [] (bounded (rest [])) := by
  have hrest : bounded (joined rest []) = bounded (rest []) := by
    funext c
    change (rest [] c.rest >>= fun xs => pure ([] ++ xs)) c = rest [] c.rest c
    simp
  rw [← hrest]
  refine isLoop (fun read turns turns' => ?_) hcons hadvances []
  exact (hsettled read turns turns').first _

end Parser

namespace Grammar

open Lox.Parser

section Turns

variable {α : Type} {declaration expression operand : Parser Node}

def itemTurn (problem : Problem) (item : Parser α) (read : List α) :
    Parser (List α ⊕ List α) := do
  if maxArguments ≤ read.length then
    report (← peek) problem
  let x ← item
  if ← accept .comma then return .inl (read ++ [x])
  else return .inr (read ++ [x])

theorem advances_itemTurn {item : Parser α} (problem : Problem) (hitem : Onward false item)
    (read : List α) : Advances (itemTurn problem item read) := by
  have hturn : Advances (do
      let x ← item
      if ← accept .comma then return .inl (read ++ [x])
      else return .inr (read ++ [x])) := by
    refine Advances.bind hitem fun x => ?_
    rw [accept_bind]
    exact .accept? (by decide) (fun _ => onward_pure _) (advances_last _)
  unfold itemTurn
  rw [limit_eq]
  split
  · exact .bind (onward_complain problem) fun _ => hturn
  · exact hturn

theorem isLoop_items {loop : Nat → List Token → Parser (List α)} {problem : Problem}
    {item : Parser α}
    (hcons : ∀ count t turns, loop count (t :: turns) = (do
      if maxArguments ≤ count then
        report (← peek) problem
      let x ← item
      if ← accept .comma then return x :: (← loop (count + 1) turns)
      else return [x]))
    (hsettled : ∀ count, Settled (loop count)) (hitem : Onward false item) :
    IsLoop (itemTurn problem item) [] (bounded (loop 0)) := by
  refine @isLoop_row α (fun read => loop read.length) _ (fun read => hsettled read.length)
    (fun read t turns => ?_) (advances_itemTurn problem hitem)
  have hafter (x : α) (comma : Bool) :
      ((if comma = true then (do return x :: (← loop (read.length + 1) turns)) else pure [x]) >>=
          fun xs => pure (read ++ xs)) =
        ((if comma = true then pure (.inl (read ++ [x])) else pure (.inr (read ++ [x]))) >>=
          further (joined fun read => loop read.length) turns : Parser (List α)) := by
    cases comma <;> simp [further, joined, -bind_pure_comp]
  rw [joined, hcons, itemTurn]
  split <;> simp only [bind_assoc, hafter]

def declarationTurn (declaration : Parser Node) (read : List Node) :
    Parser (List Node ⊕ List Node) := do
  if ← check .rightBrace then return .inr read
  else if ← check .eof then return .inr read
  else return .inl (read ++ [← declaration])

theorem advances_declarationTurn (hd : Onward true declaration) (read : List Node) :
    Advances (declarationTurn declaration read) := by
  intro c s next errors h hc
  unfold declarationTurn at h
  obtain ⟨brace, _, _, _, hbrace, h, -⟩ := bind_runs h
  cases hbrace
  split at h
  · cases h
  obtain ⟨eof, _, _, _, heof, h, -⟩ := bind_runs h
  cases heof
  split at h
  · cases h
  rename_i heof
  obtain ⟨first, _, _, _, hrun, h, -⟩ := bind_runs h
  cases h
  obtain ⟨ts, hts, hmoves, -⟩ := hd hrun hc
  refine ⟨ts, hmoves rfl fun hrest => heof ?_, hts⟩
  exact decide_eq_true (hc.peek_nil hrest)

theorem isLoop_declarations (hd : Onward true declaration) :
    IsLoop (declarationTurn declaration) [] (bounded (declarations declaration)) := by
  refine isLoop_row (fun _ => settled_declarations hd) (fun read t turns => ?_)
    (advances_declarationTurn hd)
  rw [joined, declarations, declarationTurn]
  simp only [bind_assoc]
  congr
  funext brace
  cases brace with
  | true => simp [further]
  | false =>
    simp only [Bool.false_eq_true, if_false, bind_assoc]
    congr
    funext eof
    cases eof <;> simp [further, joined, -bind_pure_comp]

def chainTurn (level : Level) (operand : Parser Node) (left : Node) : Parser (Node ⊕ Node) := do
  match ← accept? level.operators with
  | none => return .inr left
  | some operator => return .inl (level.join left operator (← operand))

theorem isLoop_chain {moves : Bool} (ho : Onward moves operand) (level : Level) (left : Node) :
    IsLoop (chainTurn level operand) left (bounded (chainTail level operand left)) := by
  refine isLoop (settled_chainTail ho level) (fun left t turns => ?_) (fun left => ?_) left
  · rw [chainTail, chainTurn, bind_assoc]
    congr
    funext operator
    cases operator <;> simp [further]
  · exact .accept? (by cases level <;> decide) (fun operator => ho.weak.bind fun _ => onward_pure _)
      (advances_last _)

def callTurn (expression : Parser Node) (callee : Node) : Parser (Node ⊕ Node) := do
  if ← accept .leftParen then return .inl (← finishCall expression callee)
  else return .inr callee

theorem isLoop_calls (h : ∀ callee, Onward false (finishCall expression callee))
    (callee : Node) :
    IsLoop (callTurn expression) callee (bounded (callTail expression callee)) := by
  refine isLoop (settled_callTail h) (fun callee t turns => ?_) (fun callee => ?_) callee
  · rw [callTail, callTurn, bind_assoc]
    congr
    funext paren
    cases paren <;> simp [further]
  · rw [callTurn, accept_bind]
    exact .accept? (by decide) (fun _ => (h callee).bind fun _ => onward_pure _) (advances_last _)

end Turns

end Grammar

namespace Parser.Made

open Grammar

variable {α : Type} {declaration statement expression operand : Parser Node}

def accept (kind : Kind) (hk : kind ≠ .eof) : Made (Parser.accept kind) :=
  .bind (.accept? [kind] (by simpa using hk.symm)) fun _ => .pure _

def ifAccept {p q : Parser α} (kind : Kind) (hk : kind ≠ .eof) (mp : Made p) (mq : Made q) :
    Made (Parser.accept kind >>= fun found => if found = true then p else q) :=
  .bind (accept kind hk) fun _ => .choice _ mp mq

def ifCheck {p q : Parser α} (kind : Kind) (mp : Made p) (mq : Made q) :
    Made (Parser.check kind >>= fun found => if found = true then p else q) :=
  .bind (.check kind) fun _ => .choice _ mp mq

def itemTurn {item : Parser α} (problem : Problem) (m : Made item) (read : List α) :
    Made (Grammar.itemTurn problem item read) :=
  have next := Made.bind m fun _ => ifAccept .comma (by decide) (.pure _) (.pure _)
  .choice _ (.bind .peek fun t => .bind (.report t problem) fun _ => next) next

def parameters : Made (bounded (Grammar.parameters 0)) :=
  .loop (itemTurn .tooManyParameters (.expect .identifier "parameter name" (by decide)))
    (isLoop_items (fun _ _ _ => rfl) settled_parameters (onward_expect (by decide)))

def arguments (m : Made expression) (he : Onward false expression) :
    Made (bounded (Grammar.arguments expression 0)) :=
  .loop (itemTurn .tooManyArguments m)
    (isLoop_items (fun _ _ _ => rfl) (settled_arguments he) he)

def declarations (m : Made declaration) (hd : Onward true declaration) :
    Made (bounded (Grammar.declarations declaration)) :=
  .loop (fun _ => ifCheck .rightBrace (.pure _) (ifCheck .eof (.pure _) (.bind m fun _ => .pure _)))
    (isLoop_declarations hd)

def block (m : Made declaration) (hd : Onward true declaration) :
    Made (Grammar.block declaration) :=
  .bind (declarations m hd) fun _ => .bind (.expect .rightBrace _ (by decide)) fun _ => .pure _

def functionDeclaration (m : Made declaration) (hd : Onward true declaration) :
    Made (Grammar.functionDeclaration declaration) :=
  .bind (.expect .identifier _ (by decide)) fun target =>
  .bind (.expect .leftParen _ (by decide)) fun _ =>
  have rest (params : List Token) := Made.bind
    (.expect .rightParen "')' after parameters" (by decide)) fun _ =>
      .bind (.expect .leftBrace "'\x7b' before function body" (by decide)) fun _ =>
        .bind (block m hd) fun body => .pure (Node.function target params body)
  ifCheck .rightParen (.bind (.pure _) rest) (.bind parameters rest)

def varDeclaration (m : Made expression) : Made (Grammar.varDeclaration expression) :=
  .bind (.expect .identifier _ (by decide)) fun target =>
  have rest (initial : Node) := Made.bind
    (.expect .semicolon "';' after variable declaration" (by decide)) fun _ =>
      .pure (Node.var target initial)
  ifAccept .equal (by decide) (.bind m rest) (.bind (.pure _) rest)

def expressionStatement (m : Made expression) : Made (Grammar.expressionStatement expression) :=
  .bind m fun _ => .bind (.expect .semicolon _ (by decide)) fun _ => .pure _

def printStatement (m : Made expression) : Made (Grammar.printStatement expression) :=
  .bind m fun _ => .bind (.expect .semicolon _ (by decide)) fun _ => .pure _

def ifStatement (me : Made expression) (ms : Made statement) :
    Made (Grammar.ifStatement expression statement) :=
  .bind (.expect .leftParen _ (by decide)) fun _ =>
  .bind me fun condition =>
  .bind (.expect .rightParen _ (by decide)) fun _ =>
  .bind ms fun thenBranch =>
  have rest (elseBranch : Node) := Made.pure (Node.ifElse condition thenBranch elseBranch)
  ifAccept .kwElse (by decide) (.bind ms rest) (.bind (.pure _) rest)

def whileStatement (me : Made expression) (ms : Made statement) :
    Made (Grammar.whileStatement expression statement) :=
  .bind (.expect .leftParen _ (by decide)) fun _ =>
  .bind me fun _ =>
  .bind (.expect .rightParen _ (by decide)) fun _ =>
  .bind ms fun _ => .pure _

def forInitializer (m : Made expression) : Made (Grammar.forInitializer expression) :=
  ifAccept .semicolon (by decide) (.pure _)
    (ifAccept .kwVar (by decide) (varDeclaration m) (expressionStatement m))

def forStatement (me : Made expression) (ms : Made statement) :
    Made (Grammar.forStatement expression statement) :=
  .bind (.expect .leftParen _ (by decide)) fun _ =>
  .bind (forInitializer me) fun initializer =>
  have body (condition increment : Node) := Made.bind
    (.expect .rightParen "')' after for clauses" (by decide)) fun _ =>
      .bind ms fun body => .pure (forBlock initializer condition increment body)
  have rest (condition : Node) := Made.bind
    (.expect .semicolon "';' after loop condition" (by decide)) fun _ =>
      ifCheck .rightParen
        (.bind .peek fun t => .bind (.pure (impliedNil t.line)) (body condition))
        (.bind me (body condition))
  ifCheck .semicolon (.bind .peek fun t => .bind (.pure (impliedTrue t.line)) rest) (.bind me rest)

def statementRule (md : Made declaration) (hd : Onward true declaration) (ms : Made statement)
    (me : Made expression) : Made (Grammar.statementRule declaration statement expression) :=
  ifAccept .kwIf (by decide) (ifStatement me ms) <|
  ifAccept .kwPrint (by decide) (printStatement me) <|
  ifAccept .kwWhile (by decide) (whileStatement me ms) <|
  ifAccept .kwFor (by decide) (forStatement me ms) <|
  ifAccept .leftBrace (by decide) (.bind (block md hd) fun _ => .pure _) (expressionStatement me)

def declarationRule (md : Made declaration) (hd : Onward true declaration) (ms : Made statement)
    (me : Made expression) : Made (Grammar.declarationRule declaration statement expression) :=
  ifAccept .kwFun (by decide) (functionDeclaration md hd)
    (ifAccept .kwVar (by decide) (varDeclaration me) ms)

def chainRule (m : Made operand) (ho : Onward true operand) (level : Level) :
    Made (Grammar.chainRule level operand) :=
  have turn (left : Node) : Made (chainTurn level operand left) :=
    .bind (.accept? _ (by cases level <;> decide)) fun
      | none => .pure _
      | some _ => .bind m fun _ => .pure _
  .bind m fun left => .loop turn (isLoop_chain ho level left)

def assignmentRule {assignment chain : Parser Node} (ma : Made assignment) (mc : Made chain) :
    Made (Grammar.assignmentRule assignment chain) :=
  .bind mc fun target => .bind (.accept? _ (by decide)) fun
    | none => .pure _
    | some equals => .bind ma fun _ => by
      cases target with
      | name token => exact .pure _
      | _ => exact .bind (.report equals .invalidTarget) fun _ => .pure _

def unaryRule {unary call : Parser Node} (mu : Made unary) (mc : Made call) :
    Made (Grammar.unaryRule unary call) :=
  .bind (.accept? _ (by decide)) fun
    | none => mc
    | some _ => .bind mu fun _ => .pure _

def finishCall (m : Made expression) (he : Onward false expression) (callee : Node) :
    Made (Grammar.finishCall expression callee) :=
  have rest (args : List Node) := Made.bind
    (.expect .rightParen "')' after arguments" (by decide)) fun paren =>
      .pure (Node.call callee paren args)
  ifCheck .rightParen (.bind (.pure _) rest) (.bind (arguments m he) rest)

def callRule {primary : Parser Node} (me : Made expression) (he : Onward false expression)
    (hf : ∀ callee, Onward false (Grammar.finishCall expression callee)) (mp : Made primary) :
    Made (Grammar.callRule expression primary) :=
  have turn (callee : Node) : Made (callTurn expression callee) :=
    ifAccept .leftParen (by decide) (.bind (finishCall me he callee) fun _ => .pure _) (.pure _)
  .bind mp fun callee => .loop turn (isLoop_calls hf callee)

def primaryRule (m : Made expression) : Made (Grammar.primaryRule expression) :=
  .bind (.accept? _ (by decide)) fun
    | some _ => .pure _
    | none => .bind (.accept? _ (by decide)) fun
      | some _ => .pure _
      | none => ifAccept .leftParen (by decide)
        (.bind m fun _ => .bind (.expect .rightParen _ (by decide)) fun _ => .pure _)
        (.bind .peek fun t => .bind (.report t _) fun _ => .bind .skip fun _ => .pure _)

end Parser.Made

namespace Grammar

open Lox.Parser

structure MadeAt (depth : Nat) : Type 1 where
  declaration : Made (declaration depth)
  statement : Made (statement depth)
  expression : Made (expression depth)
  chain (level : Level) : Made (chain level depth)
  unary : Made (unary depth)
  call : Made (call depth)
  primary : Made (primary depth)

theorem onwardAt (depth : Nat) : AgreeAt (fun _ => false) depth depth := agreeAt_self depth

def MadeAt.succ {depth : Nat} (m : MadeAt depth) : MadeAt (depth + 1) where
  declaration :=
    .declarationRule m.declaration (onwardAt depth).declaration.left m.statement m.expression
  statement :=
    .statementRule m.declaration (onwardAt depth).declaration.left m.statement m.expression
  expression := .assignmentRule m.expression (m.chain .or)
  chain
    | .or => .chainRule (m.chain .and) ((onwardAt depth).chain .and).left .or
    | .and => .chainRule (m.chain .equality) ((onwardAt depth).chain .equality).left .and
    | .equality =>
      .chainRule (m.chain .comparison) ((onwardAt depth).chain .comparison).left .equality
    | .comparison => .chainRule (m.chain .term) ((onwardAt depth).chain .term).left .comparison
    | .term => .chainRule (m.chain .factor) ((onwardAt depth).chain .factor).left .term
    | .factor => .chainRule m.unary (onwardAt depth).unary.left .factor
  unary := .unaryRule m.unary m.call
  call :=
    have he := (onwardAt depth).expression.weak
    .callRule m.expression he.left (fun callee => (agree_finishCall he callee).left) m.primary
  primary := .primaryRule m.expression

def madeAt : (depth : Nat) → MadeAt depth
  | 0 => ⟨.tooDeep, .tooDeep, .tooDeep, fun _ => .tooDeep, .tooDeep, .tooDeep, .tooDeep⟩
  | depth + 1 => (madeAt depth).succ

def programTurn (row : List Token) (declaration : Walker Node) (read : List Node) :
    Walker (List Node ⊕ List Node) := do
  if ← Walker.check row .eof then return .inr read
  else
    match ← declaration.attempt with
    | some first => return .inl (read ++ [first])
    | none =>
      Walker.report (← Walker.peek row) .nestedTooDeeply
      return .inr read

/-- The walk of a parse through a row of tokens, in which every loop has some number of turns. -/
def walkProgram (depth turns : Nat) (row : List Token) : Walker (List Node) :=
  Walker.loop (programTurn row ((madeAt depth).declaration.walk row turns)) turns []

end Grammar

namespace Row

open Lox.Parser Grammar

variable {row : Row} {i k depth turns : Nat}

theorem declaration_moves {n : Node} {errors : List SyntaxError} (hi : i < row.size)
    (h : declaration depth (row.cursor i) = .done n (row.cursor (i + k)) errors) : 0 < k := by
  obtain ⟨ts, hts, hmoves, -⟩ := onward_declaration depth h (row.closed_cursor i)
  have hrest : (row.cursor i).rest ≠ [] := by
    rw [rest_cursor hi]
    simp
  have hpos := List.length_pos_iff.2 (hmoves rfl hrest)
  have hlen := congrArg (fun c => c.rest.length) hts
  simp only [Cursor.rest_before, List.length_append, length_rest] at hlen
  omega

/-- The walk of a program from a position, which comes by some further ones, comes to what the
parse does, at the end of the row or where the nesting is too deep. -/
structure Arrives (row : Row) (i k : Nat) (read : List Node) (w : Walked (List Node)) (p : Parse) :
    Prop where
  within : i + k ≤ row.size
  walked : w = .done (read ++ p.statements) (i + k) p.errors (List.range' (i + 1) k)
  unread : p.unread = row.tokens.drop (i + k)
  shallow : Shallow p.errors → i + k = row.size

section Turns

variable {w : Walker Node} {first : Node} {read : List Node} {j : Nat}
  {errors : List SyntaxError} {path : List Nat}

theorem programTurn_size (w : Walker Node) (read : List Node) :
    programTurn row.all w read row.size = .done (.inr read) row.size [] [] := by
  rw [programTurn, Walker.bind_of_done (check_walk .eof (Nat.le_refl _)), peek_size,
    if_pos (decide_eq_true row.ends)]
  rfl

theorem programTurn_bind (hi : i < row.size) :
    programTurn row.all w read i = (w.attempt >>= fun
      | some first => pure (.inl (read ++ [first]))
      | none => do
        Walker.report (← Walker.peek row.all) .nestedTooDeeply
        return .inr read : Walker (List Node ⊕ List Node)) i := by
  have hkind : ¬decide ((row.cursor i).peek.kind = .eof) = true := by
    rw [peek_cursor hi, decide_eq_true_iff]
    exact row.endsOnce _ (List.getElem_mem hi)
  rw [programTurn, Walker.bind_of_done (check_walk .eof (Nat.le_of_lt hi)), if_neg hkind,
    Walker.after_nil]

theorem programTurn_done (hi : i < row.size) (hw : w i = .done first j errors path) :
    programTurn row.all w read i = .done (.inl (read ++ [first])) j errors path := by
  have hattempt : w.attempt i = .done (some first) j errors path := by simp [Walker.attempt, hw]
  rw [programTurn_bind hi, Walker.bind_of_done hattempt]
  simp [Walker.after, pure]

theorem programTurn_tooDeep (hi : i < row.size) (hj : j ≤ row.size)
    (hw : w i = .tooDeep j errors path) :
    programTurn row.all w read i =
      .done (.inr read) j (errors ++ [⟨(row.cursor j).peek, .nestedTooDeeply⟩]) path := by
  have hattempt : w.attempt i = .done none j errors path := by simp [Walker.attempt, hw]
  rw [programTurn_bind hi, Walker.bind_of_done hattempt]
  dsimp only
  rw [Walker.bind_of_done (peek_walk hj), Walker.bind_of_done rfl]
  simp [Walker.after, pure]

end Turns

theorem exists_arrives (hturns : row.size < turns) {n : Nat} (read : List Node)
    (hi : i ≤ row.size) (hn : row.size - i < n) :
    ∃ k, row.Arrives i k read
      (Walker.loop (programTurn row.all ((madeAt depth).declaration.walk row.all turns)) n read i)
      (programFrom depth (row.tokens.drop i) (row.cursor i)) := by
  -- By the turns of the program, of which there are more than tokens left.
  induction n generalizing read i with
  | zero => omega
  | succ n ih =>
    obtain rfl | hlt := Nat.eq_or_lt_of_le hi
    · rw [programFrom_end rest_size, Walker.loop, Walker.bind_of_done (programTurn_size ..)]
      refine ⟨0, hi, ?_, List.drop_length.symm, fun _ => rfl⟩
      simp [Walker.after, pure]
    have hagrees := follows_walk (madeAt depth).declaration (Nat.lt_of_le_of_lt i.zero_le hlt)
      hturns i hi
    have hend : (row.cursor i).atEnd = false := by simp [Cursor.atEnd, rest_cursor hlt]
    have hdrop : row.tokens.drop i = row.tokens[i] :: row.tokens.drop (i + 1) := rest_cursor hlt
    cases hrun : declaration depth (row.cursor i) with
    | tooDeep next errors =>
      obtain ⟨k, hk, rfl, hw⟩ := Agrees.of_tooDeep (hrun ▸ hagrees)
      rw [hdrop, programFrom_tooDeep hend hrun, Walker.loop,
        Walker.bind_of_done (programTurn_tooDeep hlt hk hw)]
      refine ⟨k, hk, ?_, rfl, fun hdeep => ?_⟩
      · simp [Walker.after, pure]
      · exact absurd rfl (hdeep _ (List.mem_append_right _ (List.mem_singleton.2 rfl)))
    | done first next errors =>
      obtain ⟨k, hk, rfl, hw⟩ := Agrees.of_done (hrun ▸ hagrees)
      have hpos := declaration_moves hlt hrun
      have hrest : programFrom depth (row.tokens.drop (i + 1)) (row.cursor (i + k)) =
          programFrom depth (row.tokens.drop (i + k)) (row.cursor (i + k)) := by
        refine programFrom_turns (row.closed_cursor _) ?_ (Nat.le_refl _)
        rw [length_rest, List.length_drop]
        exact Nat.sub_le_sub_left (by omega) _
      obtain ⟨m, hm, hwalked, hunread, hshallow⟩ := ih (read ++ [first]) hk (by omega)
      rw [hdrop, programFrom_done hend hrun, hrest, Walker.loop,
        Walker.bind_of_done (programTurn_done hlt hw)]
      refine ⟨k + m, by omega, ?_, ?_, fun hdeep => ?_⟩
      · change Walker.after errors _ (Walker.loop _ n (read ++ [first]) (i + k)) = _
        rw [hwalked, Walker.after, range'_path, List.append_assoc, Nat.add_assoc]
        rfl
      · rw [← Nat.add_assoc]
        exact hunread
      · rw [← Nat.add_assoc]
        exact hshallow fun e he => hdeep e (List.mem_append_right _ he)

/-- Parsing comes to an end, whatever the tokens are. Its walk through the row, in which no loop
needs more turns than there are tokens and one, never gets stuck, and never looks outside of the
row or before its first token. It comes by every position once, in order, up to where the parse
stops reading: that is the end of the row unless the nesting is too deep, which it is not for a
large depth. A declaration, at whatever depth and wherever it starts before the end, is walked just
as it is parsed, and onward. -/
theorem parse_ends (row : Row) :
    (∀ depth, ∀ turns > row.size,
      let parsed := parse depth row.tokens row.last
      ∃ place ≤ row.size,
        walkProgram depth turns row.all 0 =
          .done parsed.statements place parsed.errors (List.range' 1 place) ∧
        parsed.unread = row.tokens.drop place ∧
        (Shallow parsed.errors → place = row.size)) ∧
    (∀ depth ≥ 10 * row.size + 12, Shallow (parse depth row.tokens row.last).errors) ∧
    ∀ depth, ∀ turns > row.size, ∀ i < row.size,
      let walked := (madeAt depth).declaration.walk row.all turns i
      row.Agrees i walked (declaration depth (row.cursor i)) ∧
        ∀ n place errors path, walked = .done n place errors path → i < place := by
  refine ⟨fun depth turns hturns => ?_, fun _ hdepth => programFrom_fits row.ends hdepth,
    fun depth turns hturns i hi => ?_⟩
  · obtain ⟨k, hk, hwalked, hunread, hshallow⟩ :=
      exists_arrives hturns [] (Nat.zero_le _) hturns
    simp only [Nat.zero_add] at hk hwalked hunread hshallow
    exact ⟨k, hk, hwalked, hunread, hshallow⟩
  · intro walked
    have hagrees : row.Agrees i walked (declaration depth (row.cursor i)) :=
      follows_walk (madeAt depth).declaration (Nat.lt_of_le_of_lt i.zero_le hi) hturns i
        (Nat.le_of_lt hi)
    refine ⟨hagrees, fun n place errors path hwalked => ?_⟩
    rw [hwalked] at hagrees
    generalize hrun : declaration depth (row.cursor i) = parsed at hagrees
    cases hagrees with
    | done _ => exact Nat.lt_add_of_pos_right (declaration_moves hi hrun)

/-- A block that is not closed, a call and parameters that break off, and tokens out of place. -/
theorem parse_ends_stray :
    let scanned := scan "fun f(a, \x7b ) \x7d else x(1, = ; for ( \x7b ! , )".toList
    ∃ row : Row, row.tokens = scanned.tokens ∧ row.last = scanned.endToken ∧ row.size = 21 ∧
      ∃ statements errors,
        walkProgram 222 22 row.all 0 = .done statements 21 errors (List.range' 1 21) ∧
        errors.length = 14 := by
  intro scanned
  let row : Row := ⟨scanned.tokens, scanned.endToken, rfl, by decide +kernel⟩
  have hsize : row.size = 21 := by decide +kernel
  have hdeep := (parse_ends row).2.1 222 (by decide +kernel)
  obtain ⟨place, -, hwalked, -, hend⟩ := (parse_ends row).1 222 22 (by decide +kernel)
  obtain rfl := (hend hdeep).trans hsize
  exact ⟨row, rfl, rfl, hsize, _, _, hwalked, by decide +kernel⟩

end Row

end Lox
