import Lox.Proofs.Grammar.Sentence

/-!
The grammar as a relation between rows of tokens and the nodes they stand for, apart from any way
of reading them. Operators of one level group to the left and assignments to the right; what is
left out of a statement is filled in. An `else` that could belong to several `if`s makes the
grammar ambiguous, so the relation has two forms: one takes every reading, the other only the
reading that gives each `else` to the nearest `if` that is still open. Both have the same rows.
-/
namespace Lox.Grammar

/-- A row of tokens is a phrase that stands for a node; a row of nodes stands as a list. If
`nearest` is set, an `else` follows no statement that is open. -/
inductive Phrase (nearest : Bool) : Symbol → List Token → Node → Prop where
  | literal {t : Token} : t.kind ∈ literalKinds → Phrase nearest .primary [t] (.literal t)
  | name {t : Token} : t.kind = .identifier → Phrase nearest .primary [t] (.name t)
  | grouping {l r : Token} {ts : List Token} {inside : Node} : l.kind = .leftParen →
      Phrase nearest .expression ts inside → r.kind = .rightParen →
      Phrase nearest .primary (l :: (ts ++ [r])) (.grouping inside)
  | callee {ts : List Token} {n : Node} :
      Phrase nearest .primary ts n → Phrase nearest .call ts n
  | callNone {l r : Token} {ts : List Token} {callee : Node} : Phrase nearest .call ts callee →
      l.kind = .leftParen → r.kind = .rightParen →
      Phrase nearest .call (ts ++ [l, r]) (.call callee r [])
  | callSome {l r : Token} {ts us : List Token} {callee : Node} {args : List Node} :
      Phrase nearest .call ts callee → l.kind = .leftParen →
      Phrase nearest .arguments us (.list args) → args.length ≤ maxArguments →
      r.kind = .rightParen → Phrase nearest .call (ts ++ l :: (us ++ [r])) (.call callee r args)
  | negated {operator : Token} {ts : List Token} {right : Node} :
      operator.kind ∈ [.bang, .minus] → Phrase nearest .unary ts right →
      Phrase nearest .unary (operator :: ts) (.unary operator right)
  | called {ts : List Token} {n : Node} : Phrase nearest .call ts n → Phrase nearest .unary ts n
  | operand {level : Level} {ts : List Token} {n : Node} :
      Phrase nearest level.operand ts n → Phrase nearest (.chain level) ts n
  | joined {level : Level} {operator : Token} {ts us : List Token} {left right : Node} :
      Phrase nearest (.chain level) ts left → operator.kind ∈ level.operators →
      Phrase nearest level.operand us right →
      Phrase nearest (.chain level) (ts ++ operator :: us) (level.join left operator right)
  | value {ts : List Token} {n : Node} :
      Phrase nearest (.chain .or) ts n → Phrase nearest .expression ts n
  | assigned {target equals : Token} {ts : List Token} {value : Node} :
      target.kind = .identifier → equals.kind = .equal → Phrase nearest .expression ts value →
      Phrase nearest .expression (target :: equals :: ts) (.assign target value)
  | lastArgument {ts : List Token} {n : Node} :
      Phrase nearest .expression ts n → Phrase nearest .arguments ts (.list [n])
  | moreArguments {comma : Token} {ts us : List Token} {n : Node} {rest : List Node} :
      Phrase nearest .expression ts n → comma.kind = .comma →
      Phrase nearest .arguments us (.list rest) →
      Phrase nearest .arguments (ts ++ comma :: us) (.list (n :: rest))
  | unset {kw target semi : Token} : kw.kind = .kwVar → target.kind = .identifier →
      semi.kind = .semicolon →
      Phrase nearest .binding [kw, target, semi] (.var target (impliedNil target.line))
  | set {kw target equals semi : Token} {ts : List Token} {initial : Node} : kw.kind = .kwVar →
      target.kind = .identifier → equals.kind = .equal → Phrase nearest .expression ts initial →
      semi.kind = .semicolon →
      Phrase nearest .binding (kw :: target :: equals :: (ts ++ [semi])) (.var target initial)
  | simple {semi : Token} {ts : List Token} {value : Node} :
      Phrase nearest .expression ts value → semi.kind = .semicolon →
      Phrase nearest .simple (ts ++ [semi]) (.expression value)
  | noInitializer {semi : Token} : semi.kind = .semicolon →
      Phrase nearest .initializer [semi] (.block [])
  | boundInitializer {ts : List Token} {n : Node} :
      Phrase nearest .binding ts n → Phrase nearest .initializer ts n
  | simpleInitializer {ts : List Token} {n : Node} :
      Phrase nearest .simple ts n → Phrase nearest .initializer ts n
  | noCondition {semi : Token} : semi.kind = .semicolon →
      Phrase nearest .condition [semi] (impliedTrue semi.line)
  | someCondition {semi : Token} {ts : List Token} {n : Node} :
      Phrase nearest .expression ts n → semi.kind = .semicolon →
      Phrase nearest .condition (ts ++ [semi]) n
  | noIncrement {r : Token} : r.kind = .rightParen →
      Phrase nearest .increment [r] (impliedNil r.line)
  | someIncrement {r : Token} {ts : List Token} {n : Node} :
      Phrase nearest .expression ts n → r.kind = .rightParen →
      Phrase nearest .increment (ts ++ [r]) n
  | plain {ts : List Token} {n : Node} :
      Phrase nearest .simple ts n → Phrase nearest (.statement false) ts n
  | print {kw semi : Token} {ts : List Token} {value : Node} : kw.kind = .kwPrint →
      Phrase nearest .expression ts value → semi.kind = .semicolon →
      Phrase nearest (.statement false) (kw :: (ts ++ [semi])) (.print value)
  | block {l r : Token} {ts : List Token} {statements : List Node} : l.kind = .leftBrace →
      Phrase nearest .declarations ts (.list statements) → r.kind = .rightBrace →
      Phrase nearest (.statement false) (l :: (ts ++ [r])) (.block statements)
  | loop {kw l r : Token} {ts us : List Token} {condition body : Node} {o : Bool} :
      kw.kind = .kwWhile → l.kind = .leftParen → Phrase nearest .expression ts condition →
      r.kind = .rightParen → Phrase nearest (.statement o) us body →
      Phrase nearest (.statement o) (kw :: l :: (ts ++ r :: us)) (.loop condition body)
  | counted {kw l : Token} {is cs ns us : List Token} {initializer condition increment body : Node}
      {o : Bool} : kw.kind = .kwFor → l.kind = .leftParen →
      Phrase nearest .initializer is initializer → Phrase nearest .condition cs condition →
      Phrase nearest .increment ns increment → Phrase nearest (.statement o) us body →
      Phrase nearest (.statement o) (kw :: l :: (is ++ (cs ++ (ns ++ us))))
        (forBlock initializer condition increment body)
  | ifOnly {kw l r : Token} {ts us : List Token} {condition thenBranch : Node} {o : Bool} :
      kw.kind = .kwIf → l.kind = .leftParen → Phrase nearest .expression ts condition →
      r.kind = .rightParen → Phrase nearest (.statement o) us thenBranch →
      Phrase nearest (.statement true) (kw :: l :: (ts ++ r :: us))
        (.ifElse condition thenBranch (.block []))
  | ifElse {kw l r otherwise : Token} {ts us vs : List Token}
      {condition thenBranch elseBranch : Node} {o o' : Bool} : kw.kind = .kwIf →
      l.kind = .leftParen → Phrase nearest .expression ts condition → r.kind = .rightParen →
      Phrase nearest (.statement o) us thenBranch → (nearest = true → o = false) →
      otherwise.kind = .kwElse → Phrase nearest (.statement o') vs elseBranch →
      Phrase nearest (.statement o') (kw :: l :: (ts ++ r :: (us ++ otherwise :: vs)))
        (.ifElse condition thenBranch elseBranch)
  | function {kw target l r lb rb : Token} {ps ts params : List Token} {body : List Node} :
      kw.kind = .kwFun → target.kind = .identifier → l.kind = .leftParen → Parameters ps params →
      params.length ≤ maxArguments → r.kind = .rightParen → lb.kind = .leftBrace →
      Phrase nearest .declarations ts (.list body) → rb.kind = .rightBrace →
      Phrase nearest .declaration (kw :: target :: l :: (ps ++ r :: lb :: (ts ++ [rb])))
        (.function target params body)
  | bound {ts : List Token} {n : Node} :
      Phrase nearest .binding ts n → Phrase nearest .declaration ts n
  | statement {ts : List Token} {n : Node} {o : Bool} :
      Phrase nearest (.statement o) ts n → Phrase nearest .declaration ts n
  | none : Phrase nearest .declarations [] (.list [])
  | more {ts us : List Token} {n : Node} {rest : List Node} :
      Phrase nearest .declaration ts n → Phrase nearest .declarations us (.list rest) →
      Phrase nearest .declarations (ts ++ us) (.list (n :: rest))

/-- A row of tokens is a program by some reading of the grammar. -/
def IsProgram (ts : List Token) : Prop := ∃ statements, Phrase false .declarations ts (.list statements)

/-- A row of tokens stands for a program, with each `else` given to the nearest open `if`. -/
def Denotes (ts : List Token) (statements : List Node) : Prop :=
  Phrase true .declarations ts (.list statements)

theorem Phrase.sentence {nearest : Bool} {s : Symbol} {ts : List Token} {n : Node}
    (h : Phrase nearest s ts n) : Sentence nearest s ts := by
  induction h with
  | literal ht => exact .literal ht
  | name ht => exact .name ht
  | callNone _ hl hr ih => exact .callNone ih hl hr
  | callSome _ hl _ _ hr ihc iha => exact .callSome ihc hl iha hr
  | joined _ ho _ ihl ihr => exact .joined ihl ho ihr
  | assigned ht he _ ih => exact .assigned ht he ih
  | moreArguments _ hcomma _ ihe iha => exact .moreArguments ihe hcomma iha
  | simpleInitializer _ ih => exact .simpleInitializer ih
  | print hk _ hs ih => exact .print hk ih hs
  | block hl _ hr ih => exact .block hl ih hr
  | ifOnly hk hl _ hr _ ihc iht => exact .ifOnly hk hl ihc hr iht
  | ifElse hk hl _ hr _ ho he _ ihc iht ihe => exact .ifElse hk hl ihc hr iht ho he ihe
  | function hk ht hl hp _ hr hlb _ hrb ih => exact .function hk ht hl hp hr hlb ih hrb
  | statement _ ih => exact .statement ih
  | _ => constructor <;> assumption

theorem Phrase.startsWith {nearest : Bool} {s : Symbol} {ts : List Token} {n : Node}
    (h : Phrase nearest s ts n) (hs : s ≠ .declarations) : StartsWith s.start ts :=
  h.sentence.startsWith hs

/-- The phrases that can stand on the left of an equals sign. -/
def Symbol.isOperand : Symbol → Bool
  | .primary | .call | .unary | .chain _ => true
  | _ => false

theorem Level.isOperand_operand (level : Level) : level.operand.isOperand = true := by
  cases level <;> rfl

theorem Level.join_ne_name (level : Level) (left right : Node) (operator t : Token) :
    level.join left operator right ≠ .name t := by
  cases level <;> simp [Level.join]

theorem Phrase.eq_of_name {nearest : Bool} {s : Symbol} {ts : List Token} {t : Token}
    (h : Phrase nearest s ts (.name t)) (hs : s.isOperand = true) :
    ts = [t] ∧ t.kind = .identifier := by
  generalize hn : Node.name t = n at h
  induction h with
  | name ht =>
    cases hn
    exact ⟨rfl, ht⟩
  | callee _ ih => exact ih rfl hn
  | called _ ih => exact ih rfl hn
  | @operand level _ _ _ ih => exact ih level.isOperand_operand hn
  | @joined level _ _ _ left right => exact absurd hn.symm (level.join_ne_name left right _ t)
  | literal | grouping | callNone | callSome | negated => cases hn
  | _ => cases hs

/-- An `else` after an open statement can be given to the last `if` in it. -/
theorem Phrase.attach {ts us : List Token} {n m : Node} {otherwise : Token} {o : Bool}
    (h : Phrase true (.statement true) ts n) (he : otherwise.kind = .kwElse)
    (hm : Phrase true (.statement o) us m) :
    ∃ o' n', Phrase true (.statement o') (ts ++ otherwise :: us) n' := by
  generalize hs : Symbol.statement true = s at h
  induction h with
  | loop hk hl hc hr _ _ ih =>
    obtain ⟨o', n', h'⟩ := ih hs
    exact ⟨o', _, by simpa using loop hk hl hc hr h'⟩
  | counted hk hl hi hc hn _ _ _ _ ih =>
    obtain ⟨o', n', h'⟩ := ih hs
    exact ⟨o', _, by simpa using counted hk hl hi hc hn h'⟩
  | @ifOnly _ _ _ _ _ _ _ inner hk hl hc hr ht _ ih =>
    cases inner with
    | false => exact ⟨o, _, by simpa using ifElse hk hl hc hr ht (fun _ => rfl) he hm⟩
    | true =>
      obtain ⟨o', n', h'⟩ := ih rfl
      exact ⟨true, _, by simpa using ifOnly hk hl hc hr h'⟩
  | ifElse hk hl hc hr ht ho he' _ _ _ ih =>
    obtain ⟨o', n', h'⟩ := ih hs
    exact ⟨o', _, by simpa using ifElse hk hl hc hr ht ho he' h'⟩
  | _ => cases hs

/-- What a reading of a row gives for the reading by the nearest `if`: an expression stays as it
is, and a statement may come out as another one. -/
def Symbol.Regrouped : Symbol → List Token → Node → Prop
  | .statement _, ts, _ => ∃ o n, Phrase true (.statement o) ts n
  | .declaration, ts, _ => ∃ n, Phrase true .declaration ts n
  | .declarations, ts, _ => ∃ ns, Phrase true .declarations ts (.list ns)
  | s, ts, n => Phrase true s ts n

theorem Level.regrouped_operand {level : Level} {ts : List Token} {n : Node}
    (h : level.operand.Regrouped ts n) : Phrase true level.operand ts n := by
  cases level <;> exact h

/-- Every row of a phrase has a reading that gives each `else` to the nearest open `if`. -/
theorem Phrase.regrouped {s : Symbol} {ts : List Token} {n : Node} (h : Phrase false s ts n) :
    s.Regrouped ts n := by
  induction h with
  | literal ht => exact literal ht
  | name ht => exact name ht
  | grouping hl _ hr ih => exact grouping hl ih hr
  | callee _ ih => exact callee ih
  | callNone _ hl hr ih => exact callNone ih hl hr
  | callSome _ hl _ hlen hr ihc iha => exact callSome ihc hl iha hlen hr
  | negated ho _ ih => exact negated ho ih
  | called _ ih => exact called ih
  | operand _ ih => exact operand (Level.regrouped_operand ih)
  | joined _ ho _ ihl ihr => exact joined ihl ho (Level.regrouped_operand ihr)
  | value _ ih => exact value ih
  | assigned ht he _ ih => exact assigned ht he ih
  | lastArgument _ ih => exact lastArgument ih
  | moreArguments _ hc _ ihe iha => exact moreArguments ihe hc iha
  | unset hk ht hs => exact unset hk ht hs
  | set hk ht he _ hs ih => exact set hk ht he ih hs
  | simple _ hs ih => exact simple ih hs
  | noInitializer hs => exact noInitializer hs
  | boundInitializer _ ih => exact boundInitializer ih
  | simpleInitializer _ ih => exact simpleInitializer ih
  | noCondition hs => exact noCondition hs
  | someCondition _ hs ih => exact someCondition ih hs
  | noIncrement hr => exact noIncrement hr
  | someIncrement _ hr ih => exact someIncrement ih hr
  | plain _ ih => exact ⟨false, _, plain ih⟩
  | print hk _ hs ih => exact ⟨false, _, print hk ih hs⟩
  | block hl _ hr ih =>
    obtain ⟨ns, h⟩ := ih
    exact ⟨false, _, block hl h hr⟩
  | loop hk hl _ hr _ ihc ihb =>
    obtain ⟨o, n, h⟩ := ihb
    exact ⟨o, _, loop hk hl ihc hr h⟩
  | counted hk hl _ _ _ _ ihi ihc ihn ihb =>
    obtain ⟨o, n, h⟩ := ihb
    exact ⟨o, _, counted hk hl ihi ihc ihn h⟩
  | ifOnly hk hl _ hr _ ihc iht =>
    obtain ⟨o, n, h⟩ := iht
    exact ⟨true, _, ifOnly hk hl ihc hr h⟩
  | ifElse hk hl _ hr _ _ he _ ihc iht ihe =>
    obtain ⟨o, n, h⟩ := iht
    obtain ⟨o', m, h'⟩ := ihe
    cases o with
    | false => exact ⟨o', _, ifElse hk hl ihc hr h (fun _ => rfl) he h'⟩
    | true =>
      -- the `else` goes to an `if` inside the branch, and this `if` is left without one
      obtain ⟨o'', k, h''⟩ := h.attach he h'
      exact ⟨true, _, ifOnly hk hl ihc hr h''⟩
  | function hk ht hl hp hlen hr hlb _ hrb ih =>
    obtain ⟨ns, h⟩ := ih
    exact ⟨_, function hk ht hl hp hlen hr hlb h hrb⟩
  | bound _ ih => exact ⟨_, bound ih⟩
  | statement _ ih =>
    obtain ⟨o, n, h⟩ := ih
    exact ⟨n, statement h⟩
  | none => exact ⟨[], none⟩
  | more _ _ ihd ihr =>
    obtain ⟨n, h⟩ := ihd
    obtain ⟨ns, h'⟩ := ihr
    exact ⟨n :: ns, more h h'⟩

theorem Phrase.relaxed {nearest : Bool} {s : Symbol} {ts : List Token} {n : Node}
    (h : Phrase nearest s ts n) : Phrase false s ts n := by
  induction h with
  | callNone _ hl hr ih => exact callNone ih hl hr
  | callSome _ hl _ hlen hr ihc iha => exact callSome ihc hl iha hlen hr
  | joined _ ho _ ihl ihr => exact joined ihl ho ihr
  | assigned ht he _ ih => exact assigned ht he ih
  | simpleInitializer _ ih => exact simpleInitializer ih
  | print hk _ hs ih => exact print hk ih hs
  | block hl _ hr ih => exact block hl ih hr
  | ifElse hk hl _ hr _ _ he _ ihc iht ihe => exact ifElse hk hl ihc hr iht nofun he ihe
  | statement _ ih => exact statement ih
  | _ => constructor <;> assumption

/-- Rows that are programs by some reading are those with a reading by the nearest `if`. -/
theorem isProgram_iff {ts : List Token} : IsProgram ts ↔ ∃ statements, Denotes ts statements := by
  constructor
  · rintro ⟨statements, h⟩
    exact h.regrouped
  · rintro ⟨statements, h⟩
    exact ⟨statements, h.relaxed⟩

end Lox.Grammar
