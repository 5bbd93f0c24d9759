import Lox.Grammar.Rules

/-!
The grammar as rows of tokens, apart from the nodes they stand for and from any limit on how many
parameters or arguments there may be. An `else` that could belong to several `if`s makes the
grammar ambiguous, so it has two forms: one takes every reading, the other only the reading that
gives each `else` to the nearest `if` that is still open. Both have the same rows.
-/
namespace Lox.Grammar

/-- What a sentence can be. A statement is open if it ends with an `if` that could take one more
`else`. -/
inductive Symbol where
  | primary
  | call
  | unary
  | chain (level : Level)
  | expression
  | arguments
  | binding
  | simple
  | initializer
  | condition
  | increment
  | statement (isOpen : Bool)
  | declaration
  | declarations
  deriving DecidableEq

def Level.operand (level : Level) : Symbol :=
  match level.tighter? with
  | some tighter => .chain tighter
  | none => .unary

inductive Names : List Token → List Token → Prop where
  | last {name : Token} : name.kind = .identifier → Names [name] [name]
  | more {name comma : Token} {ts names : List Token} : name.kind = .identifier →
      comma.kind = .comma → Names ts names → Names (name :: comma :: ts) (name :: names)

def Parameters (ts params : List Token) : Prop :=
  (ts = [] ∧ params = []) ∨ Names ts params

/-- A row of tokens is a sentence of a symbol. If `nearest` is set, an `else` follows no statement
that is open. -/
inductive Sentence (nearest : Bool) : Symbol → List Token → Prop where
  | literal {t : Token} : t.kind ∈ literalKinds → Sentence nearest .primary [t]
  | name {t : Token} : t.kind = .identifier → Sentence nearest .primary [t]
  | grouping {l r : Token} {ts : List Token} : l.kind = .leftParen →
      Sentence nearest .expression ts → r.kind = .rightParen →
      Sentence nearest .primary (l :: (ts ++ [r]))
  | callee {ts : List Token} : Sentence nearest .primary ts → Sentence nearest .call ts
  | callNone {l r : Token} {ts : List Token} : Sentence nearest .call ts → l.kind = .leftParen →
      r.kind = .rightParen → Sentence nearest .call (ts ++ [l, r])
  | callSome {l r : Token} {ts us : List Token} : Sentence nearest .call ts →
      l.kind = .leftParen → Sentence nearest .arguments us → r.kind = .rightParen →
      Sentence nearest .call (ts ++ l :: (us ++ [r]))
  | negated {operator : Token} {ts : List Token} : operator.kind ∈ [.bang, .minus] →
      Sentence nearest .unary ts → Sentence nearest .unary (operator :: ts)
  | called {ts : List Token} : Sentence nearest .call ts → Sentence nearest .unary ts
  | operand {level : Level} {ts : List Token} : Sentence nearest level.operand ts →
      Sentence nearest (.chain level) ts
  | joined {level : Level} {operator : Token} {ts us : List Token} :
      Sentence nearest (.chain level) ts → operator.kind ∈ level.operators →
      Sentence nearest level.operand us → Sentence nearest (.chain level) (ts ++ operator :: us)
  | value {ts : List Token} : Sentence nearest (.chain .or) ts → Sentence nearest .expression ts
  | assigned {target equals : Token} {ts : List Token} : target.kind = .identifier →
      equals.kind = .equal → Sentence nearest .expression ts →
      Sentence nearest .expression (target :: equals :: ts)
  | lastArgument {ts : List Token} : Sentence nearest .expression ts →
      Sentence nearest .arguments ts
  | moreArguments {comma : Token} {ts us : List Token} : Sentence nearest .expression ts →
      comma.kind = .comma → Sentence nearest .arguments us →
      Sentence nearest .arguments (ts ++ comma :: us)
  | unset {kw target semi : Token} : kw.kind = .kwVar → target.kind = .identifier →
      semi.kind = .semicolon → Sentence nearest .binding [kw, target, semi]
  | set {kw target equals semi : Token} {ts : List Token} : kw.kind = .kwVar →
      target.kind = .identifier → equals.kind = .equal → Sentence nearest .expression ts →
      semi.kind = .semicolon →
      Sentence nearest .binding (kw :: target :: equals :: (ts ++ [semi]))
  | simple {semi : Token} {ts : List Token} : Sentence nearest .expression ts →
      semi.kind = .semicolon → Sentence nearest .simple (ts ++ [semi])
  | noInitializer {semi : Token} : semi.kind = .semicolon → Sentence nearest .initializer [semi]
  | boundInitializer {ts : List Token} : Sentence nearest .binding ts →
      Sentence nearest .initializer ts
  | simpleInitializer {ts : List Token} : Sentence nearest .simple ts →
      Sentence nearest .initializer ts
  | noCondition {semi : Token} : semi.kind = .semicolon → Sentence nearest .condition [semi]
  | someCondition {semi : Token} {ts : List Token} : Sentence nearest .expression ts →
      semi.kind = .semicolon → Sentence nearest .condition (ts ++ [semi])
  | noIncrement {r : Token} : r.kind = .rightParen → Sentence nearest .increment [r]
  | someIncrement {r : Token} {ts : List Token} : Sentence nearest .expression ts →
      r.kind = .rightParen → Sentence nearest .increment (ts ++ [r])
  | plain {ts : List Token} : Sentence nearest .simple ts → Sentence nearest (.statement false) ts
  | print {kw semi : Token} {ts : List Token} : kw.kind = .kwPrint →
      Sentence nearest .expression ts → semi.kind = .semicolon →
      Sentence nearest (.statement false) (kw :: (ts ++ [semi]))
  | block {l r : Token} {ts : List Token} : l.kind = .leftBrace →
      Sentence nearest .declarations ts → r.kind = .rightBrace →
      Sentence nearest (.statement false) (l :: (ts ++ [r]))
  | loop {kw l r : Token} {ts us : List Token} {o : Bool} : kw.kind = .kwWhile →
      l.kind = .leftParen → Sentence nearest .expression ts → r.kind = .rightParen →
      Sentence nearest (.statement o) us →
      Sentence nearest (.statement o) (kw :: l :: (ts ++ r :: us))
  | counted {kw l : Token} {is cs ns us : List Token} {o : Bool} : kw.kind = .kwFor →
      l.kind = .leftParen → Sentence nearest .initializer is → Sentence nearest .condition cs →
      Sentence nearest .increment ns → Sentence nearest (.statement o) us →
      Sentence nearest (.statement o) (kw :: l :: (is ++ (cs ++ (ns ++ us))))
  | ifOnly {kw l r : Token} {ts us : List Token} {o : Bool} : kw.kind = .kwIf →
      l.kind = .leftParen → Sentence nearest .expression ts → r.kind = .rightParen →
      Sentence nearest (.statement o) us →
      Sentence nearest (.statement true) (kw :: l :: (ts ++ r :: us))
  | ifElse {kw l r otherwise : Token} {ts us vs : List Token} {o o' : Bool} : kw.kind = .kwIf →
      l.kind = .leftParen → Sentence nearest .expression ts → r.kind = .rightParen →
      Sentence nearest (.statement o) us → (nearest = true → o = false) →
      otherwise.kind = .kwElse → Sentence nearest (.statement o') vs →
      Sentence nearest (.statement o') (kw :: l :: (ts ++ r :: (us ++ otherwise :: vs)))
  | function {kw target l r lb rb : Token} {ps ts params : List Token} : kw.kind = .kwFun →
      target.kind = .identifier → l.kind = .leftParen → Parameters ps params →
      r.kind = .rightParen → lb.kind = .leftBrace → Sentence nearest .declarations ts →
      rb.kind = .rightBrace →
      Sentence nearest .declaration (kw :: target :: l :: (ps ++ r :: lb :: (ts ++ [rb])))
  | bound {ts : List Token} : Sentence nearest .binding ts → Sentence nearest .declaration ts
  | statement {ts : List Token} {o : Bool} : Sentence nearest (.statement o) ts →
      Sentence nearest .declaration ts
  | none : Sentence nearest .declarations []
  | more {ts us : List Token} : Sentence nearest .declaration ts →
      Sentence nearest .declarations us → Sentence nearest .declarations (ts ++ us)

/-- A row of tokens is a program, whatever the number of parameters and arguments in it. -/
def IsSentence (ts : List Token) : Prop := Sentence false .declarations ts

def valueStart : List Kind := [.kwFalse, .kwTrue, .kwNil, .number, .string, .identifier, .leftParen]

def expressionStart : List Kind := .bang :: .minus :: valueStart

def Symbol.start : Symbol → List Kind
  | .primary | .call => valueStart
  | .unary | .chain _ | .expression | .arguments | .simple => expressionStart
  | .binding => [.kwVar]
  | .initializer => .kwVar :: .semicolon :: expressionStart
  | .condition => .semicolon :: expressionStart
  | .increment => .rightParen :: expressionStart
  | .statement _ => .kwIf :: .kwPrint :: .kwWhile :: .kwFor :: .leftBrace :: expressionStart
  | .declaration | .declarations =>
    .kwFun :: .kwVar :: .kwIf :: .kwPrint :: .kwWhile :: .kwFor :: .leftBrace :: expressionStart

theorem Level.start_operand (level : Level) : level.operand.start = expressionStart := by
  cases level <;> rfl

def StartsWith (kinds : List Kind) (ts : List Token) : Prop :=
  ∃ t us, ts = t :: us ∧ t.kind ∈ kinds

theorem StartsWith.mono {kinds kinds' : List Kind} {ts : List Token}
    (h : StartsWith kinds ts) (hk : kinds ⊆ kinds') : StartsWith kinds' ts := by
  obtain ⟨t, us, rfl, ht⟩ := h
  exact ⟨t, us, rfl, hk ht⟩

theorem StartsWith.append {kinds : List Kind} {ts : List Token} (h : StartsWith kinds ts)
    (us : List Token) : StartsWith kinds (ts ++ us) := by
  obtain ⟨t, vs, rfl, ht⟩ := h
  exact ⟨t, vs ++ us, rfl, ht⟩

theorem startsWith_cons {kinds : List Kind} {t : Token} {k : Kind} (h : t.kind = k)
    (hk : k ∈ kinds) (ts : List Token) : StartsWith kinds (t :: ts) :=
  ⟨t, ts, rfl, h ▸ hk⟩

theorem Sentence.startsWith {nearest : Bool} {s : Symbol} {ts : List Token}
    (h : Sentence nearest s ts) (hs : s ≠ .declarations) : StartsWith s.start ts := by
  induction h with
  | @literal t ht => exact ⟨t, [], rfl, by revert ht; generalize t.kind = k; revert k; decide⟩
  | name ht => exact startsWith_cons ht (by decide) _
  | grouping hl => exact startsWith_cons hl (by decide) _
  | callee _ ih => exact ih (by decide)
  | callNone _ _ _ ih => exact (ih (by decide)).append _
  | callSome _ _ _ _ ih => exact (ih (by decide)).append _
  | @negated operator ts ho =>
    exact ⟨operator, ts, rfl, by revert ho; generalize operator.kind = k; revert k; decide⟩
  | called _ ih => exact (ih (by decide)).mono (by decide)
  | @operand level _ _ ih =>
    have h := ih (by cases level <;> decide)
    rwa [level.start_operand] at h
  | joined _ _ _ ih => exact (ih (by simp)).append _
  | value _ ih => exact ih (by decide)
  | assigned ht => exact startsWith_cons ht (by decide) _
  | lastArgument _ ih => exact ih (by decide)
  | moreArguments _ _ _ ih => exact (ih (by decide)).append _
  | unset hk => exact startsWith_cons hk (by decide) _
  | set hk => exact startsWith_cons hk (by decide) _
  | simple _ _ ih => exact (ih (by decide)).append _
  | noInitializer hk => exact startsWith_cons hk (by decide) _
  | boundInitializer _ ih => exact (ih (by decide)).mono (by decide)
  | simpleInitializer _ ih => exact (ih (by decide)).mono (by decide)
  | noCondition hk => exact startsWith_cons hk (by decide) _
  | someCondition _ _ ih => exact ((ih (by decide)).mono (by decide)).append _
  | noIncrement hk => exact startsWith_cons hk (by decide) _
  | someIncrement _ _ ih => exact ((ih (by decide)).mono (by decide)).append _
  | plain _ ih => exact (ih (by decide)).mono (by decide)
  | print hk => exact startsWith_cons hk (by decide) _
  | block hk => exact startsWith_cons hk (by decide) _
  | loop hk => exact startsWith_cons hk (by simp [Symbol.start]) _
  | counted hk => exact startsWith_cons hk (by simp [Symbol.start]) _
  | ifOnly hk => exact startsWith_cons hk (by decide) _
  | ifElse hk => exact startsWith_cons hk (by simp [Symbol.start]) _
  | function hk => exact startsWith_cons hk (by decide) _
  | bound _ ih => exact (ih (by decide)).mono (by decide)
  | statement _ ih => exact (ih (by simp)).mono (by simp [Symbol.start])
  | none => exact absurd rfl hs
  | more => exact absurd rfl hs

theorem Sentence.startsWith_of_declarations {nearest : Bool} {ts : List Token}
    (h : Sentence nearest .declarations ts) : ts = [] ∨ StartsWith Symbol.declaration.start ts := by
  cases h with
  | none => exact .inl rfl
  | more hd => exact .inr ((hd.startsWith (by decide)).append _)

theorem Sentence.attach {ts us : List Token} {otherwise : Token} {o : Bool}
    (h : Sentence true (.statement true) ts) (he : otherwise.kind = .kwElse)
    (hus : Sentence true (.statement o) us) :
    ∃ o', Sentence true (.statement o') (ts ++ otherwise :: us) := by
  generalize hs : Symbol.statement true = s at h
  induction h with
  | loop hk hl hc hr _ _ ih =>
    obtain ⟨o', h'⟩ := ih hs
    exact ⟨o', by simpa using loop hk hl hc hr h'⟩
  | counted hk hl hi hc hn _ _ _ _ ih =>
    obtain ⟨o', h'⟩ := ih hs
    exact ⟨o', by simpa using counted hk hl hi hc hn h'⟩
  | @ifOnly _ _ _ _ _ inner hk hl hc hr ht _ ih =>
    cases inner with
    | false => exact ⟨o, by simpa using ifElse hk hl hc hr ht (fun _ => rfl) he hus⟩
    | true =>
      obtain ⟨o', h'⟩ := ih rfl
      exact ⟨true, by simpa using ifOnly hk hl hc hr h'⟩
  | ifElse hk hl hc hr ht ho he' _ _ _ ih =>
    obtain ⟨o', h'⟩ := ih hs
    exact ⟨o', by simpa using ifElse hk hl hc hr ht ho he' h'⟩
  | _ => cases hs

/-- What a sentence is by the nearest `if`: a statement may then be open or not. -/
def Symbol.Regroups : Symbol → List Token → Prop
  | .statement _, ts => ∃ o, Sentence true (.statement o) ts
  | s, ts => Sentence true s ts

theorem Level.regroups_operand {level : Level} {ts : List Token} (h : level.operand.Regroups ts) :
    Sentence true level.operand ts := by
  cases level <;> exact h

theorem Sentence.regroups {s : Symbol} {ts : List Token} (h : Sentence false s ts) :
    s.Regroups ts := by
  induction h with
  | literal ht => exact literal ht
  | name ht => exact name ht
  | callNone _ hl hr ih => exact callNone ih hl hr
  | callSome _ hl _ hr ihc iha => exact callSome ihc hl iha hr
  | operand _ ih => exact operand (Level.regroups_operand ih)
  | joined _ ho _ ihl ihr => exact joined ihl ho (Level.regroups_operand ihr)
  | assigned ht he _ ih => exact assigned ht he ih
  | moreArguments _ hcomma _ ihe iha => exact moreArguments ihe hcomma iha
  | simpleInitializer _ ih => exact simpleInitializer ih
  | plain _ ih => exact ⟨false, plain ih⟩
  | print hk _ hs ih => exact ⟨false, print hk ih hs⟩
  | block hl _ hr ih => exact ⟨false, block hl ih hr⟩
  | loop hk hl _ hr _ ihc ihb =>
    obtain ⟨o, h⟩ := ihb
    exact ⟨o, loop hk hl ihc hr h⟩
  | counted hk hl _ _ _ _ ihi ihc ihn ihb =>
    obtain ⟨o, h⟩ := ihb
    exact ⟨o, counted hk hl ihi ihc ihn h⟩
  | ifOnly hk hl _ hr _ ihc iht =>
    obtain ⟨o, h⟩ := iht
    exact ⟨true, ifOnly hk hl ihc hr h⟩
  | ifElse hk hl _ hr _ _ he _ ihc iht ihe =>
    obtain ⟨o, h⟩ := iht
    obtain ⟨o', h'⟩ := ihe
    cases o with
    | false => exact ⟨o', ifElse hk hl ihc hr h (fun _ => rfl) he h'⟩
    | true =>
      -- the `else` goes to an `if` inside the branch, and this `if` is left without one
      obtain ⟨o'', h''⟩ := h.attach he h'
      exact ⟨true, ifOnly hk hl ihc hr h''⟩
  | function hk ht hl hp hr hlb _ hrb ih => exact function hk ht hl hp hr hlb ih hrb
  | statement _ ih =>
    obtain ⟨o, h⟩ := ih
    exact statement h
  | _ => constructor <;> assumption

end Lox.Grammar
