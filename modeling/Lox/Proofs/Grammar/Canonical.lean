import Lox.Proofs.Grammar.Exactness
import Lox.Proofs.Tree.Proper

/-!
Canonical trees and their tokens. A tree is canonical if every operand is as tight as its place
in the grammar asks for, every token is of the kind that its place asks for, and declarations
stand only where they may. Parsing without an error gives canonical trees only; and it gives
every one of them, from the tokens that it is printed as.
-/
namespace Lox

namespace Grammar

def Level.grade : Level → Nat
  | .or => 1
  | .and => 2
  | .equality => 3
  | .comparison => 4
  | .term => 5
  | .factor => 6

/-- The expressions of a symbol are those of its grade or a higher one: the tighter, the
higher. -/
def Symbol.grade : Symbol → Nat
  | .chain level => level.grade
  | .unary => 7
  | .call => 8
  | .primary => 9
  | _ => 0

def Symbol.ofGrade : Nat → Symbol
  | 0 => .expression
  | 1 => .chain .or
  | 2 => .chain .and
  | 3 => .chain .equality
  | 4 => .chain .comparison
  | 5 => .chain .term
  | 6 => .chain .factor
  | 7 => .unary
  | 8 => .call
  | _ => .primary

theorem Level.ofGrade_grade (level : Level) : Symbol.ofGrade level.grade = .chain level := by
  cases level <;> rfl

theorem Level.grade_operand (level : Level) : level.operand.grade = level.grade + 1 := by
  cases level <;> rfl

theorem Level.ofGrade_operand (level : Level) :
    Symbol.ofGrade level.operand.grade = level.operand := by
  cases level <;> rfl

end Grammar

open Grammar

namespace Node

mutual

/-- The node is a canonical expression of a grade or a higher one. -/
def isExpression (grade : Nat) : Node → Bool
  | .literal t => decide (t.kind ∈ literalKinds)
  | .name t => decide (t.kind = .identifier)
  | .grouping inside => inside.isExpression Symbol.expression.grade
  | .call callee paren args =>
    decide (grade ≤ Symbol.call.grade) && callee.isExpression Symbol.call.grade &&
      decide (paren.kind = .rightParen) && decide (args.length ≤ maxArguments) &&
      areExpressions args
  | .unary operator right =>
    decide (grade ≤ Symbol.unary.grade) && decide (operator.kind ∈ [.bang, .minus]) &&
      right.isExpression Symbol.unary.grade
  | .binary left operator right =>
    [Level.equality, .comparison, .term, .factor].any fun level =>
      decide (grade ≤ level.grade) && decide (operator.kind ∈ level.operators) &&
        left.isExpression level.grade && right.isExpression level.operand.grade
  | .logical left operator right =>
    [Level.or, .and].any fun level =>
      decide (grade ≤ level.grade) && decide (operator.kind ∈ level.operators) &&
        left.isExpression level.grade && right.isExpression level.operand.grade
  | .assign target value =>
    decide (grade ≤ Symbol.expression.grade) && decide (target.kind = .identifier) &&
      value.isExpression Symbol.expression.grade
  | _ => false

def areExpressions : List Node → Bool
  | [] => true
  | n :: r => n.isExpression Symbol.expression.grade && areExpressions r

end

mutual

/-- The node is a canonical statement, or a declaration where these may stand. -/
def isStatement (declares : Bool) : Node → Bool
  | .expression value | .print value => value.isExpression Symbol.expression.grade
  | .block items => areDeclarations items
  | .ifElse condition thenBranch elseBranch =>
    condition.isExpression Symbol.expression.grade && thenBranch.isStatement false &&
      elseBranch.isStatement false
  | .loop condition body =>
    condition.isExpression Symbol.expression.grade && body.isStatement false
  | .var target initial =>
    declares && decide (target.kind = .identifier) && initial.isExpression Symbol.expression.grade
  | .function target params body =>
    declares && decide (target.kind = .identifier) &&
      params.all (fun p => decide (p.kind = .identifier)) &&
      decide (params.length ≤ maxArguments) && areDeclarations body
  | _ => false

def areDeclarations : List Node → Bool
  | [] => true
  | n :: r => n.isStatement true && areDeclarations r

end

/-- A token that a tree does not keep. -/
def sign (kind : Kind) (lexeme : String) : Token := .implied kind lexeme .null

mutual

/-- The tokens that a node is printed as. Every variable has a value and every `if` an `else`. -/
def tokens : Node → List Token
  | .literal t | .name t => [t]
  | .grouping inside => sign .leftParen "(" :: (inside.tokens ++ [sign .rightParen ")"])
  | .unary operator right => operator :: right.tokens
  | .binary left operator right | .logical left operator right =>
    left.tokens ++ operator :: right.tokens
  | .assign target value => target :: sign .equal "=" :: value.tokens
  | .call callee paren args =>
    callee.tokens ++ sign .leftParen "(" :: (tokensOfArguments args ++ [paren])
  | .expression value => value.tokens ++ [sign .semicolon ";"]
  | .print value => sign .kwPrint "print" :: (value.tokens ++ [sign .semicolon ";"])
  | .var target initial =>
    sign .kwVar "var" :: target :: sign .equal "=" :: (initial.tokens ++ [sign .semicolon ";"])
  | .block items => sign .leftBrace "\x7b" :: (tokensOfAll items ++ [sign .rightBrace "\x7d"])
  | .ifElse condition thenBranch elseBranch =>
    sign .kwIf "if" :: sign .leftParen "(" :: (condition.tokens ++ sign .rightParen ")" ::
      (thenBranch.tokens ++ sign .kwElse "else" :: elseBranch.tokens))
  | .loop condition body =>
    sign .kwWhile "while" :: sign .leftParen "(" ::
      (condition.tokens ++ sign .rightParen ")" :: body.tokens)
  | .function target params body =>
    sign .kwFun "fun" :: target :: sign .leftParen "(" ::
      (params.intersperse (sign .comma ",") ++ sign .rightParen ")" :: sign .leftBrace "\x7b" ::
        (tokensOfAll body ++ [sign .rightBrace "\x7d"]))
  | .list items => tokensOfAll items

def tokensOfAll : List Node → List Token
  | [] => []
  | n :: r => n.tokens ++ tokensOfAll r

def tokensOfArguments : List Node → List Token
  | [] => []
  | n :: r => n.tokens ++ tokensOfMore r

def tokensOfMore : List Node → List Token
  | [] => []
  | n :: r => sign .comma "," :: (n.tokens ++ tokensOfMore r)

end

end Node

namespace Node

theorem isExpression_of_le {low high : Nat} (hle : low ≤ high) {n : Node}
    (h : n.isExpression high = true) : n.isExpression low = true := by
  cases n with
  | call | unary | binary | logical | assign =>
    simp only [isExpression, List.any_cons, List.any_nil, Bool.and_eq_true, Bool.or_eq_true,
      decide_eq_true_eq, Bool.or_false] at h ⊢
    grind
  | literal | name | grouping =>
    simp only [isExpression] at h ⊢
    exact h
  | _ => cases h

theorem isExpression_join {level : Level} {left right : Node} {operator : Token} {grade : Nat}
    (hgrade : grade ≤ level.grade) (hleft : left.isExpression level.grade = true)
    (ho : operator.kind ∈ level.operators)
    (hright : right.isExpression level.operand.grade = true) :
    (level.join left operator right).isExpression grade = true := by
  cases level with
  | or | and =>
    simp only [Level.join, isExpression, List.any_cons, hgrade, ho, hleft, hright, decide_true,
      Bool.and_self, Bool.true_or, Bool.or_true]
  | equality | comparison | term | factor =>
    simp only [Level.join, isExpression, List.any_cons, hgrade, ho, hleft, hright, decide_true,
      Bool.and_self, Bool.true_or, Bool.or_true]

theorem isStatement_true {n : Node} (h : n.isStatement false = true) :
    n.isStatement true = true := by
  cases n with
  | var | function => simp [isStatement] at h
  | expression | print | block | ifElse | loop =>
    simp only [isStatement] at h ⊢
    exact h
  | _ => cases h

end Node

namespace Grammar

def Symbol.Canonical : Symbol → Node → Prop
  | .arguments => fun n => Node.areExpressions n.parts = true
  | .simple | .statement _ => fun n => n.isStatement false = true
  | .binding | .initializer | .declaration => fun n => n.isStatement true = true
  | .declarations => fun n => Node.areDeclarations n.parts = true
  | s => fun n => n.isExpression s.grade = true

theorem Level.canonical_operand {level : Level} {n : Node} :
    level.operand.Canonical n ↔ n.isExpression level.operand.grade = true := by
  cases level <;> exact Iff.rfl

theorem Names.all_identifier {ts params : List Token} (h : Names ts params) :
    params.all (fun p => decide (p.kind = .identifier)) = true := by
  induction h with
  | last h => simp [h]
  | more h _ _ ih => simpa [h] using ih

theorem Parameters.all_identifier {ts params : List Token} (h : Parameters ts params) :
    params.all (fun p => decide (p.kind = .identifier)) = true := by
  obtain ⟨rfl, rfl⟩ | h := h
  · rfl
  · exact h.all_identifier

theorem Phrase.canonical {nearest : Bool} {s : Symbol} {ts : List Token} {n : Node}
    (h : Phrase nearest s ts n) : s.Canonical n := by
  induction h with
  | literal ht | name ht => exact decide_eq_true ht
  | grouping _ _ _ ih => exact ih
  | callee _ ih | called _ ih => exact Node.isExpression_of_le (by decide) ih
  | callNone _ _ hr ih =>
    simp only [Symbol.Canonical] at ih ⊢
    simp [Node.isExpression, ih, hr, Node.areExpressions]
  | callSome _ _ _ hlen hr ihc iha =>
    simp only [Symbol.Canonical, Node.parts] at ihc iha ⊢
    simp [Node.isExpression, ihc, iha, hr, hlen]
  | negated ho _ ih =>
    simp only [Symbol.Canonical] at ih ⊢
    simp only [Node.isExpression, ih, ho, Nat.le_refl, decide_true, Bool.and_self]
  | @operand level _ _ _ ih =>
    have hle : level.grade ≤ level.operand.grade := by
      rw [level.grade_operand]
      exact Nat.le_succ _
    exact Node.isExpression_of_le hle (Level.canonical_operand.1 ih)
  | joined _ ho _ ihl ihr =>
    exact Node.isExpression_join (Nat.le_refl _) ihl ho (Level.canonical_operand.1 ihr)
  | value _ ih => exact Node.isExpression_of_le (Nat.zero_le _) ih
  | assigned ht _ _ ih =>
    simp only [Symbol.Canonical] at ih ⊢
    simp [Node.isExpression, ht, ih]
  | lastArgument _ ih =>
    simp only [Symbol.Canonical, Node.parts] at ih ⊢
    simp [Node.areExpressions, ih]
  | moreArguments _ _ _ ihe iha =>
    simp only [Symbol.Canonical, Node.parts] at ihe iha ⊢
    simp [Node.areExpressions, ihe, iha]
  | unset _ ht _ => simp [Symbol.Canonical, Node.isStatement, ht, impliedNil, Node.isExpression,
      Token.implied, literalKinds]
  | set _ ht _ _ _ ih =>
    simp only [Symbol.Canonical] at ih ⊢
    simp [Node.isStatement, ht, ih]
  | simple _ _ ih => exact ih
  | noInitializer => rfl
  | boundInitializer _ ih => exact ih
  | simpleInitializer _ ih => exact Node.isStatement_true ih
  | noCondition => rfl
  | someCondition _ _ ih => exact ih
  | noIncrement => rfl
  | someIncrement _ _ ih => exact ih
  | plain _ ih => exact ih
  | print _ _ _ ih => exact ih
  | block _ _ _ ih => exact ih
  | loop _ _ _ _ _ ihc ihb =>
    simp only [Symbol.Canonical] at ihc ihb ⊢
    simp only [Node.isStatement, ihb, Bool.and_true]
    exact ihc
  | counted _ _ _ _ _ _ ihi ihc ihn ihb =>
    have hc : Node.isExpression 0 _ = true := ihc
    have hn : Node.isExpression 0 _ = true := ihn
    have hi : Node.isStatement true _ = true := ihi
    have hb := Node.isStatement_true ihb
    simp [Symbol.Canonical, forBlock, Node.isStatement, Node.areDeclarations, Symbol.grade, hi, hc,
      hn, hb]
  | ifOnly _ _ _ _ _ ihc iht =>
    have hc : Node.isExpression 0 _ = true := ihc
    have ht : Node.isStatement false _ = true := iht
    simp [Symbol.Canonical, Node.isStatement, Node.areDeclarations, Symbol.grade, hc, ht]
  | ifElse _ _ _ _ _ _ _ _ ihc iht ihe =>
    have hc : Node.isExpression 0 _ = true := ihc
    have ht : Node.isStatement false _ = true := iht
    have he : Node.isStatement false _ = true := ihe
    simp [Symbol.Canonical, Node.isStatement, Symbol.grade, hc, ht, he]
  | function _ ht _ hp hlen _ _ _ _ ih =>
    simp only [Symbol.Canonical, Node.parts] at ih ⊢
    simp [Node.isStatement, ht, hp.all_identifier, hlen, ih]
  | bound _ ih => exact ih
  | statement _ ih => exact Node.isStatement_true ih
  | none => rfl
  | more _ _ ihd ihr =>
    simp only [Symbol.Canonical, Node.parts] at ihd ihr ⊢
    simp [Node.areDeclarations, ihd, ihr]

variable {nearest : Bool} {ts : List Token} {n : Node}

theorem Phrase.ofGrade_succ {grade : Nat} (h : Phrase nearest (.ofGrade (grade + 1)) ts n) :
    Phrase nearest (.ofGrade grade) ts n := by
  match grade with
  | 0 => exact .value h
  | 1 => exact @Phrase.operand _ .or _ _ h
  | 2 => exact @Phrase.operand _ .and _ _ h
  | 3 => exact @Phrase.operand _ .equality _ _ h
  | 4 => exact @Phrase.operand _ .comparison _ _ h
  | 5 => exact @Phrase.operand _ .term _ _ h
  | 6 => exact @Phrase.operand _ .factor _ _ h
  | 7 => exact .called h
  | 8 => exact .callee h
  | _ + 9 => exact h

theorem Phrase.ofGrade_of_le {low high : Nat} (hle : low ≤ high)
    (h : Phrase nearest (.ofGrade high) ts n) : Phrase nearest (.ofGrade low) ts n := by
  induction hle with
  | refl => exact h
  | step _ ih => exact ih h.ofGrade_succ

theorem Phrase.ofGrade_of_primary (h : Phrase nearest .primary ts n) (grade : Nat) :
    Phrase nearest (.ofGrade grade) ts n :=
  ofGrade_of_le (Nat.le_add_right grade 9) h

theorem Phrase.ofGrade_join {level : Level} {left right : Node} {operator : Token} {grade : Nat}
    {us : List Token} (hgrade : grade ≤ level.grade)
    (hleft : Phrase nearest (.ofGrade level.grade) ts left) (ho : operator.kind ∈ level.operators)
    (hright : Phrase nearest (.ofGrade level.operand.grade) us right) :
    Phrase nearest (.ofGrade grade) (ts ++ operator :: us) (level.join left operator right) := by
  rw [level.ofGrade_grade] at hleft
  rw [level.ofGrade_operand] at hright
  apply ofGrade_of_le hgrade
  rw [level.ofGrade_grade]
  exact .joined hleft ho hright

theorem names_intersperse {params : List Token} (hne : params ≠ [])
    (h : params.all (fun p => decide (p.kind = .identifier)) = true) :
    Names (params.intersperse (Node.sign .comma ",")) params := by
  induction params with
  | nil => exact absurd rfl hne
  | cons p params ih =>
    simp only [List.all_cons, Bool.and_eq_true, decide_eq_true_eq] at h
    cases params with
    | nil => exact .last h.1
    | cons q params => exact .more h.1 rfl (ih (by simp) h.2)

theorem parameters_intersperse {params : List Token}
    (h : params.all (fun p => decide (p.kind = .identifier)) = true) :
    Parameters (params.intersperse (Node.sign .comma ",")) params := by
  by_cases hne : params = []
  · subst hne
    exact .inl ⟨rfl, rfl⟩
  · exact .inr (names_intersperse hne h)

end Grammar

namespace Node

mutual

theorem phrase_of_isExpression : ∀ (n : Node) (grade : Nat), n.isExpression grade = true →
    Phrase true (.ofGrade grade) n.tokens n
  | .literal t, grade, h => by
    simp only [isExpression, decide_eq_true_eq] at h
    exact (Phrase.literal h).ofGrade_of_primary grade
  | .name t, grade, h => by
    simp only [isExpression, decide_eq_true_eq] at h
    exact (Phrase.name h).ofGrade_of_primary grade
  | .grouping inside, grade, h => by
    simp only [isExpression] at h
    have hinside := phrase_of_isExpression inside 0 h
    exact (Phrase.grouping rfl hinside rfl).ofGrade_of_primary grade
  | .call callee paren args, grade, h => by
    simp only [isExpression, Bool.and_eq_true, decide_eq_true_eq] at h
    obtain ⟨⟨⟨⟨hgrade, hcallee⟩, hparen⟩, hlen⟩, hargs⟩ := h
    have hcallee' := phrase_of_isExpression callee 8 hcallee
    apply Phrase.ofGrade_of_le hgrade
    cases args with
    | nil => exact .callNone hcallee' rfl hparen
    | cons a args =>
      have hargs' := phrase_of_areExpressions (a :: args) (by simp) hargs
      exact .callSome hcallee' rfl hargs' hlen hparen
  | .unary operator right, grade, h => by
    simp only [isExpression, Bool.and_eq_true, decide_eq_true_eq] at h
    obtain ⟨⟨hgrade, ho⟩, hright⟩ := h
    have hright' := phrase_of_isExpression right 7 hright
    exact Phrase.ofGrade_of_le hgrade (.negated ho hright')
  | .binary left operator right, grade, h => by
    simp only [isExpression, List.any_eq_true, Bool.and_eq_true, decide_eq_true_eq] at h
    obtain ⟨level, hlevel, ⟨⟨hgrade, ho⟩, hleft⟩, hright⟩ := h
    have hleft' := phrase_of_isExpression left _ hleft
    have hright' := phrase_of_isExpression right _ hright
    have hjoin : level.join left operator right = .binary left operator right := by
      cases level with
      | or | and => simp at hlevel
      | _ => rfl
    rw [tokens, ← hjoin]
    exact Phrase.ofGrade_join hgrade hleft' ho hright'
  | .logical left operator right, grade, h => by
    simp only [isExpression, List.any_eq_true, Bool.and_eq_true, decide_eq_true_eq] at h
    obtain ⟨level, hlevel, ⟨⟨hgrade, ho⟩, hleft⟩, hright⟩ := h
    have hleft' := phrase_of_isExpression left _ hleft
    have hright' := phrase_of_isExpression right _ hright
    have hjoin : level.join left operator right = .logical left operator right := by
      cases level with
      | or | and => rfl
      | _ => simp at hlevel
    rw [tokens, ← hjoin]
    exact Phrase.ofGrade_join hgrade hleft' ho hright'
  | .assign target value, grade, h => by
    simp only [isExpression, Bool.and_eq_true, decide_eq_true_eq] at h
    obtain ⟨⟨hgrade, ht⟩, hvalue⟩ := h
    have hvalue' := phrase_of_isExpression value 0 hvalue
    exact Phrase.ofGrade_of_le hgrade (.assigned ht rfl hvalue')

theorem phrase_of_areExpressions : ∀ args : List Node, args ≠ [] → areExpressions args = true →
    Phrase true .arguments (tokensOfArguments args) (.list args)
  | [n], _, h => by
    simp only [areExpressions, Bool.and_true] at h
    have hn := phrase_of_isExpression n 0 h
    rw [tokensOfArguments, tokensOfMore, List.append_nil]
    exact .lastArgument hn
  | n :: m :: r, _, h => by
    rw [areExpressions, Bool.and_eq_true] at h
    have hn := phrase_of_isExpression n 0 h.1
    have hrest := phrase_of_areExpressions (m :: r) (by simp) h.2
    exact .moreArguments hn rfl hrest

end

mutual

theorem phrase_of_isStatement : ∀ n : Node, n.isStatement false = true →
    Phrase true (.statement false) n.tokens n
  | .expression value, h => .plain (.simple (phrase_of_isExpression value 0 h) rfl)
  | .print value, h => .print rfl (phrase_of_isExpression value 0 h) rfl
  | .block items, h => .block rfl (phrase_of_areDeclarations items h) rfl
  | .ifElse condition thenBranch elseBranch, h => by
    simp only [isStatement, Bool.and_eq_true] at h
    obtain ⟨⟨hcondition, hthen⟩, helse⟩ := h
    exact .ifElse rfl rfl (phrase_of_isExpression condition 0 hcondition) rfl
      (phrase_of_isStatement thenBranch hthen) (fun _ => rfl) rfl
      (phrase_of_isStatement elseBranch helse)
  | .loop condition body, h => by
    simp only [isStatement, Bool.and_eq_true] at h
    exact .loop rfl rfl (phrase_of_isExpression condition 0 h.1) rfl
      (phrase_of_isStatement body h.2)

theorem phrase_of_isDeclaration : ∀ n : Node, n.isStatement true = true →
    Phrase true .declaration n.tokens n
  | .var target initial, h => by
    simp only [isStatement, Bool.and_eq_true, decide_eq_true_eq] at h
    exact .bound (.set rfl h.1.2 rfl (phrase_of_isExpression initial 0 h.2) rfl)
  | .function target params body, h => by
    simp only [isStatement, Bool.and_eq_true, decide_eq_true_eq] at h
    obtain ⟨⟨⟨⟨-, ht⟩, hparams⟩, hlen⟩, hbody⟩ := h
    exact .function rfl ht rfl (parameters_intersperse hparams) hlen rfl rfl
      (phrase_of_areDeclarations body hbody) rfl
  | .expression value, h => .statement (phrase_of_isStatement (.expression value) h)
  | .print value, h => .statement (phrase_of_isStatement (.print value) h)
  | .block items, h => .statement (phrase_of_isStatement (.block items) h)
  | .ifElse condition thenBranch elseBranch, h =>
    .statement (phrase_of_isStatement (.ifElse condition thenBranch elseBranch) h)
  | .loop condition body, h => .statement (phrase_of_isStatement (.loop condition body) h)

theorem phrase_of_areDeclarations : ∀ items : List Node, areDeclarations items = true →
    Denotes (tokensOfAll items) items
  | [], _ => .none
  | n :: r, h => by
    rw [areDeclarations, Bool.and_eq_true] at h
    exact .more (phrase_of_isDeclaration n h.1) (phrase_of_areDeclarations r h.2)

end

end Node

namespace Grammar

variable {depth : Nat} {tokens : List Token} {last : Token}

theorem canonical_of_parse (hlast : last.kind = .eof)
    (h : (parse depth tokens last).errors = []) :
    Node.areDeclarations (parse depth tokens last).statements = true :=
  Phrase.canonical (parse_recognizes hlast h)

theorem parse_tokensOfAll (hlast : last.kind = .eof) {statements : List Node}
    (h : Node.areDeclarations statements = true)
    (hdeep : ∀ e ∈ (parse depth (Node.tokensOfAll statements) last).errors,
      e.problem ≠ .nestedTooDeeply) :
    parse depth (Node.tokensOfAll statements) last = ⟨statements, [], []⟩ :=
  parse_covers hlast (Node.phrase_of_areDeclarations statements h) hdeep

/-- What is parsed without an error is canonical. What is canonical is parsed back from the tokens
that it is printed as, unless the depth is too small, and some depth is not. So what was once
parsed without an error is parsed back too. -/
theorem parse_print (hlast : last.kind = .eof) :
    (∀ depth tokens, (parse depth tokens last).errors = [] →
      Node.areDeclarations (parse depth tokens last).statements = true) ∧
    (∀ statements, Node.areDeclarations statements = true →
      let printed := Node.tokensOfAll statements
      (∀ depth ≥ 10 * printed.length + 12, parse depth printed last = ⟨statements, [], []⟩) ∧
      ∀ depth, parse depth printed last = ⟨statements, [], []⟩ ∨
        ∃ e ∈ (parse depth printed last).errors, e.problem = .nestedTooDeeply) ∧
    ∀ depth tokens, (parse depth tokens last).errors = [] →
      let statements := (parse depth tokens last).statements
      let printed := Node.tokensOfAll statements
      ∀ deep ≥ 10 * printed.length + 12, parse deep printed last = ⟨statements, [], []⟩ := by
  have hprinted {statements : List Node} (h : Node.areDeclarations statements = true) {depth : Nat}
      (hdepth : 10 * (Node.tokensOfAll statements).length + 12 ≤ depth) :
      parse depth (Node.tokensOfAll statements) last = ⟨statements, [], []⟩ :=
    parse_tokensOfAll hlast h (programFrom_fits hlast hdepth)
  refine ⟨fun depth tokens => canonical_of_parse hlast, ?_, ?_⟩
  · intro statements h printed
    refine ⟨fun depth hdepth => hprinted h hdepth, fun depth => ?_⟩
    by_cases hdeep : ∃ e ∈ (parse depth printed last).errors, e.problem = .nestedTooDeeply
    · exact .inr hdeep
    · exact .inl (parse_tokensOfAll hlast h fun e he hp => hdeep ⟨e, he, hp⟩)
  · intro depth tokens h statements printed deep hdeep
    exact hprinted (canonical_of_parse hlast h) hdeep

/-- `for (;;) if (a) f(!b, c = 1);` is a block with a loop in it, and is printed as one. -/
theorem parse_print_for :
    let word (kind : Kind) (lexeme : String) : Token := ⟨kind, .str lexeme, .int 1, .null, []⟩
    let last := word .eof ""
    let p := parse 300
      [word .kwFor "for", word .leftParen "(", word .semicolon ";", word .semicolon ";",
        word .rightParen ")", word .kwIf "if", word .leftParen "(", word .identifier "a",
        word .rightParen ")", word .identifier "f", word .leftParen "(", word .bang "!",
        word .identifier "b", word .comma ",", word .identifier "c", word .equal "=",
        word .number "1", word .rightParen ")", word .semicolon ";"] last
    p.errors = [] ∧ Node.areDeclarations p.statements = true ∧
      parse 500 (Node.tokensOfAll p.statements) last = ⟨p.statements, [], []⟩ := by
  intro word last p
  have hclean : p.errors = [] := by decide +kernel
  have hlast : last.kind = .eof := rfl
  obtain ⟨hcanonical, -, hback⟩ := parse_print hlast
  exact ⟨hclean, hcanonical _ _ hclean, hback _ _ hclean 500 (by decide +kernel)⟩

end Grammar

end Lox
