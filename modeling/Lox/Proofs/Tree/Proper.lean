import Lox.Program
import Lox.Proofs.Grammar.Recognition
import Lox.Value

/-!
Trees that come from source text. In such a tree every node stands where its kind belongs, every
operator is one that its node knows, and every token that an error could name was scanned.
-/
namespace Lox

def Node.parts : Node → List Node
  | .literal _ | .name _ => []
  | .grouping inside => [inside]
  | .unary _ right => [right]
  | .binary left _ right | .logical left _ right => [left, right]
  | .assign _ value | .expression value | .print value | .var _ value => [value]
  | .call callee _ args => callee :: args
  | .block items | .function _ _ items | .list items => items
  | .ifElse condition thenBranch elseBranch => [condition, thenBranch, elseBranch]
  | .loop condition body => [condition, body]

/-- A node is another one or stands somewhere below it. -/
inductive Node.Within (n : Node) : Node → Prop where
  | self : Within n n
  | part {m p : Node} : p ∈ m.parts → Within n p → Within n m

def Declaration.node (d : Declaration) : Node := .function d.name d.params d.body

inductive Node.Rank where
  | expression
  | statement
  | declaration

def binaryKinds : List Kind :=
  Grammar.Level.equality.operators ++ Grammar.Level.comparison.operators ++
    Grammar.Level.term.operators ++ Grammar.Level.factor.operators

def Token.IsConstant (t : Token) : Prop :=
  match t.kind with
  | .kwTrue | .kwFalse | .kwNil => True
  | .number => ∃ x, t.literal = .num x
  | .string => ∃ s : String, t.literal = .str s
  | _ => False

/-- A tree in which everything stands where it belongs. The tokens of names, operators and calls
are from a source, and the functions declared in it are among those that may be stored. A branch
and the body of a loop declare nothing. -/
inductive Node.Proper (source : Token → Prop) (stored : Declaration → Prop) :
    Node.Rank → Node → Prop where
  | literal {t : Token} : t.IsConstant → Proper source stored .expression (.literal t)
  | grouping {inside : Node} : Proper source stored .expression inside →
      Proper source stored .expression (.grouping inside)
  | unary {operator : Token} {right : Node} : source operator → operator.kind ∈ [.bang, .minus] →
      Proper source stored .expression right →
      Proper source stored .expression (.unary operator right)
  | binary {left right : Node} {operator : Token} : Proper source stored .expression left →
      source operator → operator.kind ∈ binaryKinds → Proper source stored .expression right →
      Proper source stored .expression (.binary left operator right)
  | logical {left right : Node} {operator : Token} : Proper source stored .expression left →
      Proper source stored .expression right →
      Proper source stored .expression (.logical left operator right)
  | name {t : Token} : source t → t.kind = .identifier →
      Proper source stored .expression (.name t)
  | assign {target : Token} {value : Node} : source target → target.kind = .identifier →
      Proper source stored .expression value →
      Proper source stored .expression (.assign target value)
  | call {callee : Node} {paren : Token} {args : List Node} :
      Proper source stored .expression callee → source paren → paren.kind = .rightParen →
      (∀ a ∈ args, Proper source stored .expression a) →
      Proper source stored .expression (.call callee paren args)
  | simple {value : Node} : Proper source stored .expression value →
      Proper source stored .statement (.expression value)
  | print {value : Node} : Proper source stored .expression value →
      Proper source stored .statement (.print value)
  | block {items : List Node} : (∀ n ∈ items, Proper source stored .declaration n) →
      Proper source stored .statement (.block items)
  | ifElse {condition thenBranch elseBranch : Node} :
      Proper source stored .expression condition → Proper source stored .statement thenBranch →
      Proper source stored .statement elseBranch →
      Proper source stored .statement (.ifElse condition thenBranch elseBranch)
  | loop {condition body : Node} : Proper source stored .expression condition →
      Proper source stored .statement body → Proper source stored .statement (.loop condition body)
  | var {target : Token} {initial : Node} : source target →
      Proper source stored .expression initial →
      Proper source stored .declaration (.var target initial)
  | function {target : Token} {params : List Token} {body : List Node} : source target →
      (∀ p ∈ params, source p) → stored ⟨target, params, body⟩ →
      (∀ n ∈ body, Proper source stored .declaration n) →
      Proper source stored .declaration (.function target params body)
  | statement {n : Node} : Proper source stored .statement n →
      Proper source stored .declaration n

namespace Grammar

def Symbol.Proper (source : Token → Prop) (stored : Declaration → Prop) : Symbol → Node → Prop
  | .primary | .call | .unary | .chain _ | .expression | .condition | .increment =>
    Node.Proper source stored .expression
  | .simple | .statement _ => Node.Proper source stored .statement
  | .binding | .initializer | .declaration => Node.Proper source stored .declaration
  | .arguments => fun n => ∀ p ∈ n.parts, p.Proper source stored .expression
  | .declarations => fun n => ∀ p ∈ n.parts, p.Proper source stored .declaration

variable {source : Token → Prop} {stored : Declaration → Prop}

theorem Level.proper_operand {level : Level} {n : Node} :
    level.operand.Proper source stored n ↔ n.Proper source stored .expression := by
  cases level <;> exact Iff.rfl

theorem Level.proper_join {level : Level} {operator : Token} {left right : Node}
    (hl : left.Proper source stored .expression) (ho : operator.kind ∈ level.operators)
    (hs : source operator) (hr : right.Proper source stored .expression) :
    (level.join left operator right).Proper source stored .expression := by
  cases level with
  | or | and => exact .logical hl hr
  | equality | comparison | term | factor =>
    refine .binary hl hs ?_ hr
    simp only [binaryKinds, List.mem_append]
    simp only [ho, true_or, or_true]

theorem Names.mem {ts params : List Token} (h : Names ts params) : ∀ p ∈ params, p ∈ ts := by
  induction h with
  | last _ => simp
  | more _ _ _ ih =>
    intro p hp
    simp only [List.mem_cons] at hp ⊢
    obtain rfl | hp := hp
    · exact .inl rfl
    · exact .inr (.inr (ih p hp))

theorem Parameters.mem {ts params : List Token} (h : Parameters ts params) :
    ∀ p ∈ params, p ∈ ts := by
  obtain ⟨rfl, rfl⟩ | h := h
  · simp
  · exact h.mem

theorem proper_impliedNil (line : Datum) :
    (impliedNil line).Proper source stored .expression := .literal trivial

theorem proper_impliedTrue (line : Datum) :
    (impliedTrue line).Proper source stored .expression := .literal trivial

/-- All functions declared in a tree may be stored. -/
def Declares (stored : Declaration → Prop) (n : Node) : Prop :=
  ∀ d : Declaration, d.node.Within n → stored d

theorem Declares.part {n p : Node} (h : Declares stored n) (hp : p ∈ n.parts) :
    Declares stored p :=
  fun d hd => h d (.part hp hd)

theorem Declares.list {n : Node} {items : List Node} (h : Declares stored n)
    (hitems : items ⊆ n.parts) : Declares stored (.list items) := by
  intro d hd
  cases hd with
  | part hp hd => exact h d (.part (hitems hp) hd)

theorem Phrase.proper {nearest : Bool} {s : Symbol} {ts : List Token} {n : Node}
    (hconst : ∀ t, source t → t.kind ∈ literalKinds → t.IsConstant)
    (h : Phrase nearest s ts n) (hts : ∀ t ∈ ts, source t) (hd : Declares stored n) :
    s.Proper source stored n := by
  induction h with
  | literal ht => exact .literal (hconst _ (hts _ (by simp)) ht)
  | name ht => exact .name (hts _ (by simp)) ht
  | grouping _ _ _ ih =>
    exact .grouping (ih (fun t ht => hts t (by simp [ht])) (hd.part (by simp [Node.parts])))
  | callee _ ih => exact ih hts hd
  | callNone _ _ hr ih =>
    refine .call (ih (fun t ht => hts t (by simp [ht])) (hd.part (by simp [Node.parts]))) ?_ hr ?_
    · exact hts _ (by simp)
    · simp
  | callSome _ _ _ _ hr ihc iha =>
    refine .call (ihc (fun t ht => hts t (by simp [ht])) (hd.part (by simp [Node.parts]))) ?_ hr ?_
    · exact hts _ (by simp)
    · exact iha (fun t ht => hts t (by simp [ht])) (hd.list (by simp [Node.parts]))
  | negated ho _ ih =>
    exact .unary (hts _ (by simp)) ho
      (ih (fun t ht => hts t (by simp [ht])) (hd.part (by simp [Node.parts])))
  | called _ ih => exact ih hts hd
  | operand _ ih => exact Level.proper_operand.1 (ih hts hd)
  | @joined level operator ts us left right _ ho _ ihl ihr =>
    have hparts : left ∈ (level.join left operator right).parts ∧
        right ∈ (level.join left operator right).parts := by
      cases level <;> simp [Level.join, Node.parts]
    refine Level.proper_join (ihl (fun t ht => hts t (by simp [ht])) (hd.part hparts.1)) ho
      (hts _ (by simp)) (Level.proper_operand.1 (ihr (fun t ht => hts t (by simp [ht])) ?_))
    exact hd.part hparts.2
  | value _ ih => exact ih hts hd
  | assigned ht _ _ ih =>
    exact .assign (hts _ (by simp)) ht
      (ih (fun t ht => hts t (by simp [ht])) (hd.part (by simp [Node.parts])))
  | lastArgument _ ih =>
    have h := ih hts (hd.part (by simp [Node.parts]))
    simpa [Symbol.Proper, Node.parts] using h
  | @moreArguments _ _ _ n rest _ _ _ ihe iha =>
    have hn := ihe (fun t ht => hts t (by simp [ht])) (hd.part (by simp [Node.parts]))
    have hrest := iha (fun t ht => hts t (by simp [ht])) (hd.list (by simp [Node.parts]))
    simpa [Symbol.Proper, Node.parts] using And.intro hn hrest
  | unset => exact .var (hts _ (by simp)) (proper_impliedNil _)
  | set _ _ _ _ _ ih =>
    exact .var (hts _ (by simp))
      (ih (fun t ht => hts t (by simp [ht])) (hd.part (by simp [Node.parts])))
  | simple _ _ ih =>
    exact .simple (ih (fun t ht => hts t (by simp [ht])) (hd.part (by simp [Node.parts])))
  | noInitializer => exact .statement (.block (by simp))
  | boundInitializer _ ih => exact ih hts hd
  | simpleInitializer _ ih => exact .statement (ih hts hd)
  | noCondition => exact proper_impliedTrue _
  | someCondition _ _ ih => exact ih (fun t ht => hts t (by simp [ht])) hd
  | noIncrement => exact proper_impliedNil _
  | someIncrement _ _ ih => exact ih (fun t ht => hts t (by simp [ht])) hd
  | plain _ ih => exact ih hts hd
  | print _ _ _ ih =>
    exact .print (ih (fun t ht => hts t (by simp [ht])) (hd.part (by simp [Node.parts])))
  | block _ _ _ ih =>
    exact .block (ih (fun t ht => hts t (by simp [ht])) (hd.list (by simp [Node.parts])))
  | loop _ _ _ _ _ ihc ihb =>
    exact .loop (ihc (fun t ht => hts t (by simp [ht])) (hd.part (by simp [Node.parts])))
      (ihb (fun t ht => hts t (by simp [ht])) (hd.part (by simp [Node.parts])))
  | @counted _ _ _ _ _ _ initializer condition increment body _ _ _ _ _ _ _ ihi ihc ihn ihb =>
    have hloop := hd.part (p := .loop condition (.block [body, .expression increment]))
      (by simp [forBlock, Node.parts])
    have hbody := hloop.part (p := .block [body, .expression increment]) (by simp [Node.parts])
    have hstep := hbody.part (p := .expression increment) (by simp [Node.parts])
    have hi := ihi (fun t ht => hts t (by simp [ht])) (hd.part (by simp [forBlock, Node.parts]))
    have hc := ihc (fun t ht => hts t (by simp [ht])) (hloop.part (by simp [Node.parts]))
    have hn := ihn (fun t ht => hts t (by simp [ht])) (hstep.part (by simp [Node.parts]))
    have hb := ihb (fun t ht => hts t (by simp [ht])) (hbody.part (by simp [Node.parts]))
    have hturn : (Node.block [body, .expression increment]).Proper source stored .statement := by
      refine .block ?_
      simp only [List.mem_cons, List.not_mem_nil, or_false]
      rintro m (rfl | rfl)
      · exact .statement hb
      · exact .statement (.simple hn)
    refine .block ?_
    simp only [List.mem_cons, List.not_mem_nil, or_false]
    rintro m (rfl | rfl)
    · exact hi
    · exact .statement (.loop hc hturn)
  | ifOnly _ _ _ _ _ ihc iht =>
    exact .ifElse (ihc (fun t ht => hts t (by simp [ht])) (hd.part (by simp [Node.parts])))
      (iht (fun t ht => hts t (by simp [ht])) (hd.part (by simp [Node.parts]))) (.block (by simp))
  | ifElse _ _ _ _ _ _ _ _ ihc iht ihe =>
    exact .ifElse (ihc (fun t ht => hts t (by simp [ht])) (hd.part (by simp [Node.parts])))
      (iht (fun t ht => hts t (by simp [ht])) (hd.part (by simp [Node.parts])))
      (ihe (fun t ht => hts t (by simp [ht])) (hd.part (by simp [Node.parts])))
  | function _ _ _ hp _ _ _ _ _ ih =>
    refine .function (hts _ (by simp)) (fun p hmem => hts p ?_) (hd _ .self) ?_
    · simp [hp.mem p hmem]
    · exact ih (fun t ht => hts t (by simp [ht])) (hd.list (by simp [Node.parts]))
  | bound _ ih => exact ih hts hd
  | statement _ ih => exact .statement (ih hts hd)
  | none => simp [Symbol.Proper, Node.parts]
  | @more _ _ n rest _ _ ihd ihr =>
    have hn := ihd (fun t ht => hts t (by simp [ht])) (hd.part (by simp [Node.parts]))
    have hrest := ihr (fun t ht => hts t (by simp [ht])) (hd.list (by simp [Node.parts]))
    simpa [Symbol.Proper, Node.parts] using And.intro hn hrest

end Grammar

/-- A statement that declares nothing in the frame it runs in. -/
def Node.Quiet : Node → Prop
  | .var .. | .function .. => False
  | .ifElse _ thenBranch elseBranch => thenBranch.Quiet ∧ elseBranch.Quiet
  | .loop _ body => body.Quiet
  | _ => True

def Node.Plain : Node → Prop
  | .var .. | .function .. => True
  | n => n.Quiet

theorem Node.Quiet.plain {n : Node} (h : n.Quiet) : n.Plain := by
  cases n with
  | ifElse | loop => exact h
  | _ => trivial

namespace Grammar

def Symbol.Plain : Symbol → Node → Prop
  | .simple | .statement _ => Node.Quiet
  | .binding | .initializer | .declaration => Node.Plain
  | .declarations => fun n => ∀ p ∈ n.parts, p.Plain
  | _ => fun _ => True

theorem Phrase.isPlain {nearest : Bool} {s : Symbol} {ts : List Token} {n : Node}
    (h : Phrase nearest s ts n) : s.Plain n := by
  induction h with
  | @operand level => cases level <;> trivial
  | loop _ _ _ _ _ _ ihb => exact ihb
  | ifOnly _ _ _ _ _ _ iht => exact ⟨iht, trivial⟩
  | ifElse _ _ _ _ _ _ _ _ _ iht ihe => exact ⟨iht, ihe⟩
  | boundInitializer _ ih => exact ih
  | simpleInitializer _ ih => exact ih.plain
  | plain _ ih => exact ih
  | bound _ ih => exact ih
  | statement _ ih => exact ih.plain
  | none => simp [Symbol.Plain, Node.parts]
  | more _ _ ihd ihr => simpa [Symbol.Plain, Node.parts] using And.intro ihd ihr
  | _ => trivial

end Grammar

theorem Lexeme.lexeme_token (l : Lexeme) : ∃ s : String, l.token.lexeme = .str s :=
  ⟨String.ofList l.text, rfl⟩

theorem Lexeme.isConstant_token (l : Lexeme) (h : l.token.kind ∈ Grammar.literalKinds) :
    l.token.IsConstant := by
  obtain ⟨kind, text, line⟩ := l
  simp only [Lexeme.token, Grammar.literalKinds, List.mem_cons, List.not_mem_nil, or_false] at h
  obtain rfl | rfl | rfl | rfl | rfl := h
  · trivial
  · trivial
  · trivial
  · exact ⟨numberValue text, rfl⟩
  · exact ⟨String.ofList (inner text), rfl⟩

theorem Scan.exists_lexeme {s : Scan} {t : Token} (h : t ∈ s.tokens) : ∃ l : Lexeme, t = l.token := by
  obtain ⟨l, -, rfl⟩ := List.mem_map.1 h
  exact ⟨l, rfl⟩

theorem program_eq_ok_iff {text : List Char} {statements : List Node} :
    program text = .ok statements ↔
      (scan text).errors = [] ∧ (scan text).parse.errors = [] ∧
        (scan text).parse.statements = statements := by
  unfold program Scan.program
  by_cases hscan : (scan text).errors = []
  · by_cases hparse : (scan text).parse.errors = []
    · simp [hscan, hparse]
    · simp [hscan, hparse]
  · simp [hscan]

theorem program_denotes {text : List Char} {statements : List Node}
    (h : program text = .ok statements) : Grammar.Denotes (scan text).tokens statements := by
  unfold program Scan.program at h
  split at h
  · dsimp only at h
    split at h
    · rename_i herrors
      cases h
      exact Grammar.parse_recognizes rfl (List.isEmpty_iff.1 herrors)
    · cases h
  · cases h

theorem program_proper {text : List Char} {statements : List Node} {source : Token → Prop}
    {stored : Declaration → Prop} (h : program text = .ok statements)
    (hsource : ∀ t ∈ (scan text).tokens, source t)
    (hstored : ∀ d : Declaration, d.node.Within (.list statements) → stored d)
    (hconst : ∀ t, source t → t.kind ∈ Grammar.literalKinds → t.IsConstant) :
    ∀ n ∈ statements, n.Proper source stored .declaration :=
  (program_denotes h).proper hconst hsource hstored

end Lox
