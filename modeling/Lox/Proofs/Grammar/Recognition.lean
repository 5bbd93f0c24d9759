import Lox.Grammar.Parse
import Lox.Proofs.Grammar.Phrase
import Lox.Proofs.Grammar.Reading

/-!
What a parser reads without an error is a phrase. Each rule is taken on its own, given that the
parsers of its parts read phrases. A statement that is left open is not followed by an `else`, for
its own rule would have taken that; so an `else` always goes to the nearest open `if`.
-/
namespace Lox.Grammar

open Lox.Parser

/-- What a parser reads without an error is a phrase of a kind. -/
def Recognizes (s : Symbol) (p : Parser Node) : Prop :=
  ∀ ⦃c n next⦄, p c = .done n next [] → c.Closed →
    ∃ ts, c = next.before ts ∧ Phrase true s ts n

/-- The same for statements, of which an open one is not followed by an `else`. -/
def RecognizesStatements (p : Parser Node) : Prop :=
  ∀ ⦃c n next⦄, p c = .done n next [] → c.Closed →
    ∃ o ts, c = next.before ts ∧ Phrase true (.statement o) ts n ∧
      (o = true → next.peek.kind ≠ .kwElse)

variable {expression statement declaration : Parser Node} {c next : Cursor} {n : Node}

theorem recognizes_tooDeep (s : Symbol) : Recognizes s Parser.tooDeep := by
  intro c n next h _
  cases h

theorem primaryRule_recognizes (he : Recognizes .expression expression) :
    Recognizes .primary (primaryRule expression) := by
  intro c n next h hc
  unfold primaryRule at h
  obtain ⟨o, c₁, r₁, k₁⟩ := bind_done h
  obtain ⟨t, rfl, ht, rfl⟩ | ⟨rfl, rfl, -⟩ := accept?_done r₁ hc (by decide)
  · obtain ⟨rfl, rfl⟩ := pure_done k₁
    exact ⟨[t], rfl, .literal ht⟩
  obtain ⟨o, c₂, r₂, k₂⟩ := bind_done k₁
  obtain ⟨t, rfl, ht, rfl⟩ | ⟨rfl, rfl, -⟩ := accept?_done r₂ hc (by decide)
  · obtain ⟨rfl, rfl⟩ := pure_done k₂
    exact ⟨[t], rfl, .name (by simpa using ht)⟩
  obtain ⟨l, c₃, hl, rfl, k₃⟩ | ⟨-, k₃⟩ := accept_done k₂ hc (by decide)
  · obtain ⟨inside, c₄, r₄, k₄⟩ := bind_done k₃
    obtain ⟨ts, rfl, hinside⟩ := he r₄ hc
    obtain ⟨r, c₅, r₅, k₅⟩ := bind_done k₄
    obtain ⟨hr, rfl⟩ := expect_done r₅ hc (by decide)
    obtain ⟨rfl, rfl⟩ := pure_done k₅
    exact ⟨l :: (ts ++ [r]), by simp [Cursor.before], .grouping hl hinside hr⟩
  · -- the token is reported
    obtain ⟨t, c₄, -, k₄⟩ := bind_done k₃
    obtain ⟨_, c₅, r₅, -⟩ := bind_done k₄
    cases r₅

theorem limit_done {α : Type} {a : α} {count : Nat} {problem : Problem} {go : Unit → Parser α}
    (h : (if maxArguments ≤ count then
        (do let t ← peek
            let r ← report t problem
            go r)
      else go ()) c = .done a next []) : count < maxArguments ∧ go () c = .done a next [] := by
  split at h
  · obtain ⟨t, c₁, -, k₁⟩ := bind_done h
    obtain ⟨_, c₂, r₂, -⟩ := bind_done k₁
    cases r₂
  · rename_i hcount
    exact ⟨Nat.lt_of_not_le hcount, h⟩

theorem parameters_recognizes {count : Nat} {turns params : List Token}
    (h : parameters count turns c = .done params next []) (hc : c.Closed) :
    ∃ ts, c = next.before ts ∧ Names ts params ∧ count + params.length ≤ maxArguments := by
  induction turns generalizing count params c next with
  | nil =>
    unfold parameters at h
    obtain ⟨hcount, k₀⟩ := limit_done h
    obtain ⟨param, c₁, r₁, k₁⟩ := bind_done k₀
    obtain ⟨hparam, rfl⟩ := expect_done r₁ hc (by decide)
    obtain ⟨rfl, rfl⟩ := pure_done k₁
    exact ⟨[param], rfl, .last hparam, hcount⟩
  | cons turn turns ih =>
    unfold parameters at h
    obtain ⟨hcount, k₀⟩ := limit_done h
    obtain ⟨param, c₁, r₁, k₁⟩ := bind_done k₀
    obtain ⟨hparam, rfl⟩ := expect_done r₁ hc (by decide)
    obtain ⟨comma, c₂, hcomma, rfl, k₂⟩ | ⟨-, k₂⟩ := accept_done k₁ hc (by decide)
    · obtain ⟨rest, c₃, r₃, k₃⟩ := bind_done k₂
      obtain ⟨ts, rfl, hrest, hlen⟩ := ih r₃ hc
      obtain ⟨rfl, rfl⟩ := pure_done k₃
      exact ⟨param :: comma :: ts, rfl, .more hparam hcomma hrest, by simp; omega⟩
    · obtain ⟨rfl, rfl⟩ := pure_done k₂
      exact ⟨[param], rfl, .last hparam, hcount⟩

theorem arguments_recognizes (he : Recognizes .expression expression) {count : Nat}
    {turns : List Token} {args : List Node}
    (h : arguments expression count turns c = .done args next []) (hc : c.Closed) :
    ∃ ts, c = next.before ts ∧ Phrase true .arguments ts (.list args) ∧
      count + args.length ≤ maxArguments := by
  induction turns generalizing count args c next with
  | nil =>
    unfold arguments at h
    obtain ⟨hcount, k₀⟩ := limit_done h
    obtain ⟨argument, c₁, r₁, k₁⟩ := bind_done k₀
    obtain ⟨ts, rfl, harg⟩ := he r₁ hc
    obtain ⟨rfl, rfl⟩ := pure_done k₁
    exact ⟨ts, rfl, .lastArgument harg, hcount⟩
  | cons turn turns ih =>
    unfold arguments at h
    obtain ⟨hcount, k₀⟩ := limit_done h
    obtain ⟨argument, c₁, r₁, k₁⟩ := bind_done k₀
    obtain ⟨ts, rfl, harg⟩ := he r₁ hc
    obtain ⟨comma, c₂, hcomma, rfl, k₂⟩ | ⟨-, k₂⟩ := accept_done k₁ hc (by decide)
    · obtain ⟨rest, c₃, r₃, k₃⟩ := bind_done k₂
      obtain ⟨us, rfl, hrest, hlen⟩ := ih r₃ hc
      obtain ⟨rfl, rfl⟩ := pure_done k₃
      exact ⟨ts ++ comma :: us, by simp [Cursor.before],
        .moreArguments harg hcomma hrest, by simp; omega⟩
    · obtain ⟨rfl, rfl⟩ := pure_done k₂
      exact ⟨ts, rfl, .lastArgument harg, hcount⟩

theorem finishCall_recognizes (he : Recognizes .expression expression) {callee : Node}
    (h : finishCall expression callee c = .done n next []) (hc : c.Closed) :
    ∃ ts, c = next.before ts ∧ ∀ (us : List Token) (l : Token), l.kind = .leftParen →
      Phrase true .call us callee → Phrase true .call (us ++ l :: ts) n := by
  unfold finishCall at h
  obtain ⟨-, k₁⟩ | ⟨-, k₁⟩ := check_done h
  · obtain ⟨args, c₂, r₂, k₂⟩ := bind_done k₁
    obtain ⟨rfl, rfl⟩ := pure_done r₂
    obtain ⟨r, c₃, r₃, k₃⟩ := bind_done k₂
    obtain ⟨hr, rfl⟩ := expect_done r₃ hc (by decide)
    obtain ⟨rfl, rfl⟩ := pure_done k₃
    exact ⟨[r], rfl, fun us l hl hcallee => .callNone hcallee hl hr⟩
  · obtain ⟨args, c₂, r₂, k₂⟩ := bind_done k₁
    obtain ⟨ts, rfl, hargs, hlen⟩ := arguments_recognizes he r₂ hc
    obtain ⟨r, c₃, r₃, k₃⟩ := bind_done k₂
    obtain ⟨hr, rfl⟩ := expect_done r₃ hc (by decide)
    obtain ⟨rfl, rfl⟩ := pure_done k₃
    exact ⟨ts ++ [r], by simp [Cursor.before], fun us l hl hcallee =>
      .callSome hcallee hl hargs (by simpa using hlen) hr⟩

theorem callTail_recognizes (he : Recognizes .expression expression) {callee : Node}
    {us turns : List Token} (hcallee : Phrase true .call us callee)
    (h : callTail expression callee turns c = .done n next []) (hc : c.Closed) :
    ∃ ts, c = next.before ts ∧ Phrase true .call (us ++ ts) n := by
  induction turns generalizing callee us c with
  | nil =>
    obtain ⟨rfl, rfl⟩ := pure_done h
    exact ⟨[], rfl, by simpa using hcallee⟩
  | cons turn turns ih =>
    unfold callTail at h
    obtain ⟨l, c₁, hl, rfl, k₁⟩ | ⟨-, k₁⟩ := accept_done h hc (by decide)
    · obtain ⟨called, c₂, r₂, k₂⟩ := bind_done k₁
      obtain ⟨ts, rfl, hcalled⟩ := finishCall_recognizes he r₂ hc
      obtain ⟨vs, rfl, hn⟩ := ih (hcalled us l hl hcallee) k₂ hc
      exact ⟨l :: (ts ++ vs), by simp [Cursor.before], by simpa using hn⟩
    · obtain ⟨rfl, rfl⟩ := pure_done k₁
      exact ⟨[], rfl, by simpa using hcallee⟩

theorem callRule_recognizes {primary : Parser Node} (he : Recognizes .expression expression)
    (hp : Recognizes .primary primary) : Recognizes .call (callRule expression primary) := by
  intro c n next h hc
  unfold callRule at h
  obtain ⟨callee, c₁, r₁, k₁⟩ := bind_done h
  obtain ⟨ts, rfl, hcallee⟩ := hp r₁ hc
  obtain ⟨us, rfl, hn⟩ := callTail_recognizes he (.callee hcallee) k₁ hc
  exact ⟨ts ++ us, by simp [Cursor.before], hn⟩

theorem unaryRule_recognizes {unary call : Parser Node} (hu : Recognizes .unary unary)
    (hcall : Recognizes .call call) : Recognizes .unary (unaryRule unary call) := by
  intro c n next h hc
  unfold unaryRule at h
  obtain ⟨o, c₁, r₁, k₁⟩ := bind_done h
  obtain ⟨operator, rfl, ho, rfl⟩ | ⟨rfl, rfl, -⟩ := accept?_done r₁ hc (by decide)
  · obtain ⟨right, c₂, r₂, k₂⟩ := bind_done k₁
    obtain ⟨ts, rfl, hright⟩ := hu r₂ hc
    obtain ⟨rfl, rfl⟩ := pure_done k₂
    exact ⟨operator :: ts, rfl, .negated ho hright⟩
  · obtain ⟨ts, rfl, hn⟩ := hcall k₁ hc
    exact ⟨ts, rfl, .called hn⟩

theorem chainTail_recognizes {level : Level} {operand : Parser Node}
    (ho : Recognizes level.operand operand) {left : Node} {us turns : List Token}
    (hleft : Phrase true (.chain level) us left)
    (h : chainTail level operand left turns c = .done n next []) (hc : c.Closed) :
    ∃ ts, c = next.before ts ∧ Phrase true (.chain level) (us ++ ts) n := by
  induction turns generalizing left us c with
  | nil =>
    obtain ⟨rfl, rfl⟩ := pure_done h
    exact ⟨[], rfl, by simpa using hleft⟩
  | cons turn turns ih =>
    unfold chainTail at h
    obtain ⟨o, c₁, r₁, k₁⟩ := bind_done h
    obtain ⟨operator, rfl, hop, rfl⟩ | ⟨rfl, rfl, -⟩ :=
      accept?_done r₁ hc (by cases level <;> decide)
    · obtain ⟨right, c₂, r₂, k₂⟩ := bind_done k₁
      obtain ⟨ts, rfl, hright⟩ := ho r₂ hc
      obtain ⟨vs, rfl, hn⟩ := ih (.joined hleft hop hright) k₂ hc
      exact ⟨operator :: (ts ++ vs), by simp [Cursor.before], by simpa using hn⟩
    · obtain ⟨rfl, rfl⟩ := pure_done k₁
      exact ⟨[], rfl, by simpa using hleft⟩

theorem chainRule_recognizes {level : Level} {operand : Parser Node}
    (ho : Recognizes level.operand operand) :
    Recognizes (.chain level) (chainRule level operand) := by
  intro c n next h hc
  unfold chainRule at h
  obtain ⟨left, c₁, r₁, k₁⟩ := bind_done h
  obtain ⟨ts, rfl, hleft⟩ := ho r₁ hc
  obtain ⟨us, rfl, hn⟩ := chainTail_recognizes ho (.operand hleft) k₁ hc
  exact ⟨ts ++ us, by simp [Cursor.before], hn⟩

theorem assignmentRule_recognizes {assignment chain : Parser Node}
    (ha : Recognizes .expression assignment) (hchain : Recognizes (.chain .or) chain) :
    Recognizes .expression (assignmentRule assignment chain) := by
  intro c n next h hc
  unfold assignmentRule at h
  obtain ⟨target, c₁, r₁, k₁⟩ := bind_done h
  obtain ⟨ts, rfl, htarget⟩ := hchain r₁ hc
  obtain ⟨o, c₂, r₂, k₂⟩ := bind_done k₁
  obtain ⟨equals, rfl, heq, rfl⟩ | ⟨rfl, rfl, -⟩ := accept?_done r₂ hc (by decide)
  · obtain ⟨value, c₃, r₃, k₃⟩ := bind_done k₂
    obtain ⟨us, rfl, hvalue⟩ := ha r₃ hc
    split at k₃
    · rename_i token
      obtain ⟨rfl, rfl⟩ := pure_done k₃
      obtain ⟨rfl, ht⟩ := htarget.eq_of_name rfl
      exact ⟨token :: equals :: us, rfl, .assigned ht (by simpa using heq) hvalue⟩
    · -- the target is reported
      obtain ⟨_, c₄, r₄, -⟩ := bind_done k₃
      cases r₄
  · obtain ⟨rfl, rfl⟩ := pure_done k₂
    exact ⟨ts, rfl, .value htarget⟩

-- Where a keyword has been read before a rule, the phrase is the rule's with the keyword in front.
theorem varDeclaration_recognizes (he : Recognizes .expression expression)
    (h : varDeclaration expression c = .done n next []) (hc : c.Closed) :
    ∃ ts, c = next.before ts ∧
      ∀ kw : Token, kw.kind = .kwVar → Phrase true .binding (kw :: ts) n := by
  unfold varDeclaration at h
  obtain ⟨target, c₁, r₁, k₁⟩ := bind_done h
  obtain ⟨ht, rfl⟩ := expect_done r₁ hc (by decide)
  obtain ⟨equals, c₂, heq, rfl, k₂⟩ | ⟨-, k₂⟩ := accept_done k₁ hc (by decide)
  · obtain ⟨initial, c₃, r₃, k₃⟩ := bind_done k₂
    obtain ⟨ts, rfl, hinitial⟩ := he r₃ hc
    obtain ⟨semi, c₄, r₄, k₄⟩ := bind_done k₃
    obtain ⟨hsemi, rfl⟩ := expect_done r₄ hc (by decide)
    obtain ⟨rfl, rfl⟩ := pure_done k₄
    exact ⟨target :: equals :: (ts ++ [semi]), by simp [Cursor.before],
      fun kw hkw => .set hkw ht heq hinitial hsemi⟩
  · obtain ⟨initial, c₃, r₃, k₃⟩ := bind_done k₂
    obtain ⟨rfl, rfl⟩ := pure_done r₃
    obtain ⟨semi, c₄, r₄, k₄⟩ := bind_done k₃
    obtain ⟨hsemi, rfl⟩ := expect_done r₄ hc (by decide)
    obtain ⟨rfl, rfl⟩ := pure_done k₄
    exact ⟨[target, semi], rfl, fun kw hkw => .unset hkw ht hsemi⟩

theorem expressionStatement_recognizes (he : Recognizes .expression expression) :
    Recognizes .simple (expressionStatement expression) := by
  intro c n next h hc
  unfold expressionStatement at h
  obtain ⟨value, c₁, r₁, k₁⟩ := bind_done h
  obtain ⟨ts, rfl, hvalue⟩ := he r₁ hc
  obtain ⟨semi, c₂, r₂, k₂⟩ := bind_done k₁
  obtain ⟨hsemi, rfl⟩ := expect_done r₂ hc (by decide)
  obtain ⟨rfl, rfl⟩ := pure_done k₂
  exact ⟨ts ++ [semi], by simp [Cursor.before], .simple hvalue hsemi⟩

theorem declarations_recognizes (hd : Recognizes .declaration declaration) {turns : List Token}
    {ns : List Node} (h : declarations declaration turns c = .done ns next []) (hc : c.Closed) :
    ∃ ts, c = next.before ts ∧ Phrase true .declarations ts (.list ns) := by
  induction turns generalizing ns c next with
  | nil =>
    obtain ⟨rfl, rfl⟩ := pure_done h
    exact ⟨[], rfl, .none⟩
  | cons turn turns ih =>
    unfold declarations at h
    obtain ⟨-, k₁⟩ | ⟨-, k₁⟩ := check_done h
    · obtain ⟨rfl, rfl⟩ := pure_done k₁
      exact ⟨[], rfl, .none⟩
    obtain ⟨-, k₂⟩ | ⟨-, k₂⟩ := check_done k₁
    · obtain ⟨rfl, rfl⟩ := pure_done k₂
      exact ⟨[], rfl, .none⟩
    obtain ⟨first, c₃, r₃, k₃⟩ := bind_done k₂
    obtain ⟨ts, rfl, hfirst⟩ := hd r₃ hc
    obtain ⟨rest, c₄, r₄, k₄⟩ := bind_done k₃
    obtain ⟨us, rfl, hrest⟩ := ih r₄ hc
    obtain ⟨rfl, rfl⟩ := pure_done k₄
    exact ⟨ts ++ us, by simp [Cursor.before], .more hfirst hrest⟩

theorem block_recognizes (hd : Recognizes .declaration declaration) {ns : List Node}
    (h : block declaration c = .done ns next []) (hc : c.Closed) :
    ∃ ts r, c = next.before (ts ++ [r]) ∧ Phrase true .declarations ts (.list ns) ∧
      r.kind = .rightBrace := by
  unfold block at h
  obtain ⟨statements, c₁, r₁, k₁⟩ := bind_done h
  obtain ⟨ts, rfl, hstatements⟩ := declarations_recognizes hd r₁ hc
  obtain ⟨r, c₂, r₂, k₂⟩ := bind_done k₁
  obtain ⟨hr, rfl⟩ := expect_done r₂ hc (by decide)
  obtain ⟨rfl, rfl⟩ := pure_done k₂
  exact ⟨ts, r, by simp [Cursor.before], hstatements, hr⟩

theorem functionRest_recognizes (hd : Recognizes .declaration declaration) {target l : Token}
    {params : List Token}
    (h : (do
      let _ ← expect .rightParen "')' after parameters"
      let _ ← expect .leftBrace "'\x7b' before function body"
      return .function target params (← block declaration) : Parser Node) c = .done n next [])
    (hc : c.Closed) (ht : target.kind = .identifier) (hl : l.kind = .leftParen)
    (hlen : params.length ≤ maxArguments) :
    ∃ us, c = next.before us ∧ ∀ (kw : Token) (ps : List Token), kw.kind = .kwFun →
      Parameters ps params → Phrase true .declaration (kw :: target :: l :: (ps ++ us)) n := by
  obtain ⟨r, c₁, r₁, k₁⟩ := bind_done h
  obtain ⟨hr, rfl⟩ := expect_done r₁ hc (by decide)
  obtain ⟨lb, c₂, r₂, k₂⟩ := bind_done k₁
  obtain ⟨hlb, rfl⟩ := expect_done r₂ hc (by decide)
  obtain ⟨body, c₃, r₃, k₃⟩ := bind_done k₂
  obtain ⟨ts, rb, rfl, hbody, hrb⟩ := block_recognizes hd r₃ hc
  obtain ⟨rfl, rfl⟩ := pure_done k₃
  exact ⟨r :: lb :: (ts ++ [rb]), by simp [Cursor.before],
    fun kw ps hkw hps => .function hkw ht hl hps hlen hr hlb hbody hrb⟩

theorem functionDeclaration_recognizes (hd : Recognizes .declaration declaration)
    (h : functionDeclaration declaration c = .done n next []) (hc : c.Closed) :
    ∃ ts, c = next.before ts ∧
      ∀ kw : Token, kw.kind = .kwFun → Phrase true .declaration (kw :: ts) n := by
  unfold functionDeclaration at h
  obtain ⟨target, c₁, r₁, k₁⟩ := bind_done h
  obtain ⟨ht, rfl⟩ := expect_done r₁ hc (by decide)
  obtain ⟨l, c₂, r₂, k₂⟩ := bind_done k₁
  obtain ⟨hl, rfl⟩ := expect_done r₂ hc (by decide)
  obtain ⟨-, k₃⟩ | ⟨-, k₃⟩ := check_done k₂
  · obtain ⟨params, c₄, r₄, k₄⟩ := bind_done k₃
    obtain ⟨rfl, rfl⟩ := pure_done r₄
    obtain ⟨us, rfl, hn⟩ := functionRest_recognizes hd k₄ hc ht hl (by simp)
    exact ⟨target :: l :: us, rfl, fun kw hkw => hn kw [] hkw (.inl ⟨rfl, rfl⟩)⟩
  · obtain ⟨params, c₄, r₄, k₄⟩ := bind_done k₃
    obtain ⟨ps, rfl, hnames, hlen⟩ := parameters_recognizes r₄ hc
    obtain ⟨us, rfl, hn⟩ := functionRest_recognizes hd k₄ hc ht hl (by simpa using hlen)
    exact ⟨target :: l :: (ps ++ us), by simp [Cursor.before],
      fun kw hkw => hn kw ps hkw (.inr hnames)⟩

theorem printStatement_recognizes (he : Recognizes .expression expression)
    (h : printStatement expression c = .done n next []) (hc : c.Closed) :
    ∃ ts, c = next.before ts ∧
      ∀ kw : Token, kw.kind = .kwPrint → Phrase true (.statement false) (kw :: ts) n := by
  unfold printStatement at h
  obtain ⟨value, c₁, r₁, k₁⟩ := bind_done h
  obtain ⟨ts, rfl, hvalue⟩ := he r₁ hc
  obtain ⟨semi, c₂, r₂, k₂⟩ := bind_done k₁
  obtain ⟨hsemi, rfl⟩ := expect_done r₂ hc (by decide)
  obtain ⟨rfl, rfl⟩ := pure_done k₂
  exact ⟨ts ++ [semi], by simp [Cursor.before], fun kw hkw => .print hkw hvalue hsemi⟩

theorem ifStatement_recognizes (he : Recognizes .expression expression)
    (hs : RecognizesStatements statement)
    (h : ifStatement expression statement c = .done n next []) (hc : c.Closed) :
    ∃ o ts, c = next.before ts ∧
      (∀ kw : Token, kw.kind = .kwIf → Phrase true (.statement o) (kw :: ts) n) ∧
      (o = true → next.peek.kind ≠ .kwElse) := by
  unfold ifStatement at h
  obtain ⟨l, c₁, r₁, k₁⟩ := bind_done h
  obtain ⟨hl, rfl⟩ := expect_done r₁ hc (by decide)
  obtain ⟨condition, c₂, r₂, k₂⟩ := bind_done k₁
  obtain ⟨ts, rfl, hcondition⟩ := he r₂ hc
  obtain ⟨r, c₃, r₃, k₃⟩ := bind_done k₂
  obtain ⟨hr, rfl⟩ := expect_done r₃ hc (by decide)
  obtain ⟨thenBranch, c₄, r₄, k₄⟩ := bind_done k₃
  obtain ⟨inner, us, rfl, hthen, hopen⟩ := hs r₄ hc
  obtain ⟨otherwise, c₅, helse, rfl, k₅⟩ | ⟨hno, k₅⟩ := accept_done k₄ hc (by decide)
  · -- an open branch would have taken this `else`
    have hinner : inner = false := by
      cases inner with
      | false => rfl
      | true => exact absurd helse (hopen rfl)
    obtain ⟨elseBranch, c₆, r₆, k₆⟩ := bind_done k₅
    obtain ⟨o, vs, rfl, helseBranch, hopen'⟩ := hs r₆ hc
    obtain ⟨rfl, rfl⟩ := pure_done k₆
    refine ⟨o, l :: (ts ++ r :: (us ++ otherwise :: vs)), ?_, fun kw hkw => ?_, hopen'⟩
    · simp [Cursor.before]
    · exact .ifElse hkw hl hcondition hr hthen (fun _ => hinner) helse helseBranch
  · obtain ⟨elseBranch, c₆, r₆, k₆⟩ := bind_done k₅
    obtain ⟨rfl, rfl⟩ := pure_done r₆
    obtain ⟨rfl, rfl⟩ := pure_done k₆
    refine ⟨true, l :: (ts ++ r :: us), ?_, fun kw hkw => ?_, fun _ => hno⟩
    · simp [Cursor.before]
    · exact .ifOnly hkw hl hcondition hr hthen

theorem whileStatement_recognizes (he : Recognizes .expression expression)
    (hs : RecognizesStatements statement)
    (h : whileStatement expression statement c = .done n next []) (hc : c.Closed) :
    ∃ o ts, c = next.before ts ∧
      (∀ kw : Token, kw.kind = .kwWhile → Phrase true (.statement o) (kw :: ts) n) ∧
      (o = true → next.peek.kind ≠ .kwElse) := by
  unfold whileStatement at h
  obtain ⟨l, c₁, r₁, k₁⟩ := bind_done h
  obtain ⟨hl, rfl⟩ := expect_done r₁ hc (by decide)
  obtain ⟨condition, c₂, r₂, k₂⟩ := bind_done k₁
  obtain ⟨ts, rfl, hcondition⟩ := he r₂ hc
  obtain ⟨r, c₃, r₃, k₃⟩ := bind_done k₂
  obtain ⟨hr, rfl⟩ := expect_done r₃ hc (by decide)
  obtain ⟨body, c₄, r₄, k₄⟩ := bind_done k₃
  obtain ⟨o, us, rfl, hbody, hopen⟩ := hs r₄ hc
  obtain ⟨rfl, rfl⟩ := pure_done k₄
  exact ⟨o, l :: (ts ++ r :: us), by simp [Cursor.before],
    fun kw hkw => .loop hkw hl hcondition hr hbody, hopen⟩

theorem forInitializer_recognizes (he : Recognizes .expression expression) :
    Recognizes .initializer (forInitializer expression) := by
  intro c n next h hc
  unfold forInitializer at h
  obtain ⟨semi, c₁, hsemi, rfl, k₁⟩ | ⟨-, k₁⟩ := accept_done h hc (by decide)
  · obtain ⟨rfl, rfl⟩ := pure_done k₁
    exact ⟨[semi], rfl, .noInitializer hsemi⟩
  obtain ⟨kw, c₂, hkw, rfl, k₂⟩ | ⟨-, k₂⟩ := accept_done k₁ hc (by decide)
  · obtain ⟨ts, rfl, hn⟩ := varDeclaration_recognizes he k₂ hc
    exact ⟨kw :: ts, rfl, .boundInitializer (hn kw hkw)⟩
  · obtain ⟨ts, rfl, hn⟩ := expressionStatement_recognizes he k₂ hc
    exact ⟨ts, rfl, .simpleInitializer hn⟩

theorem clause_done {close : Kind} {implied : Datum → Node} {what : String} {go : Node → Parser Node}
    (he : Recognizes .expression expression)
    (h : clause close implied what expression go c = .done n next []) (hc : c.Closed)
    (hk : close ≠ .eof) :
    ∃ ts t x mid, c = mid.before (ts ++ [t]) ∧ t.kind = close ∧
      ((ts = [] ∧ x = implied t.line) ∨ Phrase true .expression ts x) ∧
      go x mid = .done n next [] := by
  unfold clause at h
  obtain ⟨-, k₁⟩ | ⟨-, k₁⟩ := check_done h
  · obtain ⟨t, c₂, r₂, k₂⟩ := bind_done k₁
    cases r₂
    obtain ⟨x, c₃, r₃, k₃⟩ := bind_done k₂
    obtain ⟨rfl, rfl⟩ := pure_done r₃
    obtain ⟨t, c₄, r₄, k₄⟩ := bind_done k₃
    obtain ⟨ht, rfl⟩ := expect_done r₄ hc hk
    exact ⟨[], t, _, c₄, rfl, ht, .inl ⟨rfl, rfl⟩, k₄⟩
  · obtain ⟨x, c₂, r₂, k₂⟩ := bind_done k₁
    obtain ⟨ts, rfl, hx⟩ := he r₂ hc
    obtain ⟨t, c₃, r₃, k₃⟩ := bind_done k₂
    obtain ⟨ht, rfl⟩ := expect_done r₃ hc hk
    exact ⟨ts, t, x, c₃, by simp [Cursor.before], ht, .inr hx, k₃⟩

theorem forStatement_recognizes (he : Recognizes .expression expression)
    (hs : RecognizesStatements statement)
    (h : forStatement expression statement c = .done n next []) (hc : c.Closed) :
    ∃ o ts, c = next.before ts ∧
      (∀ kw : Token, kw.kind = .kwFor → Phrase true (.statement o) (kw :: ts) n) ∧
      (o = true → next.peek.kind ≠ .kwElse) := by
  rw [forStatement_eq] at h
  obtain ⟨l, c₁, r₁, k₁⟩ := bind_done h
  obtain ⟨hl, rfl⟩ := expect_done r₁ hc (by decide)
  obtain ⟨initializer, c₂, r₂, k₂⟩ := bind_done k₁
  obtain ⟨is, rfl, hinitializer⟩ := forInitializer_recognizes he r₂ hc
  obtain ⟨cs, semi, condition, c₃, rfl, hsemi, hcondition, k₃⟩ := clause_done he k₂ hc (by decide)
  obtain ⟨ns, r, increment, c₄, rfl, hr, hincrement, k₄⟩ := clause_done he k₃ hc (by decide)
  obtain ⟨body, c₅, r₅, k₅⟩ := bind_done k₄
  obtain ⟨o, us, rfl, hbody, hopen⟩ := hs r₅ hc
  obtain ⟨rfl, rfl⟩ := pure_done k₅
  have hcs : Phrase true .condition (cs ++ [semi]) condition := by
    obtain ⟨rfl, rfl⟩ | hcondition := hcondition
    · exact .noCondition hsemi
    · exact .someCondition hcondition hsemi
  have hns : Phrase true .increment (ns ++ [r]) increment := by
    obtain ⟨rfl, rfl⟩ | hincrement := hincrement
    · exact .noIncrement hr
    · exact .someIncrement hincrement hr
  exact ⟨o, l :: (is ++ ((cs ++ [semi]) ++ ((ns ++ [r]) ++ us))), by simp [Cursor.before],
    fun kw hkw => .counted hkw hl hinitializer hcs hns hbody, hopen⟩

theorem statementRule_recognizes (hd : Recognizes .declaration declaration)
    (hs : RecognizesStatements statement) (he : Recognizes .expression expression) :
    RecognizesStatements (statementRule declaration statement expression) := by
  intro c n next h hc
  unfold statementRule at h
  obtain ⟨kw, c₁, hkw, rfl, k₁⟩ | ⟨-, k₁⟩ := accept_done h hc (by decide)
  · obtain ⟨o, ts, rfl, hn, hopen⟩ := ifStatement_recognizes he hs k₁ hc
    exact ⟨o, kw :: ts, rfl, hn kw hkw, hopen⟩
  obtain ⟨kw, c₂, hkw, rfl, k₂⟩ | ⟨-, k₂⟩ := accept_done k₁ hc (by decide)
  · obtain ⟨ts, rfl, hn⟩ := printStatement_recognizes he k₂ hc
    exact ⟨false, kw :: ts, rfl, hn kw hkw, by simp⟩
  obtain ⟨kw, c₃, hkw, rfl, k₃⟩ | ⟨-, k₃⟩ := accept_done k₂ hc (by decide)
  · obtain ⟨o, ts, rfl, hn, hopen⟩ := whileStatement_recognizes he hs k₃ hc
    exact ⟨o, kw :: ts, rfl, hn kw hkw, hopen⟩
  obtain ⟨kw, c₄, hkw, rfl, k₄⟩ | ⟨-, k₄⟩ := accept_done k₃ hc (by decide)
  · obtain ⟨o, ts, rfl, hn, hopen⟩ := forStatement_recognizes he hs k₄ hc
    exact ⟨o, kw :: ts, rfl, hn kw hkw, hopen⟩
  obtain ⟨l, c₅, hl, rfl, k₅⟩ | ⟨-, k₅⟩ := accept_done k₄ hc (by decide)
  · obtain ⟨statements, c₆, r₆, k₆⟩ := bind_done k₅
    obtain ⟨ts, r, rfl, hstatements, hr⟩ := block_recognizes hd r₆ hc
    obtain ⟨rfl, rfl⟩ := pure_done k₆
    exact ⟨false, l :: (ts ++ [r]), rfl, .block hl hstatements hr, by simp⟩
  · obtain ⟨ts, rfl, hn⟩ := expressionStatement_recognizes he k₅ hc
    exact ⟨false, ts, rfl, .plain hn, by simp⟩

theorem declarationRule_recognizes (hd : Recognizes .declaration declaration)
    (hs : RecognizesStatements statement) (he : Recognizes .expression expression) :
    Recognizes .declaration (declarationRule declaration statement expression) := by
  intro c n next h hc
  unfold declarationRule at h
  obtain ⟨kw, c₁, hkw, rfl, k₁⟩ | ⟨-, k₁⟩ := accept_done h hc (by decide)
  · obtain ⟨ts, rfl, hn⟩ := functionDeclaration_recognizes hd k₁ hc
    exact ⟨kw :: ts, rfl, hn kw hkw⟩
  obtain ⟨kw, c₂, hkw, rfl, k₂⟩ | ⟨-, k₂⟩ := accept_done k₁ hc (by decide)
  · obtain ⟨ts, rfl, hn⟩ := varDeclaration_recognizes he k₂ hc
    exact ⟨kw :: ts, rfl, .bound (hn kw hkw)⟩
  · obtain ⟨o, ts, rfl, hn, -⟩ := hs k₂ hc
    exact ⟨ts, rfl, .statement hn⟩

structure RecognizesAt (depth : Nat) : Prop where
  declaration : Recognizes .declaration (Grammar.declaration depth)
  statement : RecognizesStatements (Grammar.statement depth)
  expression : Recognizes .expression (Grammar.expression depth)
  chain (level : Level) : Recognizes (.chain level) (Grammar.chain level depth)
  unary : Recognizes .unary (Grammar.unary depth)
  call : Recognizes .call (Grammar.call depth)
  primary : Recognizes .primary (Grammar.primary depth)

theorem recognizesAt (depth : Nat) : RecognizesAt depth := by
  induction depth with
  | zero =>
    constructor
    case statement =>
      intro c n next h _
      cases h
    all_goals intros; exact recognizes_tooDeep _
  | succ d ih =>
    constructor
    case declaration => exact declarationRule_recognizes ih.declaration ih.statement ih.expression
    case statement => exact statementRule_recognizes ih.declaration ih.statement ih.expression
    case expression => exact assignmentRule_recognizes ih.expression (ih.chain .or)
    case chain =>
      intro level
      refine chainRule_recognizes ?_
      cases level with
      | factor => exact ih.unary
      | _ => exact ih.chain _
    case unary => exact unaryRule_recognizes ih.unary ih.call
    case call => exact callRule_recognizes ih.expression ih.primary
    case primary => exact primaryRule_recognizes ih.expression

/-- A program that is read without an error to the end is the one its tokens stand for. -/
theorem programFrom_recognizes {depth : Nat} {turns : List Token}
    (h : (programFrom depth turns c).errors = []) (hc : c.Closed)
    (hturns : c.rest.length ≤ turns.length) :
    Denotes c.rest (programFrom depth turns c).statements := by
  induction turns generalizing c with
  | nil =>
    have hrest : c.rest = [] := List.length_eq_zero_iff.1 (Nat.le_zero.1 hturns)
    rw [hrest]
    exact .none
  | cons turn turns ih =>
    unfold programFrom at h ⊢
    by_cases hend : c.atEnd = true
    · rw [if_pos hend, List.isEmpty_iff.1 hend]
      exact .none
    · rw [if_neg hend] at h ⊢
      cases hd : Grammar.declaration depth c with
      | tooDeep stop errors => simp [hd] at h
      | done first mid errors =>
        simp only [hd, List.append_eq_nil_iff] at h ⊢
        obtain ⟨rfl, herrors⟩ := h
        obtain ⟨ts, rfl, hfirst⟩ := (recognizesAt depth).declaration hd hc
        obtain ⟨t, us, rfl, -⟩ := hfirst.startsWith (by decide)
        have hmid : mid.rest.length ≤ turns.length := by
          simp at hturns
          omega
        exact .more hfirst (ih herrors hc hmid)

theorem parse_recognizes {depth : Nat} {tokens : List Token} {last : Token}
    (hlast : last.kind = .eof) (h : (parse depth tokens last).errors = []) :
    Denotes tokens (parse depth tokens last).statements :=
  programFrom_recognizes (c := ⟨tokens, last⟩) h hlast (Nat.le_refl _)

end Lox.Grammar
