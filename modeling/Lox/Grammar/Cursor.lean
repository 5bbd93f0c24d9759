import Lox.Token

/-!
A parser reads tokens through a cursor and collects errors. It never fails for a missing token:
it reports and goes on. The one way to stop early is to nest too deeply, and then the cursor and
the errors so far are kept.
-/
namespace Lox

inductive Problem where
  | expected (what : String)
  | invalidTarget
  | tooManyParameters
  | tooManyArguments
  | nestedTooDeeply
  deriving DecidableEq

def Problem.message : Problem → String
  | .expected what => "Expect " ++ what ++ "."
  | .invalidTarget => "Invalid assignment target."
  | .tooManyParameters => "Can't have more than 255 parameters."
  | .tooManyArguments => "Can't have more than 255 arguments."
  | .nestedTooDeeply => "Expression nested too deeply."

structure SyntaxError where
  token : Token
  problem : Problem
  deriving DecidableEq

def SyntaxError.diagnostic (e : SyntaxError) : Diagnostic :=
  Diagnostic.atToken e.token e.problem.message

/-- The tokens still to be read, and the one that stands after all of them. -/
structure Cursor where
  rest : List Token
  last : Token

namespace Cursor

/-- The next token; at the end, the last one. -/
def peek (c : Cursor) : Token := c.rest.headD c.last

def atEnd (c : Cursor) : Bool := c.rest.isEmpty

/-- The cursor after the next token; at the end it stays. -/
def advance (c : Cursor) : Cursor := { c with rest := c.rest.tail }

end Cursor

inductive Parsed (α : Type) where
  | done (value : α) (next : Cursor) (errors : List SyntaxError)
  | tooDeep (next : Cursor) (errors : List SyntaxError)

def Parser (α : Type) : Type := Cursor → Parsed α

namespace Parser

def after {α : Type} (earlier : List SyntaxError) : Parsed α → Parsed α
  | .done a c errors => .done a c (earlier ++ errors)
  | .tooDeep c errors => .tooDeep c (earlier ++ errors)

@[always_inline, inline]
protected def pure {α : Type} (a : α) : Parser α := fun c => .done a c []

@[always_inline, inline]
protected def bind {α β : Type} (p : Parser α) (f : α → Parser β) : Parser β := fun c =>
  match p c with
  | .done a c errors => after errors (f a c)
  | .tooDeep c errors => .tooDeep c errors

instance : Monad Parser where
  pure := Parser.pure
  bind := Parser.bind

@[simp] theorem after_nil {α : Type} (r : Parsed α) : after [] r = r := by cases r <;> rfl

@[simp] theorem after_after {α : Type} (first second : List SyntaxError) (r : Parsed α) :
    after first (after second r) = after (first ++ second) r := by
  cases r <;> simp [after]

theorem bind_of_done {α β : Type} {p : Parser α} {f : α → Parser β} {c next : Cursor} {a : α}
    {errors : List SyntaxError} (h : p c = .done a next errors) :
    (p >>= f) c = after errors (f a next) := by
  simp only [Bind.bind, Parser.bind, h]

theorem bind_of_tooDeep {α β : Type} {p : Parser α} {f : α → Parser β} {c next : Cursor}
    {errors : List SyntaxError} (h : p c = .tooDeep next errors) :
    (p >>= f) c = .tooDeep next errors := by
  simp only [Bind.bind, Parser.bind, h]

def tooDeep {α : Type} : Parser α := fun c => .tooDeep c []

def peek : Parser Token := fun c => .done c.peek c []

def check (kind : Kind) : Parser Bool := fun c => .done (decide (c.peek.kind = kind)) c []

def skip : Parser Unit := fun c => .done () c.advance []

def report (t : Token) (problem : Problem) : Parser Unit := fun c => .done () c [⟨t, problem⟩]

def accept? (kinds : List Kind) : Parser (Option Token) := fun c =>
  if c.peek.kind ∈ kinds then .done (some c.peek) c.advance [] else .done none c []

def accept (kind : Kind) : Parser Bool := return (← accept? [kind]).isSome

/-- Takes a token of the kind. If another one is next, that one is reported, stays where it is
and serves as the result. -/
def expect (kind : Kind) (what : String) : Parser Token := fun c =>
  if c.peek.kind = kind then .done c.peek c.advance []
  else .done c.peek c [⟨c.peek, .expected what⟩]

/-- Runs a loop that may take as many turns as there are tokens left. -/
def bounded {α : Type} (loop : List Token → Parser α) : Parser α := fun c => loop c.rest c

end Parser

end Lox
