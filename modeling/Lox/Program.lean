import Lox.Grammar.Parse
import Lox.Lexeme.Scan

/-!
Programs from source text. A text is rejected if scanning reports anything, and otherwise if
parsing does; its diagnostics are those of the stage that rejected it.
-/
namespace Lox

inductive Stage where
  | lexing
  | parsing
  deriving DecidableEq

namespace Stage

def name : Stage → String
  | .lexing => "lexing"
  | .parsing => "parsing"

def message (s : Stage) : String := "Aborting due to error while " ++ s.name ++ "."

end Stage

structure Rejection where
  stage : Stage
  errors : List Diagnostic

namespace Scan

/-- Parses the tokens of a scan, whether or not it found errors. -/
def parse (s : Scan) : Grammar.Parse := Grammar.parse Grammar.maxDepth s.tokens s.endToken

def program (s : Scan) : Except Rejection (List Node) :=
  if s.errors.isEmpty then
    let p := s.parse
    if p.errors.isEmpty then .ok p.statements
    else .error ⟨.parsing, p.errors.map SyntaxError.diagnostic⟩
  else .error ⟨.lexing, s.errors.map LexicalError.diagnostic⟩

end Scan

def program (source : List Char) : Except Rejection (List Node) := (scan source).program

/-- The program of a source text, with a reporter that takes in what is wrong with it. Tokens are
not parsed if scanning reported anything. A rejection tells of all that the reporter holds, also
from earlier texts. -/
def Reporter.program (r : Reporter) (source : List Char) :
    Reporter × Except Rejection (List Node) :=
  let scanned := scan source
  let r := r.report (scanned.errors.map LexicalError.diagnostic)
  if scanned.errors.isEmpty then
    let parsed := scanned.parse
    let r := r.report (parsed.errors.map SyntaxError.diagnostic)
    if parsed.errors.isEmpty then (r, .ok parsed.statements) else (r, .error ⟨.parsing, r.held⟩)
  else (r, .error ⟨.lexing, r.held⟩)

end Lox
