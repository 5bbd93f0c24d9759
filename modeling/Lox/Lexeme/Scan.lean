import Lox.Lexeme.Piece
import Lox.Token

/-!
Scanning: the lexemes of a source text, and an error for each piece of it that is none. The line of
either is one more than the number of line feeds up to the end of its piece. What a token says
beyond kind and line follows from the text of its lexeme: an identifier has its name, a string
what stands between the quotes, and a number its value.
-/
namespace Lox

structure Lexeme where
  kind : Kind
  text : List Char
  line : Nat
  deriving DecidableEq

namespace Lexeme

def inner (text : List Char) : List Char := (text.drop 1).dropLast

def numberValue (text : List Char) : Number :=
  let (whole, r) := spanDigits text
  Number.ofDecimal false (Decimal.ofDigits whole (r.drop 1) 0)

def literal (kind : Kind) (text : List Char) : Datum :=
  match kind with
  | .identifier => .str (Text.ofChars text)
  | .string => .str (Text.ofChars (inner text))
  | .number => .num (numberValue text)
  | _ => .null

def token (l : Lexeme) : Token where
  kind := l.kind
  lexeme := .str (Text.ofChars l.text)
  line := .int l.line
  literal := literal l.kind l.text

end Lexeme

def Token.endOfFile (line : Nat) : Token := { kind := .eof, lexeme := .str "", line := .int line }

inductive LexicalError where
  | stray (text : List Char) (line : Nat)
  | openString (line : Nat)
  deriving DecidableEq

namespace LexicalError

def line : LexicalError → Nat
  | .stray _ line | .openString line => line

def message : LexicalError → String
  | .stray text _ => "Unexpected character: " ++ String.ofList text ++ "."
  | .openString _ => "Unterminated string."

def diagnostic (e : LexicalError) : Diagnostic := Diagnostic.atLine (.int e.line) e.message

end LexicalError

structure Scan where
  lexemes : List Lexeme
  errors : List LexicalError
  endLine : Nat

namespace Scan

def add (p : Piece) (line : Nat) (rest : Scan) : Scan :=
  match p.form with
  | .lexeme kind => { rest with lexemes := ⟨kind, p.text, line⟩ :: rest.lexemes }
  | .stray => { rest with errors := .stray p.text line :: rest.errors }
  | .openString => { rest with errors := .openString line :: rest.errors }
  | .blank | .newline | .comment => rest

def ofPieces (line : Nat) : List Piece → Scan
  | [] => ⟨[], [], line⟩
  | p :: rest => add p (line + p.text.count '\n') (ofPieces (line + p.text.count '\n') rest)

/-- The tokens without the last one. -/
def tokens (s : Scan) : List Token := s.lexemes.map Lexeme.token

def endToken (s : Scan) : Token := Token.endOfFile s.endLine

end Scan

def scan (source : List Char) : Scan := Scan.ofPieces 1 (Piece.all source)

end Lox
