import Lox.Datum

/-!
Tokens as trees hold them. A tree may come from a file that promises nothing about the lexeme,
the line and the literal of a token, so these are data; for a token from source text the lexeme
is a text and the line a whole number. Of two equal lists in a file each is its own, so a token
with such a literal also knows its place in the file. What is wrong with a text is said about
tokens and lines, in diagnostics that a reporter keeps until it is cleared.
-/
namespace Lox

inductive Kind where
  | leftParen | rightParen | leftBrace | rightBrace | comma | dot | minus | plus | semicolon
  | slash | star
  | bang | bangEqual | equal | equalEqual | greater | greaterEqual | less | lessEqual
  | identifier | string | number
  | kwAnd | kwClass | kwElse | kwFalse | kwFun | kwFor | kwIf | kwNil | kwOr | kwPrint | kwReturn
  | kwSuper | kwThis | kwTrue | kwVar | kwWhile
  | eof
  deriving DecidableEq

namespace Kind

def all : List Kind :=
  [.leftParen, .rightParen, .leftBrace, .rightBrace, .comma, .dot, .minus, .plus, .semicolon,
    .slash, .star, .bang, .bangEqual, .equal, .equalEqual, .greater, .greaterEqual, .less,
    .lessEqual, .identifier, .string, .number, .kwAnd, .kwClass, .kwElse, .kwFalse, .kwFun,
    .kwFor, .kwIf, .kwNil, .kwOr, .kwPrint, .kwReturn, .kwSuper, .kwThis, .kwTrue, .kwVar,
    .kwWhile, .eof]

def name : Kind → String
  | .leftParen => "LEFT_PAREN"
  | .rightParen => "RIGHT_PAREN"
  | .leftBrace => "LEFT_BRACE"
  | .rightBrace => "RIGHT_BRACE"
  | .comma => "COMMA"
  | .dot => "DOT"
  | .minus => "MINUS"
  | .plus => "PLUS"
  | .semicolon => "SEMICOLON"
  | .slash => "SLASH"
  | .star => "STAR"
  | .bang => "BANG"
  | .bangEqual => "BANG_EQUAL"
  | .equal => "EQUAL"
  | .equalEqual => "EQUAL_EQUAL"
  | .greater => "GREATER"
  | .greaterEqual => "GREATER_EQUAL"
  | .less => "LESS"
  | .lessEqual => "LESS_EQUAL"
  | .identifier => "IDENTIFIER"
  | .string => "STRING"
  | .number => "NUMBER"
  | .kwAnd => "AND"
  | .kwClass => "CLASS"
  | .kwElse => "ELSE"
  | .kwFalse => "FALSE"
  | .kwFun => "FUN"
  | .kwFor => "FOR"
  | .kwIf => "IF"
  | .kwNil => "NIL"
  | .kwOr => "OR"
  | .kwPrint => "PRINT"
  | .kwReturn => "RETURN"
  | .kwSuper => "SUPER"
  | .kwThis => "THIS"
  | .kwTrue => "TRUE"
  | .kwVar => "VAR"
  | .kwWhile => "WHILE"
  | .eof => "EOF"

def ofName? (name : String) : Option Kind := all.find? (·.name == name)

def reserved : List (String × Kind) :=
  [("and", .kwAnd), ("class", .kwClass), ("else", .kwElse), ("false", .kwFalse), ("fun", .kwFun),
    ("for", .kwFor), ("if", .kwIf), ("nil", .kwNil), ("or", .kwOr), ("print", .kwPrint),
    ("return", .kwReturn), ("super", .kwSuper), ("this", .kwThis), ("true", .kwTrue),
    ("var", .kwVar), ("while", .kwWhile)]

def ofWord (word : String) : Kind := (reserved.lookup word).getD .identifier

theorem ofName?_name (k : Kind) : ofName? k.name = some k := by cases k <;> decide

end Kind

structure Token where
  kind : Kind
  lexeme : Datum
  line : Datum
  literal : Datum := .null
  /-- Where the token stands in its file; empty if that makes no difference. -/
  place : Place := []
  deriving DecidableEq

namespace Token

/-- A token that stands in for one that was left out, on the line of its neighbour. -/
def implied (kind : Kind) (lexeme : String) (line : Datum) : Token :=
  { kind, lexeme := .str lexeme, line }

def text (t : Token) : Text := t.kind.name ++ " " ++ t.lexeme.text

def location (t : Token) : Text :=
  if t.kind = .eof then " at end" else " at '" ++ t.lexeme.text ++ "'"

end Token

structure Diagnostic where
  line : Datum
  location : Text
  message : Text
  deriving DecidableEq

namespace Diagnostic

def text (d : Diagnostic) : Text :=
  "[line " ++ d.line.text ++ "] Error" ++ d.location ++ ": " ++ d.message

def atToken (t : Token) (message : Text) : Diagnostic := ⟨t.line, t.location, message⟩

def atLine (line : Datum) (message : Text) : Diagnostic := ⟨line, "", message⟩

def written (ds : List Diagnostic) : Text := Text.join (ds.map fun d => d.text ++ "\n")

end Diagnostic

structure Reporter where
  held : List Diagnostic := []

namespace Reporter

def report (r : Reporter) (ds : List Diagnostic) : Reporter := ⟨r.held ++ ds⟩

def clear (_ : Reporter) : Reporter := ⟨[]⟩

end Reporter

end Lox
