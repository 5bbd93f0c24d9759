import Lox.Number.Numeral
import Lox.Token

/-!
The pieces of source text. The text is cut from left to right into blanks, line ends, comments,
lexemes, characters that start nothing, and at most one string that is never closed. No character
is lost, and each piece is as long as its form allows.
-/
namespace Lox

inductive Piece.Form where
  | blank
  | newline
  | comment
  | lexeme (kind : Kind)
  | stray
  | openString
  deriving DecidableEq

structure Piece where
  form : Piece.Form
  text : List Char
  deriving DecidableEq

namespace Piece

def symbol? (c : Char) : Option Kind :=
  match c with
  | '(' => some .leftParen
  | ')' => some .rightParen
  | '{' => some .leftBrace
  | '}' => some .rightBrace
  | ',' => some .comma
  | '.' => some .dot
  | '-' => some .minus
  | '+' => some .plus
  | ';' => some .semicolon
  | '*' => some .star
  | _ => none

/-- The kinds of a token with an equals sign after it, and alone. -/
def comparison? (c : Char) : Option (Kind × Kind) :=
  match c with
  | '!' => some (.bangEqual, .bang)
  | '=' => some (.equalEqual, .equal)
  | '<' => some (.lessEqual, .less)
  | '>' => some (.greaterEqual, .greater)
  | _ => none

def isWordStart (c : Char) : Bool :=
  decide ('a' ≤ c ∧ c ≤ 'z') || decide ('A' ≤ c ∧ c ≤ 'Z') || c == '_'

def isWordPart (c : Char) : Bool := isWordStart c || isAsciiDigit c

/-- The rest of a number after its first digit. A point belongs to it if a digit follows. -/
def numberTail (text : List Char) : List Char × List Char :=
  match spanDigits text with
  | (whole, '.' :: d :: r) =>
    if isAsciiDigit d then
      (whole ++ '.' :: d :: (spanDigits r).1, (spanDigits r).2)
    else (whole, '.' :: d :: r)
  | (whole, r) => (whole, r)

def cut (c : Char) (r : List Char) : Piece × List Char :=
  if c = ' ' ∨ c = '\r' ∨ c = '\t' then (⟨.blank, [c]⟩, r)
  else if c = '\n' then (⟨.newline, [c]⟩, r)
  else if c = '/' then
    match r with
    | '/' :: r => (⟨.comment, c :: '/' :: r.takeWhile (· ≠ '\n')⟩, r.dropWhile (· ≠ '\n'))
    | r => (⟨.lexeme .slash, [c]⟩, r)
  else if c = '"' then
    match r.dropWhile (· ≠ '"') with
    | [] => (⟨.openString, c :: r⟩, [])
    | quote :: rest => (⟨.lexeme .string, c :: (r.takeWhile (· ≠ '"') ++ [quote])⟩, rest)
  else if isAsciiDigit c then
    (⟨.lexeme .number, c :: (numberTail r).1⟩, (numberTail r).2)
  else if isWordStart c then
    let word := c :: r.takeWhile isWordPart
    (⟨.lexeme (Kind.ofWord (String.ofList word)), word⟩, r.dropWhile isWordPart)
  else
    match symbol? c, comparison? c with
    | some kind, _ => (⟨.lexeme kind, [c]⟩, r)
    | none, some (long, short) =>
      match r with
      | '=' :: r => (⟨.lexeme long, [c, '=']⟩, r)
      | r => (⟨.lexeme short, [c]⟩, r)
    | none, none => (⟨.stray, [c]⟩, r)

theorem spanDigits_append (text : List Char) :
    (spanDigits text).1 ++ (spanDigits text).2 = text :=
  List.takeWhile_append_dropWhile

theorem numberTail_append (text : List Char) :
    (numberTail text).1 ++ (numberTail text).2 = text := by
  have h := spanDigits_append text
  unfold numberTail
  split
  · rename_i whole d r hs
    rw [hs] at h
    split
    · simpa [spanDigits_append r] using h
    · exact h
  · rename_i whole r _ hs
    rw [hs] at h
    exact h

theorem cut_append (c : Char) (r : List Char) : (cut c r).1.text ++ (cut c r).2 = c :: r := by
  unfold cut
  repeat' split
  all_goals simp_all [numberTail_append, List.takeWhile_append_dropWhile]
  rename_i quote rest h
  rw [← h, List.takeWhile_append_dropWhile]

theorem text_cut_ne_nil (c : Char) (r : List Char) : (cut c r).1.text ≠ [] := by
  unfold cut
  repeat' split
  all_goals simp

theorem length_cut_lt (c : Char) (r : List Char) : (cut c r).2.length < (c :: r).length := by
  have h := congrArg List.length (cut_append c r)
  have := List.length_pos_iff.2 (text_cut_ne_nil c r)
  rw [List.length_append] at h
  omega

def all : List Char → List Piece
  | [] => []
  | c :: r => (cut c r).1 :: all (cut c r).2
termination_by text => text.length
decreasing_by exact length_cut_lt c r

/-- The pieces make up the text. -/
theorem flatMap_text_all (text : List Char) : (all text).flatMap Piece.text = text := by
  fun_induction all text with
  | case1 => rfl
  | case2 c r ih => rw [List.flatMap_cons, ih, cut_append]

end Piece

end Lox
