import Lox.Datum
import Lox.Node
import Lox.Number.Numeral

/-!
Trees from data. The parts of a node are taken in a fixed order, so that of several faults the
first one is reported. Fields that are not asked for are ignored, and a field for several nodes
or tokens may be left out.
-/
namespace Lox

inductive LoadError where
  | notNode (d : Datum)
  | unknownType (type : Datum)
  | missing (key : Datum)
  | wrongShape
  | notNumeral (text : Text)
  | tooLarge
  deriving DecidableEq

namespace LoadError

def message? : LoadError → Option Text
  | .notNode d => some ("Invalid AST object: " ++ d.shown)
  | .unknownType type => some ("Unknown AST node type: " ++ type.text)
  | .missing key => some (key.shown : Text)
  | .notNumeral text => some ("could not convert string to float: " ++ Text.quoted text)
  | .wrongShape | .tooLarge => none

end LoadError

def demandField {α : Type} (key : String) (fields : List (Text × α)) : Except LoadError α :=
  match Datum.field? fields key with
  | some found => .ok found
  | none => .error (.missing (.str key))

namespace Token

def toNumber : Datum → Except LoadError Number
  | .num x => .ok x
  | .bool b => .ok (if b then Number.one else Number.zero)
  | .int n =>
    match Number.ofInt? n with
    | some x => .ok x
    | none => .error .tooLarge
  | .str s =>
    match s.string?.bind Number.ofText? with
    | some x => .ok x
    | none => .error (.notNumeral s)
  | _ => .error .wrongShape

def toKind : Datum → Except LoadError Kind
  | .str s =>
    match s.string?.bind Kind.ofName? with
    | some kind => .ok kind
    | none => .error (.missing (.str s))
  | .list _ | .object _ => .error .wrongShape
  | d => .error (.missing d)

/-- Only the literal of a number token is looked at. -/
def toLiteral (kind : Kind) (literal : Datum) : Except LoadError Datum :=
  match kind, literal with
  | .number, .null => .ok .null
  | .number, d => return .num (← toNumber d)
  | _, d => .ok d

def ofDatum (place : Place) : Datum → Except LoadError Token
  | .object fields => do
    let kind ← toKind (← demandField "type" fields)
    let literal ← toLiteral kind ((Datum.field? fields "literal").getD .null)
    let lexeme ← demandField "lexeme" fields
    let line ← demandField "line" fields
    return { kind, lexeme, line, literal, place := if literal.isShared then [] else place }
  | _ => .error .wrongShape

/-- The tokens of a field that holds several. A text has its characters and an object its keys,
none of which is a token. -/
def listOfDatum (place : Place) : Datum → Except LoadError (List Token)
  | .list items => items.mapM (ofDatum place)
  | .str s => if s.points.isEmpty then .ok [] else .error .wrongShape
  | .object fields => if fields.isEmpty then .ok [] else .error .wrongShape
  | _ => .error .wrongShape

end Token

structure Part where
  place : Place
  datum : Datum
  node : Except LoadError Node

namespace Part

/-- The nodes of a field that holds several. A text has its characters and an object its keys,
none of which is a node. -/
def nodes (part : Part) : Except LoadError (List Node) :=
  match part.datum with
  | .list _ =>
    match part.node with
    | .ok (.list items) => .ok items
    | .ok _ => .error .wrongShape
    | .error e => .error e
  | .str s =>
    match s.points with
    | [] => .ok []
    | first :: _ => .error (.notNode (.str (Text.ofPoints [first])))
  | .object [] => .ok []
  | .object ((key, _) :: _) => .error (.notNode (.str key))
  | _ => .error .wrongShape

end Part

abbrev Parts := List (Text × Part)

namespace Parts

def node (parts : Parts) (key : String) : Except LoadError Node := do
  (← demandField key parts).node

def token (parts : Parts) (key : String) : Except LoadError Token := do
  let part ← demandField key parts
  Token.ofDatum part.place part.datum

def nodes (parts : Parts) (key : String) : Except LoadError (List Node) :=
  match Datum.field? parts key with
  | some part => part.nodes
  | none => .ok []

def tokens (parts : Parts) (key : String) : Except LoadError (List Token) :=
  match Datum.field? parts key with
  | some part => Token.listOfDatum part.place part.datum
  | none => .ok []

/-- The node of a form. The order of the steps decides which of several faults is reported. -/
def assemble (parts : Parts) : Form → Except LoadError Node
  | .literal => return .literal (← parts.token "value")
  | .grouping => return .grouping (← parts.node "expression")
  | .unary => do
    let operator ← parts.token "operator"
    return .unary operator (← parts.node "right")
  | .binary => do
    let left ← parts.node "left"
    let operator ← parts.token "operator"
    return .binary left operator (← parts.node "right")
  | .logical => do
    let left ← parts.node "left"
    let operator ← parts.token "operator"
    return .logical left operator (← parts.node "right")
  | .name => return .name (← parts.token "name")
  | .assign => do
    let target ← parts.token "name"
    return .assign target (← parts.node "value")
  | .call => do
    let arguments ← parts.nodes "arguments"
    let callee ← parts.node "callee"
    return .call callee (← parts.token "paren") arguments
  | .expression => return .expression (← parts.node "expression")
  | .print => return .print (← parts.node "expression")
  | .var => do
    let target ← parts.token "name"
    return .var target (← parts.node "initializer")
  | .block => return .block (← parts.nodes "statements")
  | .ifElse => do
    let condition ← parts.node "condition"
    let thenBranch ← parts.node "then_branch"
    return .ifElse condition thenBranch (← parts.node "else_branch")
  | .loop => do
    let condition ← parts.node "condition"
    return .loop condition (← parts.node "body")
  | .function => do
    let params ← parts.tokens "params"
    let target ← parts.token "name"
    return .function target params (← parts.nodes "body")

end Parts

namespace Node

def formOf (fields : List (Text × Datum)) : Except LoadError Form :=
  match Datum.field? fields "type" with
  | none => .error (.notNode (.object fields))
  | some (.str title) =>
    match title.string?.bind Form.ofTitle? with
    | some form => .ok form
    | none => .error (.unknownType (.str title))
  | some type => .error (.unknownType type)

mutual

def loadAt (place : Place) : Datum → Except LoadError Node
  | .list items => return .list (← loadItems place 0 items)
  | .object fields => do (partsOf place fields).assemble (← formOf fields)
  | d => .error (.notNode d)

def loadItems (place : Place) (index : Nat) : List Datum → Except LoadError (List Node)
  | [] => .ok []
  | d :: r => do
    let first ← loadAt (.item index :: place) d
    return first :: (← loadItems place (index + 1) r)

/-- Every field is read as a node, also one that is no node or is never asked for: only the
outcomes that the form asks for count. -/
def partsOf (place : Place) : List (Text × Datum) → Parts
  | [] => []
  | (key, d) :: r =>
    (key, ⟨.field key :: place, d, loadAt (.field key :: place) d⟩) :: partsOf place r

end

def ofDatum (d : Datum) : Except LoadError Node := loadAt [] d

end Node

end Lox
