import Lox.Node.Load
import Lox.Node.Record

/-!
How deep it goes to record a tree and to load one. Either makes a call for each node, one more for
each row of nodes, and some for a token, and the message about a datum takes a call for each datum
within it. The calls within each other have to fit on the stack of the host. If there is no room
for them, the work is given up, and nothing comes of it.
-/
namespace Lox

/-- The calls that a token takes, to its kind and back. -/
def tokenDepth : Nat := 3

/-- The calls that it takes to put a fault into words. -/
def LoadError.depth : LoadError → Nat
  | .notNode d => d.height
  | .unknownType (.str _) => 0
  | .unknownType type => type.height + 1
  | _ => 0

inductive Ask where
  | node (key : String)
  | nodes (key : String)
  | token (key : String)
  | tokens (key : String)

def Form.asks : Form → List Ask
  | .literal => [.token "value"]
  | .grouping | .expression | .print => [.node "expression"]
  | .unary => [.token "operator", .node "right"]
  | .binary | .logical => [.node "left", .token "operator", .node "right"]
  | .name => [.token "name"]
  | .assign => [.token "name", .node "value"]
  | .call => [.nodes "arguments", .node "callee", .token "paren"]
  | .var => [.token "name", .node "initializer"]
  | .block => [.nodes "statements"]
  | .ifElse => [.node "condition", .node "then_branch", .node "else_branch"]
  | .loop => [.node "condition", .node "body"]
  | .function => [.tokens "params", .token "name", .nodes "body"]

namespace Parts

def grants (parts : Parts) : Ask → Bool
  | .node key => (parts.node key).isOk
  | .nodes key => (parts.nodes key).isOk
  | .token key => (parts.token key).isOk
  | .tokens key => (parts.tokens key).isOk

/-- How deep it goes to read what is asked for, given that of each field as a node. A row is read
without a call for its list. -/
def askDepth (parts : Parts) (depths : List (Text × Nat)) : Ask → Nat
  | .node key => (Datum.field? depths key).getD 0
  | .nodes key =>
    match (Datum.field? parts key).map Part.datum with
    | some (.list _) => (Datum.field? depths key).getD 0 - 1
    | _ => 3
  | .token _ => tokenDepth
  | .tokens _ => tokenDepth + 1

/-- How deep it goes to read fields up to the first that is not there. -/
def asksDepth (parts : Parts) (depths : List (Text × Nat)) : List Ask → Nat
  | [] => 0
  | a :: r =>
    max (parts.askDepth depths a) (if parts.grants a then asksDepth parts depths r else 0)

end Parts

namespace Node

mutual

def recordDepth : Node → Nat
  | .literal _ | .name _ => tokenDepth + 1
  | .grouping a | .expression a | .print a => recordDepth a + 1
  | .unary _ a | .assign _ a | .var _ a => max tokenDepth (recordDepth a) + 1
  | .binary a _ b | .logical a _ b => max tokenDepth (max (recordDepth a) (recordDepth b)) + 1
  | .call callee _ arguments =>
    max tokenDepth (max (recordDepth callee) (rowDepth arguments + 1)) + 1
  | .block items | .list items => rowDepth items + 2
  | .ifElse a b c => max (recordDepth a) (max (recordDepth b) (recordDepth c)) + 1
  | .loop a b => max (recordDepth a) (recordDepth b) + 1
  | .function _ _ body => max (tokenDepth + 1) (rowDepth body + 1) + 1

def rowDepth : List Node → Nat
  | [] => 0
  | n :: r => max (recordDepth n) (rowDepth r)

end

/-- The record of a tree, if there is room for so many calls. -/
def recordWithin (room : Nat) (n : Node) : Option Datum :=
  if n.recordDepth ≤ room then some n.toDatum else none

mutual

/-- How deep it goes to load a datum, up to the first fault. -/
def loadDepth : Datum → Nat
  | .list items => itemsDepth items + 2
  | .object fields =>
    match formOf fields with
    | .ok form => (partsOf [] fields).asksDepth (fieldDepths fields) form.asks + 1
    | .error e => e.depth + 1
  | d => d.height + 1

def itemsDepth : List Datum → Nat
  | [] => 0
  | d :: r => max (loadDepth d) (if (ofDatum d).isOk then itemsDepth r else 0)

def fieldDepths : List (Text × Datum) → List (Text × Nat)
  | [] => []
  | (key, d) :: r => (key, loadDepth d) :: fieldDepths r

end

/-- What comes of a datum, if there is room for so many calls. -/
def loadWithin (room : Nat) (d : Datum) : Option (Except LoadError Node) :=
  if loadDepth d ≤ room then some (ofDatum d) else none

end Node

end Lox
