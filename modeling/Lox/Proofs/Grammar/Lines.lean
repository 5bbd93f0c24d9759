import Lox.Proofs.Grammar.Relabel
import Lox.Proofs.Tree.Lines

/-!
Parsing does not look at lines. Tokens without their lines parse to the tree without its lines,
with the same errors at the same tokens.
-/
namespace Lox

def Relabelling.unlined : Relabelling where
  apply := Token.unlined
  kind _ := rfl
  implied _ _ _ := rfl

namespace Node

mutual

theorem map_unlined : ∀ n : Node, n.map Token.unlined = n.unlined
  | .literal _ | .name _ => rfl
  | .grouping a => by rw [map, unlined, map_unlined a]
  | .unary _ a => by rw [map, unlined, map_unlined a]
  | .binary a _ b => by rw [map, unlined, map_unlined a, map_unlined b]
  | .logical a _ b => by rw [map, unlined, map_unlined a, map_unlined b]
  | .assign _ a => by rw [map, unlined, map_unlined a]
  | .call a _ args => by rw [map, unlined, map_unlined a, mapAll_unlined args]
  | .expression a => by rw [map, unlined, map_unlined a]
  | .print a => by rw [map, unlined, map_unlined a]
  | .var _ a => by rw [map, unlined, map_unlined a]
  | .block items => by rw [map, unlined, mapAll_unlined items]
  | .ifElse a b c => by rw [map, unlined, map_unlined a, map_unlined b, map_unlined c]
  | .loop a b => by rw [map, unlined, map_unlined a, map_unlined b]
  | .function _ _ body => by rw [map, unlined, mapAll_unlined body]
  | .list items => by rw [map, unlined, mapAll_unlined items]

theorem mapAll_unlined : ∀ ns : List Node, mapAll Token.unlined ns = unlinedAll ns
  | [] => rfl
  | n :: r => by rw [mapAll, unlinedAll, map_unlined n, mapAll_unlined r]

end

end Node

namespace Grammar

theorem Parse.map_unlined (p : Parse) : p.map Token.unlined = p.unlined := by
  rw [Parse.map, funext Node.map_unlined]
  rfl

theorem parse_unlined (depth : Nat) (tokens : List Token) (last : Token) :
    parse depth (tokens.map Token.unlined) last.unlined = (parse depth tokens last).unlined := by
  rw [← Parse.map_unlined]
  exact parse_map .unlined depth tokens last

end Grammar

end Lox
