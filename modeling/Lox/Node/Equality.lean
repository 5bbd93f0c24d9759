import Lox.Node

/-!
Equality of trees can be decided.
-/
namespace Lox.Node

mutual

def same : Node → Node → Bool
  | .literal s, .literal t => s == t
  | .grouping a, .grouping b => same a b
  | .unary s a, .unary t b => s == t && same a b
  | .binary a s c, .binary b t d => same a b && s == t && same c d
  | .logical a s c, .logical b t d => same a b && s == t && same c d
  | .name s, .name t => s == t
  | .assign s a, .assign t b => s == t && same a b
  | .call a s xs, .call b t ys => same a b && s == t && sameItems xs ys
  | .expression a, .expression b => same a b
  | .print a, .print b => same a b
  | .var s a, .var t b => s == t && same a b
  | .block xs, .block ys => sameItems xs ys
  | .ifElse a b c, .ifElse d e f => same a d && same b e && same c f
  | .loop a b, .loop c d => same a c && same b d
  | .function s ps xs, .function t qs ys => s == t && ps == qs && sameItems xs ys
  | .list xs, .list ys => sameItems xs ys
  | _, _ => false

def sameItems : List Node → List Node → Bool
  | [], [] => true
  | a :: r, b :: s => same a b && sameItems r s
  | _, _ => false

end

mutual

theorem same_iff : ∀ a b : Node, same a b = true ↔ a = b
  | .literal _, b => by cases b <;> simp [same]
  | .grouping a, b => by cases b <;> simp [same, same_iff a]
  | .unary _ a, b => by cases b <;> simp [same, same_iff a]
  | .binary a _ c, b => by cases b <;> simp [same, same_iff a, same_iff c, and_assoc]
  | .logical a _ c, b => by cases b <;> simp [same, same_iff a, same_iff c, and_assoc]
  | .name _, b => by cases b <;> simp [same]
  | .assign _ a, b => by cases b <;> simp [same, same_iff a]
  | .call a _ xs, b => by cases b <;> simp [same, same_iff a, sameItems_iff xs, and_assoc]
  | .expression a, b => by cases b <;> simp [same, same_iff a]
  | .print a, b => by cases b <;> simp [same, same_iff a]
  | .var _ a, b => by cases b <;> simp [same, same_iff a]
  | .block xs, b => by cases b <;> simp [same, sameItems_iff xs]
  | .ifElse a c d, b => by
    cases b <;> simp [same, same_iff a, same_iff c, same_iff d, and_assoc]
  | .loop a c, b => by cases b <;> simp [same, same_iff a, same_iff c]
  | .function _ _ xs, b => by cases b <;> simp [same, sameItems_iff xs, and_assoc]
  | .list xs, b => by cases b <;> simp [same, sameItems_iff xs]

theorem sameItems_iff : ∀ a b : List Node, sameItems a b = true ↔ a = b
  | [], b => by cases b <;> simp [sameItems]
  | x :: r, b => by cases b <;> simp [sameItems, same_iff x, sameItems_iff r]

end

instance : DecidableEq Node := fun a b => decidable_of_iff _ (same_iff a b)

end Lox.Node
