import Lox.Proofs.Number.Display
import Lox.Value

/-!
Equality and display. Equality relates values of one kind only, and each but NaN to itself. Equal
values are of the same type, count alike as conditions and are shown alike, the two zeros apart; and
the type and the display of nil, a boolean, a number or a string say which value it is.
-/
namespace Lox

theorem Positional.exists_cons {text : List Char} (h : Positional text) :
    ∃ c r, text = c :: r ∧ isAsciiDigit c = true := by
  have hcons {digits : List Char} (hdigits : Whole digits) :
      ∃ c r, digits = c :: r ∧ isAsciiDigit c = true := by
    obtain ⟨c, r, rfl⟩ := List.exists_cons_of_ne_nil hdigits.nonempty
    exact ⟨c, r, rfl, hdigits.digit c List.mem_cons_self⟩
  cases h with
  | whole hwhole => exact hcons hwhole
  | fraction hwhole =>
    obtain ⟨c, r, rfl, hc⟩ := hcons hwhole
    exact ⟨c, _, rfl, hc⟩

namespace Number

variable {x y : Number} {m n : Nat}

theorem ext_iff_magnitude : x = y ↔ x.negative = y.negative ∧ x.magnitude = y.magnitude := by
  constructor
  · rintro rfl
    exact ⟨rfl, rfl⟩
  · rintro ⟨hsign, hmagnitude⟩
    rw [← ofMagnitude_self x, ← ofMagnitude_self y, hsign, hmagnitude]

theorem equal_iff : x.equal y = true ↔
    x.isNaN = false ∧ y.isNaN = false ∧ x.rank = y.rank := by
  simp only [equal, Bool.and_eq_true, Bool.not_eq_true', decide_eq_true_eq, and_assoc]

theorem eq_or_zeros_of_rank (h : x.rank = y.rank) :
    x = y ∨ x = zero ∧ y = zero.negate ∨ x = zero.negate ∧ y = zero := by
  have hzero : zero.negative = false ∧ zero.magnitude = 0 := by decide
  have hnegate : zero.negate.negative = true ∧ zero.negate.magnitude = 0 := by decide
  simp only [ext_iff_magnitude, hzero, hnegate]
  unfold rank at h
  -- with one sign the magnitudes agree, and with two they can only be zero
  cases hx : x.negative <;> cases hy : y.negative
  all_goals
    simp only [hx, hy] at h ⊢
    grind

def shown (magnitude : Nat) : List Char :=
  if magnitude = infinite then ['i', 'n', 'f'] else displayMagnitude magnitude

theorem magnitude_le (h : x.isNaN = false) : x.magnitude ≤ infinite :=
  Nat.le_of_not_lt (of_decide_eq_false h)

theorem display_eq (h : x.isNaN = false) :
    x.display = String.ofList (x.signed (shown x.magnitude)) := by
  unfold display shown isInfinite
  rw [if_neg (by simp [h])]
  by_cases hinfinite : x.magnitude = infinite
  · simp [hinfinite]
  · simp [hinfinite]

theorem shown_cons (h : m ≤ infinite) : ∃ c r, shown m = c :: r ∧ c ≠ '-' ∧ c ≠ 'N' := by
  unfold shown
  split
  · exact ⟨_, _, rfl, by decide, by decide⟩
  · obtain ⟨c, r, htext, hc⟩ := (displayMagnitude_positional (m := m) (by omega)).1.exists_cons
    refine ⟨c, r, htext, ?_, ?_⟩
    · exact isAsciiDigit_ne hc (by decide)
    · exact isAsciiDigit_ne hc (by decide)

theorem head?_shown_ne_minus (h : m ≤ infinite) : (shown m).head? ≠ some '-' := by
  obtain ⟨c, r, htext, hc, -⟩ := shown_cons h
  rw [htext]
  simpa using hc

/-- The digits of a magnitude stand for it, so no two magnitudes have the same. -/
theorem shown_injective (hm : m ≤ infinite) (hn : n ≤ infinite) (h : shown m = shown n) :
    m = n := by
  have hname {k : Nat} (hk : k < infinite) : displayMagnitude k ≠ ['i', 'n', 'f'] := by
    intro hinf
    obtain ⟨c, r, htext, hc⟩ := (displayMagnitude_positional hk).1.exists_cons
    rw [htext] at hinf
    cases hinf
    cases hc
  unfold shown at h
  split at h <;> split at h
  · omega
  · exact absurd h.symm (hname (by omega))
  · exact absurd h (hname (by omega))
  · have hvalue := (displayMagnitude_positional (m := m) (by omega)).2
    rw [h, (displayMagnitude_positional (m := n) (by omega)).2] at hvalue
    have hmagnitude := congrArg magnitude hvalue
    rw [magnitude_ofMagnitude false hm, magnitude_ofMagnitude false hn] at hmagnitude
    exact hmagnitude.symm

theorem display_of_isNaN (h : x.isNaN = true) : x.display = "NaN" := by
  unfold display
  rw [if_pos h]

theorem display_ne_nan (h : x.isNaN = false) : x.display ≠ "NaN" := by
  obtain ⟨c, r, htext, -, hc⟩ := shown_cons (magnitude_le h)
  intro hnan
  have hchars := congrArg String.toList hnan
  rw [display_eq h, String.toList_ofList, htext, signed] at hchars
  split at hchars
  · cases hchars
  · exact hc (List.cons.inj hchars).1

theorem signed_inj {s t : List Char} (hs : s.head? ≠ some '-') (ht : t.head? ≠ some '-')
    (h : x.signed s = y.signed t) : x.negative = y.negative ∧ s = t := by
  unfold signed at h
  cases hx : x.negative <;> cases hy : y.negative
  all_goals simp only [hx, hy, Bool.false_eq_true, if_false, if_true] at h
  case false.false => exact ⟨rfl, h⟩
  case false.true => exact absurd (congrArg List.head? h) hs
  case true.false => exact absurd (congrArg List.head? h).symm ht
  case true.true => exact ⟨rfl, (List.cons.inj h).2⟩

/-- A number other than NaN is determined by its display. -/
theorem display_injective (h : x.display = y.display) (hx : x.isNaN = false) : x = y := by
  cases hy : y.isNaN with
  | true => exact absurd (h.trans (display_of_isNaN hy)) (display_ne_nan hx)
  | false =>
    rw [display_eq hx, display_eq hy, String.ofList_inj] at h
    obtain ⟨hsign, hshown⟩ := signed_inj (head?_shown_ne_minus (magnitude_le hx))
      (head?_shown_ne_minus (magnitude_le hy)) h
    rw [ext_iff_magnitude]
    exact ⟨hsign, shown_injective (magnitude_le hx) (magnitude_le hy) hshown⟩

theorem display_zero : zero.display = "0" := by decide +kernel

theorem display_negate_zero : zero.negate.display = "-0" := by decide +kernel

end Number

theorem Foreign.datum_injective {f g : Foreign} (h : f.datum = g.datum) : f = g := by
  cases f <;> cases g <;> cases h <;> rfl

namespace Value

/-- The numbers that are equal to nothing. -/
def isNaN : Value → Bool
  | .number x => x.isNaN
  | _ => false

def isPlain : Value → Bool
  | .nil | .bool _ | .number _ | .string _ => true
  | _ => false

inductive Equals : Value → Value → Prop where
  | nil : Equals .nil .nil
  | bool (b : Bool) : Equals (.bool b) (.bool b)
  | number {x y : Number} : x.isNaN = false → y.isNaN = false → x.rank = y.rank →
      Equals (.number x) (.number y)
  | string (s : Text) : Equals (.string s) (.string s)
  | function (id : Nat) (d e : Declaration) : Equals (.function id d) (.function id e)
  | native (id : Nat) (name other : String) : Equals (.native id name) (.native id other)
  | foreign (f : Foreign) (place : Place) : Equals (.foreign f place) (.foreign f place)

inductive Zeros : Value → Value → Prop where
  | down : Zeros (.number .zero) (.number Number.zero.negate)
  | up : Zeros (.number Number.zero.negate) (.number .zero)

variable {a b c : Value}

theorem equal_iff : a.equal b = true ↔ a.Equals b := by
  constructor
  · intro h
    cases a <;> cases b
    case nil.nil => exact .nil
    case bool.bool =>
      obtain rfl := eq_of_beq h
      exact .bool _
    case number.number =>
      obtain ⟨hx, hy, hrank⟩ := Number.equal_iff.1 h
      exact .number hx hy hrank
    case string.string =>
      obtain rfl := eq_of_beq h
      exact .string _
    case function.function =>
      obtain rfl := eq_of_beq h
      exact .function ..
    case native.native =>
      obtain rfl := eq_of_beq h
      exact .native ..
    case foreign.foreign =>
      obtain ⟨hplace, hdatum⟩ := Bool.and_eq_true_iff.1 h
      obtain rfl := eq_of_beq hplace
      obtain rfl := Foreign.datum_injective (eq_of_beq hdatum)
      exact .foreign ..
    all_goals cases h
  · intro h
    cases h with
    | nil => rfl
    | number hx hy hrank => exact Number.equal_iff.2 ⟨hx, hy, hrank⟩
    | foreign => simp [equal]
    | _ => exact beq_self_eq_true _

theorem Equals.symm (h : a.Equals b) : b.Equals a := by
  cases h with
  | nil => exact .nil
  | bool => exact .bool _
  | number hx hy hrank => exact .number hy hx hrank.symm
  | string => exact .string _
  | function => exact .function ..
  | native => exact .native ..
  | foreign => exact .foreign ..

theorem equal_comm (a b : Value) : a.equal b = b.equal a := by
  rw [Bool.eq_iff_iff, equal_iff, equal_iff]
  exact ⟨.symm, .symm⟩

theorem Equals.trans (h : a.Equals b) (h' : b.Equals c) : a.Equals c := by
  cases h with
  | nil => exact h'
  | bool => exact h'
  | number hx _ hrank =>
    cases h' with
    | number _ hz hrank' => exact .number hx hz (hrank.trans hrank')
  | string => exact h'
  | function =>
    cases h' with
    | function => exact .function ..
  | native =>
    cases h' with
    | native => exact .native ..
  | foreign => exact h'

theorem equals_self_iff : a.Equals a ↔ a.isNaN = false := by
  constructor
  · intro h
    cases h with
    | number hx => exact hx
    | _ => rfl
  · intro h
    cases a with
    | nil => exact .nil
    | bool => exact .bool _
    | number x => exact .number h h rfl
    | string => exact .string _
    | function => exact .function ..
    | native => exact .native ..
    | foreign => exact .foreign ..

theorem Equals.typeName (h : a.Equals b) : a.typeName = b.typeName := by
  cases h <;> rfl

theorem Equals.isTruthy (h : a.Equals b) : a.isTruthy = b.isTruthy := by
  cases h <;> rfl

theorem Zeros.equals (h : a.Zeros b) : a.Equals b := by
  cases h with
  | down => exact .number (by decide) (by decide) (by decide)
  | up => exact .number (by decide) (by decide) (by decide)

theorem Zeros.display (h : a.Zeros b) :
    a.display = "0" ∧ b.display = "-0" ∨ a.display = "-0" ∧ b.display = "0" := by
  have hzero : (Value.number .zero).display = "0" := congrArg Text.plain Number.display_zero
  have hminus : (Value.number Number.zero.negate).display = "-0" :=
    congrArg Text.plain Number.display_negate_zero
  cases h with
  | down => exact .inl ⟨hzero, hminus⟩
  | up => exact .inr ⟨hminus, hzero⟩

theorem Equals.display (h : a.Equals b) : a.display = b.display ∨ a.Zeros b := by
  cases h with
  | number _ _ hrank =>
    obtain rfl | ⟨rfl, rfl⟩ | ⟨rfl, rfl⟩ := Number.eq_or_zeros_of_rank hrank
    · exact .inl rfl
    · exact .inr .down
    · exact .inr .up
  | _ => exact .inl rfl

theorem equals_of_display_number {x y : Number} (h : x.display = y.display) :
    (Value.number x).Equals (.number y) ∨ x.isNaN = true ∧ y.isNaN = true := by
  cases hx : x.isNaN with
  | false =>
    obtain rfl := Number.display_injective h hx
    exact .inl (.number hx hx rfl)
  | true =>
    cases hy : y.isNaN with
    | false =>
      rw [Number.display_injective h.symm hy, hx] at hy
      cases hy
    | true => exact .inr ⟨rfl, rfl⟩

theorem equals_of_display (ha : a.isPlain = true) (hb : b.isPlain = true)
    (htype : a.typeName = b.typeName) (h : a.display = b.display) :
    a.Equals b ∨ a.isNaN = true ∧ b.isNaN = true := by
  cases a <;> cases b
  case nil.nil => exact .inl .nil
  case bool.bool x y =>
    cases x <;> cases y
    case false.false => exact .inl (.bool _)
    case true.true => exact .inl (.bool _)
    all_goals exact absurd (Text.plain.inj h) (by decide)
  case number.number => exact equals_of_display_number (Text.plain.inj h)
  case string.string =>
    cases h
    exact .inl (.string _)
  all_goals simp [typeName, isPlain] at htype ha hb

end Value

/-- Equality is symmetric, transitive, and reflexive on all values but NaN. Equal values have the
same type and truth and, the two zeros apart, the same display; and two of nil, the booleans, the
numbers and the strings that have the same type and display are equal, unless they are NaN. -/
theorem equality_matches_display (a b c : Value) :
    a.equal b = b.equal a ∧
      (a.equal b = true → b.equal c = true → a.equal c = true) ∧
      (a.equal a = true ↔ a.isNaN = false) ∧
      (a.equal b = true → a.typeName = b.typeName ∧ a.isTruthy = b.isTruthy ∧
        (a.display = b.display ∨ a.Zeros b)) ∧
      (a.Zeros b → a.equal b = true ∧
        (a.display = "0" ∧ b.display = "-0" ∨ a.display = "-0" ∧ b.display = "0")) ∧
      (a.isPlain = true → b.isPlain = true → a.typeName = b.typeName → a.display = b.display →
        a.equal b = true ∨ a.isNaN = true ∧ b.isNaN = true) := by
  refine ⟨Value.equal_comm a b, ?_⟩
  simp only [Value.equal_iff]
  refine ⟨.trans, Value.equals_self_iff, fun h => ?_, fun h => ?_, Value.equals_of_display⟩
  · exact ⟨h.typeName, h.isTruthy, h.display⟩
  · exact ⟨h.equals, h.display⟩

/-- The two zeros and back: equal in a circle, but shown with different signs. -/
theorem equality_matches_display_zeros :
    (Value.number .zero).equal (.number Number.zero.negate) = true ∧
      (Value.number Number.zero.negate).equal (.number .zero) = true ∧
      (Value.number .zero).equal (.number .zero) = true ∧
      (Value.number .zero).display ≠ (Value.number Number.zero.negate).display := by
  obtain ⟨hsymm, htrans, -, -, hzeros, -⟩ :=
    equality_matches_display (.number .zero) (.number Number.zero.negate) (.number .zero)
  obtain ⟨hequal, hdisplay⟩ := hzeros .down
  have hback := hsymm ▸ hequal
  refine ⟨hequal, hback, htrans hequal hback, fun hsame => ?_⟩
  rw [hsame] at hdisplay
  obtain ⟨hone, hother⟩ | ⟨hone, hother⟩ := hdisplay
  · exact absurd (hone.symm.trans hother) (by decide)
  · exact absurd (hone.symm.trans hother) (by decide)

end Lox
