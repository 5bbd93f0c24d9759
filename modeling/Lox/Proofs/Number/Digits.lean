import Lox.Number.Numeral
import Lox.Number.Text
import Lox.Proofs.Number.Rounding

/-!
Rows of digits. The digits of a number have its value, and the three ways of splitting the digits
of a decimal around a point keep its value, so that a literal can be read back from its parts.
-/
namespace Lox

theorem isAsciiDigit_digitChar {d : Nat} (h : d < 10) : isAsciiDigit (digitChar d) = true := by
  have all : ∀ d, d < 10 → isAsciiDigit (digitChar d) = true := by decide
  exact all d h

theorem toNat_digitChar {d : Nat} (h : d < 10) : (digitChar d).toNat - 48 = d := by
  have all : ∀ d, d < 10 → (digitChar d).toNat - 48 = d := by decide
  exact all d h

theorem digitChar_ne_zero {d : Nat} (hpos : 0 < d) (h : d < 10) : digitChar d ≠ '0' := by
  have all : ∀ d, d < 10 → 0 < d → digitChar d ≠ '0' := by decide
  exact all d h hpos

theorem isAsciiDigit_ne {c d : Char} (hc : isAsciiDigit c = true) (hd : isAsciiDigit d = false) :
    c ≠ d := by
  intro h
  rw [h, hd] at hc
  cases hc

theorem digitsValue_append (a b : List Char) :
    digitsValue (a ++ b) = digitsValue a * 10 ^ b.length + digitsValue b := by
  have shift (n : Nat) : b.foldl (fun n c => 10 * n + (c.toNat - 48)) n =
      n * 10 ^ b.length + digitsValue b := by
    unfold digitsValue
    induction b generalizing n with
    | nil => simp
    | cons c b ih =>
      simp only [List.foldl_cons, List.length_cons]
      rw [ih, ih (10 * 0 + (c.toNat - 48)), Nat.pow_succ]
      ring
  rw [digitsValue, List.foldl_append, shift]
  rfl

@[simp] theorem digitsValue_singleton {d : Nat} (h : d < 10) : digitsValue [digitChar d] = d := by
  simp [digitsValue, toNat_digitChar h]

theorem digitsValue_zeros (k : Nat) : digitsValue (List.replicate k '0') = 0 := by
  induction k with
  | zero => rfl
  | succ k ih => rw [List.replicate_succ', digitsValue_append, ih]; rfl

theorem length_natDigits_le {n k : Nat} (h : n < 10 ^ (k + 1)) :
    (natDigits n).length ≤ k + 1 := by
  induction k generalizing n with
  | zero =>
    rw [natDigits, if_pos (by simpa using h)]
    exact Nat.le_refl 1
  | succ k ih =>
    rw [natDigits]
    split
    · exact Nat.le_add_left 1 (k + 1)
    · have htenth : n / 10 < 10 ^ (k + 1) := by
        rw [Nat.pow_succ] at h
        exact Nat.div_lt_of_lt_mul (by omega)
      rw [List.length_append]
      exact Nat.succ_le_succ (ih htenth)

theorem digitsValue_natDigits (n : Nat) : digitsValue (natDigits n) = n := by
  fun_induction natDigits n with
  | case1 n h => exact digitsValue_singleton h
  | case2 n h ih =>
    rw [digitsValue_append, ih, digitsValue_singleton (by omega)]
    simp only [List.length_singleton, Nat.pow_one]
    omega

theorem natDigits_digits (n : Nat) : ∀ c ∈ natDigits n, isAsciiDigit c = true := by
  fun_induction natDigits n with
  | case1 n h =>
    intro c hc
    rw [List.mem_singleton.1 hc]
    exact isAsciiDigit_digitChar h
  | case2 n h ih =>
    intro c hc
    rcases List.mem_append.1 hc with hc | hc
    · exact ih c hc
    · rw [List.mem_singleton.1 hc]
      exact isAsciiDigit_digitChar (by omega)

theorem natDigits_ne_nil (n : Nat) : natDigits n ≠ [] := by
  unfold natDigits
  split <;> simp

theorem head?_natDigits {n : Nat} (h : 0 < n) : (natDigits n).head? ≠ some '0' := by
  fun_induction natDigits n with
  | case1 n hn => simpa using digitChar_ne_zero h hn
  | case2 n hn ih =>
    rw [List.head?_append, Option.or_of_isSome (by simp [natDigits_ne_nil])]
    exact ih (by omega)

theorem natDigits_zero : natDigits 0 = ['0'] := by
  unfold natDigits
  rfl

def Undigited (rest : List Char) : Prop := ∀ c, rest.head? = some c → isAsciiDigit c = false

theorem spanDigits_of_undigited {digits rest : List Char}
    (hdigits : ∀ c ∈ digits, isAsciiDigit c = true) (hrest : Undigited rest) :
    spanDigits (digits ++ rest) = (digits, rest) := by
  unfold spanDigits
  rw [List.takeWhile_append_of_pos hdigits, List.dropWhile_append_of_pos hdigits]
  cases rest with
  | nil => simp
  | cons c rest => simp [List.takeWhile, List.dropWhile, hrest c rfl]

/-- A row of digits that starts with a zero only if it is one. -/
structure Whole (digits : List Char) : Prop where
  nonempty : digits ≠ []
  digit : ∀ c ∈ digits, isAsciiDigit c = true
  zero : digits.head? = some '0' → digits = ['0']

theorem whole_zero : Whole ['0'] where
  nonempty := by simp
  digit := by
    intro c hc
    rw [List.mem_singleton.1 hc]
    rfl
  zero := fun _ => rfl

theorem whole_natDigits (n : Nat) : Whole (natDigits n) where
  nonempty := natDigits_ne_nil n
  digit := natDigits_digits n
  zero := by
    intro h
    by_cases hn : n = 0
    · rw [hn, natDigits_zero]
    · exact absurd h (head?_natDigits (by omega))

theorem whole_natDigits_take {n k : Nat} (hn : 0 < n) (hk : 0 < k) :
    Whole ((natDigits n).take k) where
  nonempty := by
    have := natDigits_ne_nil n
    simp [List.take_eq_nil_iff, this]
    omega
  digit := by
    intro c hc
    exact natDigits_digits n c (List.mem_of_mem_take hc)
  zero := by
    intro h
    rw [List.head?_take, if_neg (by omega)] at h
    exact absurd h (head?_natDigits hn)

theorem whole_natDigits_append {n : Nat} (hn : 0 < n) {zeros : List Char}
    (h : ∀ c ∈ zeros, isAsciiDigit c = true) : Whole (natDigits n ++ zeros) where
  nonempty := by simp [natDigits_ne_nil]
  digit := by
    intro c hc
    rcases List.mem_append.1 hc with hc | hc
    · exact natDigits_digits n c hc
    · exact h c hc
  zero := by
    intro h
    rw [List.head?_append, Option.or_of_isSome (by simp [natDigits_ne_nil])] at h
    exact absurd h (head?_natDigits hn)

theorem isAsciiDigit_of_mem_replicate {k : Nat} {c : Char} (h : c ∈ List.replicate k '0') :
    isAsciiDigit c = true := by
  rw [List.eq_of_mem_replicate h]
  rfl

namespace Decimal

theorem magnitude_ofDigits_whole (x : Decimal) {e : Nat} (h : x.exponent = .ofNat e) :
    (ofDigits (natDigits x.digits ++ List.replicate e '0') ['0'] 0).magnitude = x.magnitude := by
  have hvalue : digitsValue (natDigits x.digits ++ List.replicate e '0' ++ ['0']) =
      x.digits * 10 ^ (e + 1) := by
    rw [List.append_assoc, ← List.replicate_succ', digitsValue_append, digitsValue_natDigits,
      digitsValue_zeros, List.length_replicate]
    rfl
  unfold ofDigits
  rw [hvalue, magnitude_mul_pow]
  congr 2
  rw [h, List.length_singleton]
  change 0 - ((1 : Nat) : Int) + ((e + 1 : Nat) : Int) = (e : Int)
  omega

theorem ofDigits_split (x : Decimal) {e k : Nat} (h : x.exponent = .negSucc e)
    (hk : k + (e + 1) = (natDigits x.digits).length) :
    ofDigits ((natDigits x.digits).take k) ((natDigits x.digits).drop k) 0 = x := by
  unfold ofDigits
  rw [List.take_append_drop, digitsValue_natDigits, List.length_drop]
  congr 1
  omega

theorem ofDigits_padded (x : Decimal) {e : Nat} (h : x.exponent = .negSucc e)
    (hshort : (natDigits x.digits).length ≤ e + 1) :
    ofDigits ['0'] (List.replicate (e + 1 - (natDigits x.digits).length) '0' ++ natDigits x.digits)
      0 = x := by
  unfold ofDigits
  rw [← List.append_assoc, digitsValue_append, digitsValue_natDigits, List.singleton_append,
    ← List.replicate_succ, digitsValue_zeros, Nat.zero_mul, Nat.zero_add, List.length_append,
    List.length_replicate]
  congr 1
  omega

theorem ofDigits_scientific (x : Decimal) :
    ofDigits ((natDigits x.digits).take 1) ((natDigits x.digits).drop 1)
      (x.exponent + (natDigits x.digits).length - 1) = x := by
  have hlength : 0 < (natDigits x.digits).length :=
    List.length_pos_iff.2 (natDigits_ne_nil x.digits)
  unfold ofDigits
  rw [List.take_append_drop, digitsValue_natDigits, List.length_drop]
  congr 1
  omega

theorem parts_of_whole {x : Decimal} {e : Nat} (h : x.exponent = .ofNat e) :
    x.parts = (natDigits x.digits ++ List.replicate e '0', []) := by
  simp only [parts, h]

theorem parts_of_fraction {x : Decimal} (hpos : 0 < x.digits) {e : Nat}
    (h : x.exponent = .negSucc e) :
    ∃ whole fraction, x.parts = (whole, fraction) ∧ Whole whole ∧ fraction ≠ [] ∧
      (∀ c ∈ fraction, isAsciiDigit c = true) ∧ ofDigits whole fraction 0 = x := by
  simp only [parts, h]
  split
  · rename_i hlong
    refine ⟨_, _, rfl, whole_natDigits_take hpos (by omega), ?_, ?_, ofDigits_split x h (by omega)⟩
    · simp only [ne_eq, List.drop_eq_nil_iff]
      omega
    · intro c hc
      exact natDigits_digits _ c (List.mem_of_mem_drop hc)
  · rename_i hshort
    refine ⟨_, _, rfl, whole_zero, ?_, ?_, ofDigits_padded x h (by omega)⟩
    · simp [natDigits_ne_nil]
    · intro c hc
      rcases List.mem_append.1 hc with hc | hc
      · exact isAsciiDigit_of_mem_replicate hc
      · exact natDigits_digits _ c hc

theorem literal_cases {x : Decimal} (hpos : 0 < x.digits) :
    (∃ whole fraction, x.literal = whole ++ '.' :: fraction ∧ Whole whole ∧ fraction ≠ [] ∧
      (∀ c ∈ fraction, isAsciiDigit c = true) ∧
      (ofDigits whole fraction 0).magnitude = x.magnitude) ∨ x.literal = x.scientific := by
  unfold literal
  dsimp only
  split
  · left
    cases h : x.exponent with
    | ofNat e =>
      rw [parts_of_whole h]
      refine ⟨_, ['0'], rfl, ?_, whole_zero.nonempty, whole_zero.digit,
        magnitude_ofDigits_whole x h⟩
      exact whole_natDigits_append hpos fun c hc => isAsciiDigit_of_mem_replicate hc
    | negSucc e =>
      obtain ⟨whole, fraction, hparts, hwhole, hne, hdigits, hx⟩ := parts_of_fraction hpos h
      rw [hparts]
      refine ⟨whole, fraction, ?_, hwhole, hne, hdigits, by rw [hx]⟩
      cases fraction with
      | nil => exact absurd rfl hne
      | cons c fraction => rfl
  · right
    rfl

end Decimal

end Lox
