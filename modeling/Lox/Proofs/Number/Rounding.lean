import Lox.Number.Decimal
import Mathlib.Tactic.Ring

/-!
Rounding a decimal to the nearest number. The result depends on the value of the decimal only, so
zeros may be moved between the digits and the exponent, and a decimal that is exactly a number
gives that number back. Hence the shortest decimal of a number reads back as it.
-/
namespace Lox

namespace Number

theorem units_of_parts (e f : Nat) (hf : f < 2 ^ 52) :
    units (e * 2 ^ 52 + f) = if e = 0 then f else (2 ^ 52 + f) * 2 ^ (e - 1) := by
  have hdiv : (e * 2 ^ 52 + f) / 2 ^ 52 = e := by omega
  have hmod : (e * 2 ^ 52 + f) % 2 ^ 52 = f := by omega
  unfold units
  simp only [Nat.pow_eq, hdiv, hmod]
  split
  · omega
  · rfl

theorem log2_mul_pow {n k : Nat} (hlow : 2 ^ 52 ≤ n) (hhigh : n < 2 ^ 53) :
    (n * 2 ^ k).log2 = 52 + k := by
  have hpos : 0 < 2 ^ k := Nat.two_pow_pos k
  have hne : n * 2 ^ k ≠ 0 := Nat.mul_ne_zero (by omega) (by omega)
  rw [Nat.log2_eq_iff hne]
  constructor
  · calc 2 ^ (52 + k) = 2 ^ 52 * 2 ^ k := Nat.pow_add 2 52 k
      _ ≤ n * 2 ^ k := Nat.mul_le_mul_right _ hlow
  · calc n * 2 ^ k < 2 ^ 53 * 2 ^ k := Nat.mul_lt_mul_of_pos_right hhigh hpos
      _ = 2 ^ (53 + k) := (Nat.pow_add 2 53 k).symm
      _ = 2 ^ (52 + k + 1) := by congr 1; omega

theorem floorMagnitude_units {m : Nat} (h : m ≤ infinite) : floorMagnitude (units m) = m := by
  obtain ⟨e, f, hf, rfl⟩ : ∃ e f, f < 2 ^ 52 ∧ m = e * 2 ^ 52 + f :=
    ⟨m / 2 ^ 52, m % 2 ^ 52, Nat.mod_lt _ (by decide), by omega⟩
  rw [units_of_parts e f hf]
  unfold floorMagnitude
  simp only [Nat.pow_eq]
  by_cases he : e = 0
  · have hlog : f.log2 - 52 = 0 := by
      by_cases hzero : f = 0
      · simp [hzero]
      · have := (Nat.log2_lt hzero).2 hf
        omega
    simp only [he, if_true, hlog]
    simp only [he] at h
    omega
  · have hlog : ((2 ^ 52 + f) * 2 ^ (e - 1)).log2 - 52 = e - 1 := by
      rw [log2_mul_pow (by omega) (by omega)]
      omega
    rw [if_neg he, hlog, Nat.mul_div_cancel _ (Nat.two_pow_pos _)]
    omega

theorem units_lt_succ (m : Nat) : units m < units (m + 1) := by
  obtain ⟨e, f, hf, rfl⟩ : ∃ e f, f < 2 ^ 52 ∧ m = e * 2 ^ 52 + f :=
    ⟨m / 2 ^ 52, m % 2 ^ 52, Nat.mod_lt _ (by decide), by omega⟩
  rw [units_of_parts e f hf]
  by_cases hlast : f + 1 < 2 ^ 52
  · rw [Nat.add_assoc, units_of_parts e (f + 1) hlast]
    split
    · omega
    · exact Nat.mul_lt_mul_of_pos_right (by omega) (Nat.two_pow_pos _)
  · -- the next magnitude starts the next power of two
    have hnext : e * 2 ^ 52 + f + 1 = (e + 1) * 2 ^ 52 + 0 := by omega
    rw [hnext, units_of_parts (e + 1) 0 (by decide)]
    rw [if_neg (Nat.succ_ne_zero e), Nat.add_sub_cancel, Nat.add_zero]
    split
    · rename_i he
      rw [he]
      omega
    · rename_i he
      have hpow : 2 ^ e = 2 * 2 ^ (e - 1) := by
        rw [← Nat.pow_succ', Nat.succ_eq_add_one, Nat.sub_add_cancel (Nat.pos_of_ne_zero he)]
      calc (2 ^ 52 + f) * 2 ^ (e - 1) < 2 ^ 53 * 2 ^ (e - 1) :=
            Nat.mul_lt_mul_of_pos_right (by omega) (Nat.two_pow_pos _)
        _ = 2 ^ 52 * 2 ^ e := by rw [hpow]; ring

theorem units_pos {m : Nat} (h : 0 < m) : 0 < units m := by
  cases m with
  | zero => omega
  | succ m => exact Nat.zero_lt_of_lt (units_lt_succ m)

theorem floorMagnitude_of_large {n k : Nat} (hk : 2098 ≤ k) (h : 2 ^ k ≤ n) :
    floorMagnitude n = infinite := by
  have hne : n ≠ 0 := Nat.ne_of_gt (Nat.lt_of_lt_of_le (Nat.two_pow_pos k) h)
  have hlog : k ≤ n.log2 := (Nat.le_log2 hne).2 h
  have htop : 2 ^ 52 ≤ n / 2 ^ (n.log2 - 52) := by
    rw [Nat.le_div_iff_mul_le (Nat.two_pow_pos _), ← Nat.pow_add]
    calc 2 ^ (52 + (n.log2 - 52)) = 2 ^ n.log2 := by congr 1; omega
      _ ≤ n := Nat.log2_self_le hne
  unfold floorMagnitude infinite
  simp only [Nat.pow_eq]
  omega

theorem oneInUnits_eq {l : Nat} (hl : l = 1074) : oneInUnits = 2 ^ l := by
  unfold oneInUnits
  apply congrArg (Nat.pow 2)
  exact hl.symm

theorem compare_mul_right (a b : Nat) {k : Nat} (hk : 0 < k) :
    compare (a * k) (b * k) = compare a b := by
  rcases Nat.lt_trichotomy a b with h | h | h
  · rw [Nat.compare_eq_lt.2 h, Nat.compare_eq_lt.2 (Nat.mul_lt_mul_of_pos_right h hk)]
  · rw [Nat.compare_eq_eq.2 h, Nat.compare_eq_eq.2 (by rw [h])]
  · rw [Nat.compare_eq_gt.2 h, Nat.compare_eq_gt.2 (Nat.mul_lt_mul_of_pos_right h hk)]

theorem nearest_mul_right (n d : Nat) {k : Nat} (hk : 0 < k) :
    nearest (n * k) (d * k) = nearest n d := by
  unfold nearest
  simp only [Nat.mul_div_mul_right n d hk, ← Nat.mul_assoc, compare_mul_right _ _ hk]

theorem nearest_units {m d : Nat} (hm : m < infinite) (hd : 0 < d) :
    nearest (units m * d) d = m := by
  have hlow : floorMagnitude (units m * d / d) = m := by
    rw [Nat.mul_div_cancel _ hd, floorMagnitude_units (Nat.le_of_lt hm)]
  have hcompare : compare (2 * (units m * d)) ((units m + units (m + 1)) * d) = .lt := by
    rw [← Nat.mul_assoc, compare_mul_right _ _ hd, Nat.compare_eq_lt]
    have := units_lt_succ m
    omega
  unfold nearest
  simp only [hlow, if_neg (Nat.ne_of_lt hm), hcompare]

theorem nearest_le (n d : Nat) : nearest n d ≤ infinite := by
  have hlow : floorMagnitude (n / d) ≤ infinite := Nat.min_le_left _ _
  unfold nearest
  dsimp only
  split
  · exact Nat.le_refl _
  · split <;> omega

theorem nearest_of_large {n k : Nat} (hk : 2098 ≤ k) (h : 2 ^ k ≤ n) :
    nearest n 1 = infinite := by
  unfold nearest
  simp only [Nat.div_one, floorMagnitude_of_large hk h, if_true]

end Number

namespace Decimal

theorem width_of_pos {n : Nat} (h : 0 < n) : width n = width (n / 10) + 1 := by
  rw [width, if_neg (Nat.ne_of_gt h)]

theorem width_mul_ten {n : Nat} (h : 0 < n) : width (n * 10) = width n + 1 := by
  rw [width_of_pos (by omega), Nat.mul_div_cancel _ (by decide)]

theorem lt_width_of_pow_le {k n : Nat} (h : 10 ^ k ≤ n) : k < width n := by
  induction k generalizing n with
  | zero =>
    rw [width_of_pos h]
    omega
  | succ k ih =>
    have hpos : 0 < n := Nat.lt_of_lt_of_le (Nat.pow_pos (by decide)) h
    have hdiv : 10 ^ k ≤ n / 10 := by
      rw [Nat.le_div_iff_mul_le (by decide), ← Nat.pow_succ]
      exact h
    have := ih hdiv
    rw [width_of_pos hpos]
    omega

theorem two_pow_le_scaled {n : Nat} (h : 0 < n) (e l : Nat) :
    2 ^ (3 * e + l) ≤ n * 10 ^ e * 2 ^ l := by
  have hten : 2 ^ (3 * e) ≤ 10 ^ e := by
    rw [Nat.pow_mul]
    exact Nat.pow_le_pow_left (by decide) e
  calc 2 ^ (3 * e + l) = 2 ^ (3 * e) * 2 ^ l := Nat.pow_add 2 (3 * e) l
    _ ≤ 10 ^ e * 2 ^ l := Nat.mul_le_mul_right _ hten
    _ ≤ n * 10 ^ e * 2 ^ l := Nat.mul_le_mul_right _ (Nat.le_mul_of_pos_left _ h)

def scaled (n : Nat) : Int → Nat
  | .ofNat e => Number.nearest (n * 10 ^ e * Number.oneInUnits) 1
  | .negSucc e => Number.nearest (n * Number.oneInUnits) (10 ^ (e + 1))

theorem magnitude_eq (n : Nat) (e : Int) :
    magnitude ⟨n, e⟩ =
      if n = 0 then 0 else if 400 < e then Number.infinite
      else if e + width n < -400 then 0 else scaled n e := by
  unfold magnitude
  cases e <;> rfl

@[simp] theorem scaled_ofNat (n e : Nat) :
    scaled n (.ofNat e) = Number.nearest (n * 10 ^ e * Number.oneInUnits) 1 := rfl

@[simp] theorem scaled_negSucc (n e : Nat) :
    scaled n (.negSucc e) = Number.nearest (n * Number.oneInUnits) (10 ^ (e + 1)) := rfl

theorem scaled_mul_ten (n : Nat) (e : Int) : scaled (n * 10) e = scaled n (e + 1) := by
  match e with
  | .ofNat e =>
    have hsucc : Int.ofNat e + 1 = Int.ofNat (e + 1) := rfl
    rw [hsucc, scaled_ofNat, scaled_ofNat, Nat.mul_assoc n 10, ← Nat.pow_succ']
  | .negSucc 0 =>
    have hzero : Int.negSucc 0 + 1 = Int.ofNat 0 := rfl
    rw [hzero, scaled_negSucc, scaled_ofNat, Nat.pow_zero, Nat.mul_one, Nat.zero_add, Nat.pow_one,
      Nat.mul_right_comm]
    exact Number.nearest_mul_right _ 1 (by decide)
  | .negSucc (e + 1) =>
    have hsucc : Int.negSucc (e + 1) + 1 = Int.negSucc e := rfl
    rw [hsucc, scaled_negSucc, scaled_negSucc, Nat.pow_succ, Nat.mul_right_comm]
    exact Number.nearest_mul_right _ (10 ^ (e + 1)) (by decide)

theorem scaled_of_large {n : Nat} (h : 0 < n) {e : Int} (he : 400 < e) :
    scaled n e = Number.infinite := by
  match e with
  | .ofNat e =>
    obtain ⟨l, hl⟩ : ∃ l : Nat, l = 1074 := ⟨_, rfl⟩
    have hlarge : 2098 ≤ 3 * e + l := by
      have : (400 : Int) < (e : Int) := he
      omega
    rw [scaled_ofNat, Number.oneInUnits_eq hl]
    exact Number.nearest_of_large hlarge (two_pow_le_scaled h e l)
  | .negSucc e => exact absurd he (by omega)

theorem magnitude_le (x : Decimal) : x.magnitude ≤ Number.infinite := by
  have hscaled (n : Nat) (e : Int) : scaled n e ≤ Number.infinite := by
    cases e <;> exact Number.nearest_le _ _
  obtain ⟨n, e⟩ := x
  rw [magnitude_eq]
  split
  · exact Nat.zero_le _
  split
  · exact Nat.le_refl _
  split
  · exact Nat.zero_le _
  · exact hscaled n e

theorem magnitude_mul_ten (n : Nat) (e : Int) :
    magnitude ⟨n * 10, e⟩ = magnitude ⟨n, e + 1⟩ := by
  rw [magnitude_eq, magnitude_eq]
  by_cases hzero : n = 0
  · simp [hzero]
  have hpos : 0 < n := Nat.pos_of_ne_zero hzero
  have hsum : e + (width (n * 10) : Int) = e + 1 + (width n : Int) := by
    rw [width_mul_ten hpos]
    omega
  rw [if_neg (show ¬n * 10 = 0 by omega), if_neg hzero, hsum, scaled_mul_ten]
  by_cases hlast : e = 400
  · -- only one of the two exponents is settled beforehand
    have hlow : ¬e + 1 + (width n : Int) < -400 := by omega
    rw [if_neg (show ¬400 < e by omega), if_pos (show 400 < e + 1 by omega), if_neg hlow]
    exact scaled_of_large hpos (by omega)
  · simp only [show 400 < e ↔ 400 < e + 1 by omega]

theorem magnitude_mul_pow (n k : Nat) (e : Int) :
    magnitude ⟨n * 10 ^ k, e⟩ = magnitude ⟨n, e + k⟩ := by
  induction k generalizing e with
  | zero => simp
  | succ k ih =>
    rw [Nat.pow_succ, ← Nat.mul_assoc, magnitude_mul_ten, ih]
    congr 2
    omega

theorem magnitude_normal (fuel : Nat) (x : Decimal) : (normal fuel x).magnitude = x.magnitude := by
  induction fuel generalizing x with
  | zero => rfl
  | succ fuel ih =>
    unfold normal
    split
    · rename_i hzero
      rw [ih, ← magnitude_mul_ten, Nat.div_mul_cancel (Nat.dvd_of_mod_eq_zero hzero)]
    · rfl

theorem scaled_units {m l : Nat} (hm : m < Number.infinite) (hl : l + 1 = 1074) :
    scaled (Number.units m * 5 ^ (l + 1)) (.negSucc l) = m := by
  have hten : 5 ^ (l + 1) * 2 ^ (l + 1) = 10 ^ (l + 1) := (Nat.mul_pow 5 2 (l + 1)).symm
  rw [scaled_negSucc, Number.oneInUnits_eq hl, Nat.mul_assoc, hten]
  exact Number.nearest_units hm (Nat.pow_pos (by decide))

theorem lt_width_mul_pow {n : Nat} (h : 0 < n) (k : Nat) : 2 * k < width (n * 5 ^ (3 * k)) := by
  apply lt_width_of_pow_le
  calc 10 ^ (2 * k) = (10 ^ 2) ^ k := Nat.pow_mul 10 2 k
    _ ≤ (5 ^ 3) ^ k := Nat.pow_le_pow_left (by decide) k
    _ = 5 ^ (3 * k) := (Nat.pow_mul 5 3 k).symm
    _ ≤ n * 5 ^ (3 * k) := Nat.le_mul_of_pos_left _ h

theorem exact_eq (m : Nat) {l : Nat} (hl : l + 1 = 1074) :
    exact m = ⟨Number.units m * 5 ^ (l + 1), .negSucc l⟩ := by
  have hexponent : (-1074 : Int) = .negSucc l := by omega
  rw [exact, hexponent, ← hl, Nat.pow_eq]

theorem magnitude_exact {m : Nat} (hpos : 0 < m) (hm : m < Number.infinite) :
    (exact m).magnitude = m := by
  obtain ⟨l, hl⟩ : ∃ l : Nat, l + 1 = 1074 := ⟨1073, rfl⟩
  have hunits : 0 < Number.units m := Number.units_pos hpos
  obtain ⟨k, hk, hlk⟩ : ∃ k : Nat, k = 358 ∧ l + 1 = 3 * k := ⟨358, rfl, hl⟩
  have hwidth : 2 * k < width (Number.units m * 5 ^ (l + 1)) := by
    rw [hlk]
    exact lt_width_mul_pow hunits k
  have hdigits : Number.units m * 5 ^ (l + 1) ≠ 0 :=
    Nat.mul_ne_zero (Nat.ne_of_gt hunits) (Nat.ne_of_gt (Nat.pow_pos (by decide)))
  have hexponent : Int.negSucc l = -1074 := by omega
  rw [exact_eq m hl, magnitude_eq, if_neg hdigits, if_neg (by omega), if_neg (by omega)]
  exact scaled_units hm hl

theorem magnitude_withDigits? {m count : Nat} {x : Decimal} (h : withDigits? m count = some x) :
    x.magnitude = m := by
  unfold withDigits? at h
  have hfound := List.find?_some h
  exact of_decide_eq_true hfound

/-- The shortest decimal is one that reads back, without the zeros at its end. -/
theorem exists_shortest {m : Nat} (hpos : 0 < m) (hm : m < Number.infinite) :
    ∃ x : Decimal, x.magnitude = m ∧ shortest m = normal (width x.digits) x := by
  refine ⟨_, ?_, rfl⟩
  cases hfound : (List.range' 1 17).findSome? (withDigits? m) with
  | none => exact magnitude_exact hpos hm
  | some x =>
    obtain ⟨count, -, hx⟩ := List.exists_of_findSome?_eq_some hfound
    exact magnitude_withDigits? hx

theorem magnitude_shortest {m : Nat} (hpos : 0 < m) (hm : m < Number.infinite) :
    (shortest m).magnitude = m := by
  obtain ⟨x, hx, hshortest⟩ := exists_shortest hpos hm
  rw [hshortest, magnitude_normal, hx]

theorem digits_shortest_pos {m : Nat} (hpos : 0 < m) (hm : m < Number.infinite) :
    0 < (shortest m).digits := by
  have hmagnitude := magnitude_shortest hpos hm
  by_contra hzero
  have hdigits : (shortest m).digits = 0 := by omega
  rw [magnitude, if_pos hdigits] at hmagnitude
  omega

end Decimal

end Lox
