import Lox.Proofs.Datum.Numeral
import Lox.Proofs.Lexeme.Pattern

/-!
The numbers that programs show. A finite number is written as digits, with a point and more digits
exactly if it is not whole; nothing could be left out in front or at the end, and the digits stand
for the number itself.
-/
namespace Lox

/-- Digits, or digits around a point. There is no zero in front but a lone one, and none at the end
of a fraction. -/
inductive Positional : List Char → Prop where
  | whole {digits : List Char} : Whole digits → Positional digits
  | fraction {whole digits : List Char} : Whole whole → digits ≠ [] →
      (∀ c ∈ digits, isAsciiDigit c = true) → digits.getLast? ≠ some '0' →
      Positional (whole ++ '.' :: digits)

theorem getLast?_natDigits (n : Nat) : (natDigits n).getLast? = some (digitChar (n % 10)) := by
  unfold natDigits
  split
  · rename_i h
    rw [Nat.mod_eq_of_lt h]
    rfl
  · exact List.getLast?_concat

namespace Number

theorem units_zero : units 0 = 0 := by
  unfold units
  simp

theorem negative_ofMagnitude (negative : Bool) {m : Nat} (h : m ≤ infinite) :
    (ofMagnitude negative m).negative = negative := by
  have hinfinite : infinite < 2 ^ 63 := by decide
  unfold ofMagnitude Number.negative
  simp only [Nat.pow_eq, UInt64.toNat_ofNat']
  cases negative with
  | false => exact decide_eq_false (by simp; omega)
  | true => exact decide_eq_true (by simp; omega)

theorem negate_ofMagnitude {m : Nat} (h : m ≤ infinite) :
    (ofMagnitude false m).negate = ofMagnitude true m := by
  rw [negate, negative_ofMagnitude false h, magnitude_ofMagnitude false h]
  rfl

theorem exists_units_whole {n l : Nat} (hn : n < 2 ^ 53) (hl : l = 1074) :
    ∃ m < infinite, units m = n * 2 ^ l := by
  obtain rfl | hpos := Nat.eq_zero_or_pos n
  · exact ⟨0, by decide, by rw [units_zero, Nat.zero_mul]⟩
  have hne : n ≠ 0 := Nat.ne_of_gt hpos
  obtain ⟨k, hk⟩ : ∃ k, n.log2 = k := ⟨_, rfl⟩
  obtain ⟨hlow, hhigh⟩ := (Nat.log2_eq_iff hne).1 hk
  have hk52 : k ≤ 52 := by
    have := (Nat.log2_lt hne).2 hn
    omega
  -- the digits are moved up until the first of them is in its place
  have hup : 2 ^ 52 ≤ n * 2 ^ (52 - k) := by
    calc 2 ^ 52 = 2 ^ k * 2 ^ (52 - k) := by rw [← Nat.pow_add]; congr 1; omega
      _ ≤ n * 2 ^ (52 - k) := Nat.mul_le_mul_right _ hlow
  have hbelow : n * 2 ^ (52 - k) < 2 ^ 53 := by
    calc n * 2 ^ (52 - k) < 2 ^ (k + 1) * 2 ^ (52 - k) :=
          Nat.mul_lt_mul_of_pos_right hhigh (Nat.two_pow_pos _)
      _ = 2 ^ 53 := by rw [← Nat.pow_add]; congr 1; omega
  refine ⟨(l + k - 51) * 2 ^ 52 + (n * 2 ^ (52 - k) - 2 ^ 52), ?_, ?_⟩
  · unfold infinite
    simp only [Nat.pow_eq]
    omega
  · rw [units_of_parts _ _ (by omega), if_neg (by omega), Nat.add_sub_cancel' hup, Nat.mul_assoc,
      ← Nat.pow_add]
    congr 2
    omega

theorem oneInUnits_dvd_units {m l : Nat} (hl : l = 1074) (h : (l + 2) * 2 ^ 52 ≤ m) :
    oneInUnits ∣ units m := by
  have hexponent : l + 2 ≤ m / 2 ^ 52 := (Nat.le_div_iff_mul_le (by decide)).2 h
  rw [oneInUnits_eq hl]
  unfold units
  simp only [Nat.pow_eq]
  rw [if_neg (by omega)]
  exact Dvd.dvd.mul_left (Nat.pow_dvd_pow 2 (by omega)) _

theorem floorMagnitude_ge {n l : Nat} (hl : l = 1074) (h : 2 ^ (53 + l) ≤ n) :
    (l + 2) * 2 ^ 52 ≤ floorMagnitude n := by
  have hne : n ≠ 0 := Nat.ne_of_gt (Nat.lt_of_lt_of_le (Nat.two_pow_pos _) h)
  have hlog : 53 + l ≤ n.log2 := (Nat.le_log2 hne).2 h
  have htop : 2 ^ 52 ≤ n / 2 ^ (n.log2 - 52) := by
    rw [Nat.le_div_iff_mul_le (Nat.two_pow_pos _), ← Nat.pow_add]
    calc 2 ^ (52 + (n.log2 - 52)) = 2 ^ n.log2 := by congr 1; omega
      _ ≤ n := Nat.log2_self_le hne
  unfold floorMagnitude infinite
  simp only [Nat.pow_eq]
  omega

theorem floorMagnitude_le_nearest (n d : Nat) : floorMagnitude (n / d) ≤ nearest n d := by
  unfold nearest
  dsimp only
  split
  · rename_i hlow
    exact Nat.le_of_eq hlow
  · split <;> omega

theorem oneInUnits_dvd_nearest (n : Nat) : oneInUnits ∣ units (nearest (n * oneInUnits) 1) := by
  obtain ⟨l, hl⟩ : ∃ l : Nat, l = 1074 := ⟨_, rfl⟩
  by_cases hn : n < 2 ^ 53
  · obtain ⟨m, hm, hunits⟩ := exists_units_whole hn hl
    have hexact : nearest (n * oneInUnits) 1 = m := by
      rw [oneInUnits_eq hl, ← hunits, ← Nat.mul_one (units m)]
      exact nearest_units hm Nat.one_pos
    rw [hexact, hunits, oneInUnits_eq hl]
    exact Nat.dvd_mul_left _ _
  · apply oneInUnits_dvd_units hl
    have hlarge : 2 ^ (53 + l) ≤ n * oneInUnits / 1 := by
      rw [Nat.div_one, oneInUnits_eq hl, Nat.pow_add]
      exact Nat.mul_le_mul_right _ (by omega)
    exact Nat.le_trans (floorMagnitude_ge hl hlarge) (floorMagnitude_le_nearest _ _)

end Number

namespace Decimal

theorem magnitude_whole {n e : Nat} (hn : n ≠ 0) (he : e ≤ 400) :
    magnitude ⟨n, .ofNat e⟩ = Number.nearest (n * 10 ^ e * Number.oneInUnits) 1 := by
  have hlarge : ¬400 < Int.ofNat e := by
    simp only [Int.ofNat_eq_natCast]
    omega
  have hsmall : ¬Int.ofNat e + (width n : Int) < -400 := by
    simp only [Int.ofNat_eq_natCast]
    omega
  rw [magnitude_eq, if_neg hn, if_neg hlarge, if_neg hsmall, scaled_ofNat]

theorem oneInUnits_dvd_magnitude {x : Decimal} {e : Nat} (he : x.exponent = .ofNat e)
    (h : x.magnitude < Number.infinite) : Number.oneInUnits ∣ Number.units x.magnitude := by
  obtain ⟨n, exponent⟩ := x
  cases he
  by_cases hn : n = 0
  · rw [magnitude, if_pos hn, Number.units_zero]
    exact Nat.dvd_zero _
  by_cases hlarge : e ≤ 400
  · rw [magnitude_whole hn hlarge]
    exact Number.oneInUnits_dvd_nearest _
  · rw [magnitude_eq, if_neg hn, if_pos (by simp only [Int.ofNat_eq_natCast]; omega)] at h
    exact absurd h (Nat.lt_irrefl _)

theorem digits_normal_mod_ten {fuel : Nat} {x : Decimal} (hpos : 0 < x.digits)
    (h : width x.digits ≤ fuel) : (normal fuel x).digits % 10 ≠ 0 := by
  induction fuel generalizing x with
  | zero =>
    rw [width_of_pos hpos] at h
    omega
  | succ fuel ih =>
    unfold normal
    split
    · rename_i hzero
      rw [width_of_pos hpos] at h
      exact ih (show 0 < x.digits / 10 by omega) (by dsimp only; omega)
    · rename_i hzero
      exact hzero

theorem digits_shortest_mod_ten {m : Nat} (hpos : 0 < m) (hm : m < Number.infinite) :
    (shortest m).digits % 10 ≠ 0 := by
  obtain ⟨x, hx, hshortest⟩ := exists_shortest hpos hm
  rw [hshortest]
  refine digits_normal_mod_ten (Nat.pos_of_ne_zero fun hzero => ?_) (Nat.le_refl _)
  rw [magnitude, if_pos hzero] at hx
  omega

theorem getLast?_fraction {x : Decimal} {e : Nat} (h : x.exponent = .negSucc e) :
    x.parts.2.getLast? = some (digitChar (x.digits % 10)) := by
  simp only [parts, h]
  split
  · rw [List.getLast?_drop, if_neg (by omega), getLast?_natDigits]
  · rw [List.getLast?_append, getLast?_natDigits]
    rfl

theorem positional_of_fraction {x : Decimal} {whole fraction : List Char}
    (h : x.parts = (whole, fraction)) (hne : fraction ≠ []) :
    x.positional = whole ++ '.' :: fraction := by
  unfold positional
  rw [h]
  cases fraction with
  | nil => exact absurd rfl hne
  | cons c fraction => rfl

theorem exists_positional {x : Decimal} {e : Nat} (hpos : 0 < x.digits) (hten : x.digits % 10 ≠ 0)
    (h : x.exponent = .negSucc e) :
    Positional x.positional ∧ ∃ whole fraction, Whole whole ∧
      x.positional = whole ++ '.' :: fraction ∧ ofDigits whole fraction 0 = x := by
  obtain ⟨whole, fraction, hparts, hwhole, hne, hdigits, hx⟩ := parts_of_fraction hpos h
  have htext := positional_of_fraction hparts hne
  have hlast : fraction.getLast? ≠ some '0' := by
    have hfraction := getLast?_fraction h
    rw [hparts] at hfraction
    rw [hfraction, ne_eq, Option.some.injEq]
    exact digitChar_ne_zero (Nat.pos_of_ne_zero hten) (Nat.mod_lt _ (by decide))
  refine ⟨?_, whole, fraction, hwhole, htext, hx⟩
  rw [htext]
  exact .fraction hwhole hne hdigits hlast

end Decimal

namespace Number

theorem magnitude_of_units {m n : Nat} (hm : m < infinite) (h : units m = n * oneInUnits) :
    Decimal.magnitude ⟨n, .ofNat 0⟩ = m := by
  by_cases hn : n = 0
  · rw [hn, Nat.zero_mul] at h
    rw [Decimal.magnitude, if_pos hn]
    by_contra hne
    exact absurd h (Nat.ne_of_gt (units_pos (by omega)))
  · rw [Decimal.magnitude_whole hn (by decide), Nat.pow_zero, Nat.mul_one, ← h,
      ← Nat.mul_one (units m)]
    exact nearest_units hm Nat.one_pos

theorem numberValue_eq {text whole rest : List Char} (h : spanDigits text = (whole, rest)) :
    Lexeme.numberValue text = ofDecimal false (Decimal.ofDigits whole (rest.drop 1) 0) := by
  unfold Lexeme.numberValue
  rw [h]

theorem numberValue_whole {digits : List Char} (h : Whole digits) :
    Lexeme.numberValue digits = ofDecimal false (Decimal.ofDigits digits [] 0) := by
  rw [numberValue_eq (spanDigits_all h.digit), List.drop_nil]

theorem numberValue_point {whole : List Char} (h : Whole whole) (fraction : List Char) :
    Lexeme.numberValue (whole ++ '.' :: fraction) =
      ofDecimal false (Decimal.ofDigits whole fraction 0) :=
  numberValue_eq (spanDigits_point h.digit)

theorem ofDigits_natDigits (n : Nat) : Decimal.ofDigits (natDigits n) [] 0 = ⟨n, .ofNat 0⟩ := by
  rw [Decimal.ofDigits, List.append_nil, digitsValue_natDigits]
  rfl

theorem pos_of_units_mod {m : Nat} (h : units m % oneInUnits ≠ 0) : 0 < m := by
  by_contra hzero
  obtain rfl : m = 0 := Nat.eq_zero_of_not_pos hzero
  rw [units_zero, Nat.zero_mod] at h
  exact h rfl

theorem displayMagnitude_positional {m : Nat} (hm : m < infinite) :
    Positional (displayMagnitude m) ∧
      Lexeme.numberValue (displayMagnitude m) = ofMagnitude false m := by
  unfold displayMagnitude
  split
  · rename_i hwhole
    have hunits := (Nat.div_mul_cancel (Nat.dvd_of_mod_eq_zero hwhole)).symm
    have hdigits := whole_natDigits (units m / oneInUnits)
    refine ⟨.whole hdigits, ?_⟩
    rw [numberValue_whole hdigits, ofDigits_natDigits, ofDecimal, magnitude_of_units hm hunits]
  · rename_i hpart
    have hpos := pos_of_units_mod hpart
    have hmagnitude := Decimal.magnitude_shortest hpos hm
    cases he : (Decimal.shortest m).exponent with
    | ofNat e =>
      have hdvd := Decimal.oneInUnits_dvd_magnitude he (by rwa [hmagnitude])
      rw [hmagnitude] at hdvd
      exact absurd (Nat.mod_eq_zero_of_dvd hdvd) hpart
    | negSucc e =>
      obtain ⟨hpositional, whole, fraction, hwhole, htext, hx⟩ := Decimal.exists_positional
        (Decimal.digits_shortest_pos hpos hm) (Decimal.digits_shortest_mod_ten hpos hm) he
      refine ⟨hpositional, ?_⟩
      rw [htext, numberValue_point hwhole fraction, hx, ofDecimal, hmagnitude]

theorem toList_display {x : Number} (h : x.isFinite = true) :
    x.display.toList = x.signed (displayMagnitude x.magnitude) := by
  have hlt : x.magnitude < infinite := of_decide_eq_true h
  have hnan : x.isNaN = false := decide_eq_false (by omega)
  have hinfinite : x.isInfinite = false := decide_eq_false (by omega)
  rw [display, if_neg (by simp [hnan]), if_neg (by simp [hinfinite]), String.toList_ofList]

end Number

end Lox
