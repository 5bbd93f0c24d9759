import Lox.Datum.Read
import Lox.Datum.Write
import Lox.Proofs.Number.Digits

/-!
Numbers in data files. Whole numbers and binary64 numbers are read back from the text they are
written as, whatever follows it, as long as that does not go on with the number.
-/
namespace Lox

/-- What follows does not go on with a number. -/
def Unnumbered (rest : List Char) : Prop :=
  ∀ c, rest.head? = some c → isAsciiDigit c = false ∧ c ≠ '.' ∧ c ≠ 'e' ∧ c ≠ 'E'

theorem Unnumbered.undigited {rest : List Char} (h : Unnumbered rest) : Undigited rest :=
  fun c hc => (h c hc).1

theorem undigited_cons {c : Char} (h : isAsciiDigit c = false) (rest : List Char) :
    Undigited (c :: rest) := by
  intro d hd
  rw [← Option.some.inj hd, h]

def withSign (negative : Bool) (text : List Char) : List Char :=
  if negative then '-' :: text else text

theorem withSign_append (negative : Bool) (a b : List Char) :
    withSign negative a ++ b = withSign negative (a ++ b) := by
  cases negative <;> rfl

namespace Number

theorem ofMagnitude_self (x : Number) : ofMagnitude x.negative x.magnitude = x := by
  cases x with
  | mk bits =>
    have hbits : bits.toNat < 2 ^ 64 := bits.toNat_lt
    unfold ofMagnitude negative magnitude
    congr 1
    apply UInt64.toNat_inj.1
    simp only [Nat.pow_eq, UInt64.toNat_ofNat', decide_eq_true_eq]
    split <;> omega

theorem magnitude_ofMagnitude (negative : Bool) {m : Nat} (h : m ≤ infinite) :
    (ofMagnitude negative m).magnitude = m := by
  have hinfinite : infinite < 2 ^ 63 := by decide
  unfold ofMagnitude magnitude
  simp only [Nat.pow_eq, UInt64.toNat_ofNat']
  split <;> omega

theorem isNaN_ofDecimal (negative : Bool) (x : Decimal) : (ofDecimal negative x).isNaN = false := by
  have hle := Decimal.magnitude_le x
  rw [isNaN, ofDecimal, magnitude_ofMagnitude negative hle]
  exact decide_eq_false (by omega)

theorem isFinite_of {x : Number} (hnan : x.isNaN = false) (h : x.isInfinite = false) :
    x.isFinite = true := by
  have hle : ¬infinite < x.magnitude := of_decide_eq_false hnan
  have hne : ¬x.magnitude = infinite := of_decide_eq_false h
  exact decide_eq_true (by omega)

end Number

namespace Datum

theorem readWhole?_append {whole rest : List Char} (hwhole : Whole whole)
    (hrest : Undigited rest) : readWhole? (whole ++ rest) = some (whole, rest) := by
  by_cases hzero : whole.head? = some '0'
  · rw [hwhole.zero hzero]
    rfl
  · have hspan := spanDigits_of_undigited hwhole.digit hrest
    unfold readWhole?
    split
    · rename_i r htext
      have hhead := congrArg List.head? htext
      rw [List.head?_append, Option.or_of_isSome (by simp [hwhole.nonempty])] at hhead
      exact absurd hhead hzero
    · simp only [hspan, hwhole.nonempty, if_false]

theorem readFraction_point {fraction rest : List Char} (hne : fraction ≠ [])
    (hdigits : ∀ c ∈ fraction, isAsciiDigit c = true) (hrest : Undigited rest) :
    readFraction ('.' :: (fraction ++ rest)) = (fraction, rest) := by
  simp only [readFraction, spanDigits_of_undigited hdigits hrest, hne, if_false]

theorem readFraction_none {rest : List Char} (h : rest.head? ≠ some '.') :
    readFraction rest = ([], rest) := by
  unfold readFraction
  split
  · exact absurd rfl h
  · rfl

theorem readExponent_mark (negative : Bool) {digits rest : List Char} (hne : digits ≠ [])
    (hdigits : ∀ c ∈ digits, isAsciiDigit c = true) (hrest : Undigited rest) :
    readExponent ('e' :: (if negative then '-' else '+') :: (digits ++ rest)) =
      some (if negative then -(digitsValue digits : Int) else digitsValue digits, rest) := by
  cases negative <;> simp [readExponent, spanDigits_of_undigited hdigits hrest, hne]

theorem readExponent_none {rest : List Char} (h : Unnumbered rest) : readExponent rest = none := by
  cases rest with
  | nil => rfl
  | cons c rest => simp [readExponent, (h c rfl).2.2.1, (h c rfl).2.2.2]

section Parts

variable {text whole fraction r r' : List Char} (hhead : text.head? ≠ some '-')
  (hwhole : readWhole? text = some (whole, r)) (hfraction : readFraction r = (fraction, r'))

include hhead hwhole hfraction

theorem readNumber?_of_exponent (negative : Bool) {exponent : Int} {rest : List Char}
    (h : readExponent r' = some (exponent, rest)) :
    readNumber? (withSign negative text) =
      some (.num (Number.ofDecimal negative (Decimal.ofDigits whole fraction exponent)), rest) := by
  cases negative with
  | true => simp [readNumber?, withSign, hwhole, hfraction, h]
  | false =>
    cases text with
    | nil => simp [readNumber?, withSign, hwhole, hfraction, h]
    | cons c text =>
      have hc : c ≠ '-' := by simpa using hhead
      simp [readNumber?, withSign, hwhole, hfraction, h, hc]

theorem readNumber?_of_fraction (negative : Bool) (hne : fraction ≠ [])
    (h : readExponent r' = none) :
    readNumber? (withSign negative text) =
      some (.num (Number.ofDecimal negative (Decimal.ofDigits whole fraction 0)), r') := by
  cases negative with
  | true => simp [readNumber?, withSign, hwhole, hfraction, h, hne]
  | false =>
    cases text with
    | nil => simp [readNumber?, withSign, hwhole, hfraction, h, hne]
    | cons c text =>
      have hc : c ≠ '-' := by simpa using hhead
      simp [readNumber?, withSign, hwhole, hfraction, h, hc, hne]

theorem readNumber?_of_whole (negative : Bool) (hnil : fraction = [])
    (h : readExponent r' = none) :
    readNumber? (withSign negative text) =
      some (.int (if negative then -(digitsValue whole : Int) else digitsValue whole), r') := by
  cases negative with
  | true => simp [readNumber?, withSign, hwhole, hfraction, h, hnil]
  | false =>
    cases text with
    | nil => simp [readNumber?, withSign, hwhole, hfraction, h, hnil]
    | cons c text =>
      have hc : c ≠ '-' := by simpa using hhead
      simp [readNumber?, withSign, hwhole, hfraction, h, hc, hnil]

end Parts

theorem head?_ne_minus {digits : List Char} (hne : digits ≠ [])
    (hdigits : ∀ c ∈ digits, isAsciiDigit c = true) (rest : List Char) :
    (digits ++ rest).head? ≠ some '-' := by
  cases digits with
  | nil => exact absurd rfl hne
  | cons c digits =>
    intro h
    have hc := hdigits c List.mem_cons_self
    rw [Option.some.inj h] at hc
    exact absurd hc (by decide)

theorem toList_intText (n : Int) :
    (intText n).toList = withSign (decide (n < 0)) (natDigits n.natAbs) := by
  unfold intText natText withSign
  split <;> simp [*]

theorem readNumber?_intText (n : Int) {rest : List Char} (hrest : Unnumbered rest) :
    readNumber? ((intText n).toList ++ rest) = some (.int n, rest) := by
  have hwhole := whole_natDigits n.natAbs
  have hpoint : rest.head? ≠ some '.' := fun h => (hrest '.' h).2.1 rfl
  rw [toList_intText, withSign_append,
    readNumber?_of_whole (head?_ne_minus hwhole.nonempty hwhole.digit rest)
      (readWhole?_append hwhole hrest.undigited) (readFraction_none hpoint) _ rfl
      (readExponent_none hrest)]
  rw [digitsValue_natDigits]
  congr 3
  simp only [decide_eq_true_eq]
  split <;> omega

theorem readNumber?_point (negative : Bool) {whole fraction rest : List Char}
    (hwhole : Whole whole) (hne : fraction ≠ [])
    (hdigits : ∀ c ∈ fraction, isAsciiDigit c = true) (hrest : Unnumbered rest) :
    readNumber? (withSign negative (whole ++ '.' :: (fraction ++ rest))) =
      some (.num (Number.ofDecimal negative (Decimal.ofDigits whole fraction 0)), rest) := by
  have hpoint := undigited_cons (c := '.') rfl (fraction ++ rest)
  exact readNumber?_of_fraction (head?_ne_minus hwhole.nonempty hwhole.digit _)
    (readWhole?_append hwhole hpoint) (readFraction_point hne hdigits hrest.undigited) negative hne
    (readExponent_none hrest)

theorem readExponent_natDigits (e : Int) {rest : List Char} (hrest : Undigited rest) :
    readExponent ('e' :: (if e < 0 then '-' else '+') ::
        ((if (natDigits e.natAbs).length = 1 then '0' :: natDigits e.natAbs
          else natDigits e.natAbs) ++ rest)) = some (e, rest) := by
  have hvalue : digitsValue (if (natDigits e.natAbs).length = 1 then '0' :: natDigits e.natAbs
      else natDigits e.natAbs) = e.natAbs := by
    split
    · rw [← List.singleton_append, digitsValue_append, digitsValue_natDigits,
        show digitsValue ['0'] = 0 from rfl, Nat.zero_mul, Nat.zero_add]
    · exact digitsValue_natDigits _
  have hdigits : ∀ c ∈ (if (natDigits e.natAbs).length = 1 then '0' :: natDigits e.natAbs
      else natDigits e.natAbs), isAsciiDigit c = true := by
    intro c hc
    split at hc
    · rcases List.mem_cons.1 hc with hc | hc
      · rw [hc]
        rfl
      · exact natDigits_digits _ c hc
    · exact natDigits_digits _ c hc
  have hne : (if (natDigits e.natAbs).length = 1 then '0' :: natDigits e.natAbs
      else natDigits e.natAbs) ≠ [] := by
    split <;> simp [natDigits_ne_nil]
  have hread := readExponent_mark (decide (e < 0)) hne hdigits hrest
  simp only [decide_eq_true_eq, hvalue] at hread
  rw [hread]
  congr 2
  split <;> omega

theorem readNumber?_scientific (negative : Bool) {x : Decimal} (hpos : 0 < x.digits)
    {rest : List Char} (hrest : Unnumbered rest) :
    readNumber? (withSign negative (x.scientific ++ rest)) =
      some (.num (Number.ofDecimal negative x), rest) := by
  have hwhole := whole_natDigits_take (k := 1) hpos (by decide)
  have hexponent := readExponent_natDigits (x.exponent + (natDigits x.digits).length - 1)
    hrest.undigited
  have hmark := undigited_cons (c := 'e') rfl
  have hx := Decimal.ofDigits_scientific x
  unfold Decimal.scientific
  dsimp only
  simp only [List.append_assoc, List.cons_append]
  by_cases hone : (natDigits x.digits).length = 1
  · have hdrop : (natDigits x.digits).drop 1 = [] := by
      rw [List.drop_eq_nil_iff]
      omega
    rw [if_pos hone, List.nil_append]
    rw [hdrop] at hx
    rw [readNumber?_of_exponent (head?_ne_minus hwhole.nonempty hwhole.digit _)
      (readWhole?_append hwhole (hmark _)) (readFraction_none (by simp)) negative hexponent, hx]
  · have hne : (natDigits x.digits).drop 1 ≠ [] := by
      have := List.length_pos_iff.2 (natDigits_ne_nil x.digits)
      rw [ne_eq, List.drop_eq_nil_iff]
      omega
    have hdigits : ∀ c ∈ (natDigits x.digits).drop 1, isAsciiDigit c = true :=
      fun c hc => natDigits_digits _ c (List.mem_of_mem_drop hc)
    rw [if_neg hone, List.cons_append]
    rw [readNumber?_of_exponent (head?_ne_minus hwhole.nonempty hwhole.digit _)
      (readWhole?_append hwhole (undigited_cons rfl _))
      (readFraction_point hne hdigits (hmark _)) negative hexponent, hx]

theorem readNumber?_literal (negative : Bool) {x : Decimal} (hpos : 0 < x.digits)
    {rest : List Char} (hrest : Unnumbered rest) :
    readNumber? (withSign negative (x.literal ++ rest)) =
      some (.num (Number.ofDecimal negative x), rest) := by
  rcases Decimal.literal_cases hpos with ⟨whole, fraction, htext, hwhole, hne, hdigits, hx⟩ | htext
  · rw [htext, List.append_assoc, List.cons_append,
      readNumber?_point negative hwhole hne hdigits hrest, Number.ofDecimal, hx]
    rfl
  · rw [htext, readNumber?_scientific negative hpos hrest]

theorem dataText_cases {x : Number} (hfinite : x.isFinite = true) :
    x.magnitude = 0 ∧ (x.dataText fileNames).toList = withSign x.negative ['0', '.', '0'] ∨
      0 < (Decimal.shortest x.magnitude).digits ∧
        (Decimal.shortest x.magnitude).magnitude = x.magnitude ∧
        (x.dataText fileNames).toList =
          withSign x.negative (Decimal.shortest x.magnitude).literal := by
  have hlt : x.magnitude < Number.infinite := of_decide_eq_true hfinite
  have hnan : x.isNaN = false := decide_eq_false (by omega)
  have hinfinite : x.isInfinite = false := decide_eq_false (by omega)
  unfold Number.dataText
  rw [if_neg (by simp [hnan]), if_neg (by simp [hinfinite])]
  split
  · rename_i hzero
    left
    exact ⟨of_decide_eq_true hzero, String.toList_ofList⟩
  · rename_i hzero
    right
    have hne : ¬x.magnitude = 0 := fun h => hzero (decide_eq_true h)
    have hpos : 0 < x.magnitude := by omega
    exact ⟨Decimal.digits_shortest_pos hpos hlt, Decimal.magnitude_shortest hpos hlt,
      String.toList_ofList⟩

theorem readNumber?_dataText {x : Number} (hfinite : x.isFinite = true) {rest : List Char}
    (hrest : Unnumbered rest) :
    readNumber? ((x.dataText fileNames).toList ++ rest) = some (.num x, rest) := by
  have hself := Number.ofMagnitude_self x
  rcases dataText_cases hfinite with ⟨hzero, htext⟩ | ⟨hpos, hmagnitude, htext⟩
  · have hread := readNumber?_point x.negative whole_zero whole_zero.nonempty whole_zero.digit hrest
    rw [htext, withSign_append]
    refine hread.trans ?_
    rw [hzero] at hself
    congr 3
  · rw [htext, withSign_append, readNumber?_literal x.negative hpos hrest, Number.ofDecimal,
      hmagnitude, hself]

def StartsNumeral (text : List Char) : Prop :=
  ∃ negative c r, isAsciiDigit c = true ∧ text = withSign negative (c :: r)

theorem StartsNumeral.append {text : List Char} (h : StartsNumeral text) (rest : List Char) :
    StartsNumeral (text ++ rest) := by
  obtain ⟨negative, c, r, hc, rfl⟩ := h
  exact ⟨negative, c, r ++ rest, hc, withSign_append ..⟩

theorem startsNumeral_withSign (negative : Bool) {digits : List Char} (h : Whole digits)
    (rest : List Char) : StartsNumeral (withSign negative (digits ++ rest)) := by
  cases digits with
  | nil => exact absurd rfl h.nonempty
  | cons c digits => exact ⟨negative, c, digits ++ rest, h.digit c List.mem_cons_self, rfl⟩

theorem startsNumeral_intText (n : Int) : StartsNumeral (intText n).toList := by
  have hstart := startsNumeral_withSign (decide (n < 0)) (whole_natDigits n.natAbs) []
  rw [List.append_nil] at hstart
  rw [toList_intText]
  exact hstart

theorem startsNumeral_dataText {x : Number} (hfinite : x.isFinite = true) :
    StartsNumeral (x.dataText fileNames).toList := by
  rcases dataText_cases hfinite with ⟨-, htext⟩ | ⟨hpos, -, htext⟩
  · rw [htext]
    exact startsNumeral_withSign x.negative whole_zero ['.', '0']
  · rw [htext]
    rcases Decimal.literal_cases hpos with ⟨whole, fraction, hliteral, hwhole, -⟩ | hliteral
    · rw [hliteral]
      exact startsNumeral_withSign x.negative hwhole _
    · rw [hliteral, Decimal.scientific, List.append_assoc]
      exact startsNumeral_withSign x.negative (whole_natDigits_take hpos (by decide)) _

theorem StartsNumeral.readName? {text : List Char} (h : StartsNumeral text) :
    readName? text = none := by
  obtain ⟨negative, c, r, hc, rfl⟩ := h
  have hn := isAsciiDigit_ne hc (d := 'n') rfl
  have ht := isAsciiDigit_ne hc (d := 't') rfl
  have hf := isAsciiDigit_ne hc (d := 'f') rfl
  have hN := isAsciiDigit_ne hc (d := 'N') rfl
  have hI := isAsciiDigit_ne hc (d := 'I') rfl
  have hminus := isAsciiDigit_ne hc (d := '-') rfl
  cases negative <;>
    simp [Datum.readName?, names, withSign, List.isPrefixOf, Ne.symm hn, Ne.symm ht, Ne.symm hf,
      Ne.symm hN, Ne.symm hI, Ne.symm hminus]

end Datum

end Lox
