import InfixCalculator.Proofs.Numeral

/-!
# Positional notation

With digits behind the point, the text of a decimal is a numeral that denotes the very same decimal:
`Decimal.decimal_toPlain`. The part before the point has no zero in front that could be left out
(`head?_toDigits`).
-/

namespace InfixCalculator

/-- Only zero is written with a zero in front. -/
theorem head?_toDigits {n : ℕ} (h : (Nat.toDigits 10 n).head? = some '0') : n = 0 := by
  -- the digit in front is that of a tenth of the number, down to a number of one digit
  induction n using Nat.strong_induction_on with
  | h n ih =>
    rcases lt_or_ge n 10 with hlt | hge
    · rw [Nat.toDigits_of_lt_base hlt, List.head?_cons, Option.some_inj] at h
      exact Nat.digitChar_eq_zero.mp h
    · rw [Nat.toDigits_of_base_le (by decide) hge,
        List.head?_append_of_ne_nil _ Nat.toDigits_ne_nil] at h
      have := ih (n / 10) (by omega) h
      omega

namespace Decimal

variable {d : Decimal} {width n : ℕ}

theorem toList_padded (width n : ℕ) :
    (padded width n).toList =
      List.replicate (width - (Nat.toDigits 10 n).length) '0' ++ Nat.toDigits 10 n := by
  rw [padded, String.toList_ofList]

/-- The zeros in front do not change the number. -/
theorem ofDigitChars_padded (width n : ℕ) : Nat.ofDigitChars 10 (padded width n).toList 0 = n := by
  rw [toList_padded, Nat.ofDigitChars_append, Nat.ofDigitChars_replicate_zero, Nat.mul_zero,
    Nat.ofDigitChars_ten_toDigits]

/-- A number that fits into the width is written with exactly so many digits. -/
theorem length_padded (hwidth : 0 < width) (h : n < 10 ^ width) :
    (padded width n).toList.length = width := by
  have hlength := (Nat.length_toDigits_le_iff (by decide) hwidth).mpr h
  rw [toList_padded, List.length_append, List.length_replicate, Nat.sub_add_cancel hlength]

theorem isDigit_of_mem_padded {c : Char} (h : c ∈ (padded width n).toList) : c.isDigit := by
  rw [toList_padded, List.mem_append] at h
  rcases h with h | h
  · rw [List.eq_of_mem_replicate h]
    rfl
  · exact Nat.isDigit_of_mem_toDigits (by decide) (by decide) h

/-! ## Decimals with digits behind the point -/

/-- The digits of a decimal before the point. -/
def front (d : Decimal) : List Char :=
  Nat.toDigits 10 (d.digits / 10 ^ (-d.exponent).toNat)

/-- The digits of a decimal behind the point. -/
def back (d : Decimal) : List Char :=
  (padded (-d.exponent).toNat (d.digits % 10 ^ (-d.exponent).toNat)).toList

/-- With digits behind the point, the text consists of the front, the point and the back. -/
theorem toList_toPlain (h : d.exponent < 0) : d.toPlain.toList = d.front ++ '.' :: d.back := by
  obtain ⟨digits, exponent⟩ := d
  obtain ⟨k, rfl⟩ := Int.eq_negSucc_of_lt_zero h
  have hplaces : (-Int.negSucc k).toNat = k + 1 := rfl
  rw [toPlain, front, back, hplaces]
  simp only [String.toList_append, Nat.toList_repr, Nat.pow_eq]
  rw [List.append_assoc]
  rfl

theorem isDigit_of_mem_front {c : Char} (h : c ∈ d.front) : c.isDigit :=
  Nat.isDigit_of_mem_toDigits (by decide) (by decide) h

theorem isDigit_of_mem_back {c : Char} (h : c ∈ d.back) : c.isDigit :=
  isDigit_of_mem_padded h

/-- At least one digit stands before the point. -/
theorem front_ne_nil (d : Decimal) : d.front ≠ [] :=
  Nat.toDigits_ne_nil

/-- A zero in front of the point stands there alone. -/
theorem front_of_head? (h : d.front.head? = some '0') : d.front = ['0'] := by
  rw [front, head?_toDigits h, Nat.toDigits_zero]

/-- Behind the point stand all places down to the last digit. -/
theorem length_back (h : d.exponent < 0) : d.back.length = (-d.exponent).toNat :=
  length_padded (by omega) (Nat.mod_lt _ (by positivity))

/-- At least one digit stands behind the point. -/
theorem back_ne_nil (h : d.exponent < 0) : d.back ≠ [] := by
  rw [← List.length_pos_iff, length_back h]
  omega

/-- An integer with one zero behind the point. -/
theorem front_integer (n : ℕ) : (⟨n * 10, -1⟩ : Decimal).front = Nat.toDigits 10 n :=
  congrArg (Nat.toDigits 10) (Nat.mul_div_cancel n (by decide))

theorem back_integer (n : ℕ) : (⟨n * 10, -1⟩ : Decimal).back = ['0'] := by
  have hmod : n * 10 % 10 ^ 1 = 0 := Nat.mul_mod_left n 10
  have hback : (⟨n * 10, -1⟩ : Decimal).back = (padded 1 (n * 10 % 10 ^ 1)).toList := rfl
  rw [hback, hmod]
  decide

/-- The text denotes the decimal itself, down to its exponent. -/
theorem decimal_toPlain (h : d.exponent < 0) : Numeral.decimal d.toPlain.toList = d := by
  have hfront : '.' ∉ d.front := Numeral.point_notMem fun _ => isDigit_of_mem_front
  have hdigits : Nat.ofDigitChars 10 (d.front ++ d.back) 0 = d.digits := by
    rw [Nat.ofDigitChars_append, Nat.ofDigitChars_eq_ofDigitChars_zero, length_back h, front,
      Nat.ofDigitChars_ten_toDigits, back, ofDigitChars_padded, Nat.div_add_mod]
  have hexponent : -(d.back.length : ℤ) = d.exponent := by
    rw [length_back h]
    omega
  rw [toList_toPlain h, Numeral.decimal, Numeral.whole_append_point hfront,
    Numeral.fraction_append_point hfront, hdigits, hexponent]

/-- The text denotes the same number as the decimal, by the recursion over its characters. -/
theorem number_toPlain (h : d.exponent < 0) : Numeral.number d.toPlain.toList = d.toRat := by
  rw [← Numeral.toRat_decimal, decimal_toPlain h]

/-- The text has the form of a numeral, and it has digits. -/
theorem denotes_toPlain (h : d.exponent < 0) : Numeral.denotes d.toPlain.toList := by
  rw [toList_toPlain h]
  exact Numeral.denotes_append_point (fun _ => isDigit_of_mem_front) (fun _ => isDigit_of_mem_back)
    d.front_ne_nil

/-- The text of a decimal has the value that the decimal reads back as. -/
theorem value_toPlain (h : d.exponent < 0) :
    Numeral.value d.toPlain = .ok (Binary64.toFloat d.magnitude) :=
  Numeral.value_eq_ok_iff.mpr ⟨denotes_toPlain h, by rw [decimal_toPlain h]⟩

end Decimal

end InfixCalculator
