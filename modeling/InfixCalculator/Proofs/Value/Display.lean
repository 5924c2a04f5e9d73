import InfixCalculator.Proofs.Decimal.Positional
import InfixCalculator.Proofs.Decimal.Shortest
import InfixCalculator.Value

/-!
# The text of a result

A finite value is displayed as a decimal in positional notation (`Value.toList_display`), which
reads back as the value: the value itself if it is an integer, and the shortest decimal otherwise.
Since an integer reads back as an integer only, there is a digit behind the point in both cases
(`Value.exponent_displayed_neg`).

`Value.display_digits` says of the text of every finite float how it is written and which number it
denotes.
-/

namespace InfixCalculator.Value

open Binary64

variable {m n : ℕ} {x : Float} {p q : ℚ} {d : Decimal}

/-! ## The decimal displayed -/

theorem displayed_integer (h : units m = n * unitsPerOne) : displayed m = ⟨n * 10, -1⟩ := by
  rw [displayed, h, Nat.mul_mod_left, if_pos rfl, Nat.mul_div_cancel n unitsPerOne_pos]

theorem displayed_of_not_dvd (h : ¬ unitsPerOne ∣ units m) : displayed m = Decimal.shortest m := by
  rw [displayed, if_neg fun hmod => h (Nat.dvd_of_mod_eq_zero hmod)]

/-- Zero is an integer. -/
theorem pos_of_not_dvd (h : ¬ unitsPerOne ∣ units m) : 0 < m := by
  refine Nat.pos_of_ne_zero ?_
  rintro rfl
  rw [units_zero] at h
  exact h (dvd_zero unitsPerOne)

theorem isCoarsest_displayed (h : ¬ unitsPerOne ∣ units m) (hm : m < infinityMagnitude) :
    Decimal.IsCoarsest m (displayed m) := by
  rw [displayed_of_not_dvd h]
  exact Decimal.isCoarsest_shortest (pos_of_not_dvd h) hm

theorem magnitude_displayed (hm : m < infinityMagnitude) : (displayed m).magnitude = m := by
  by_cases h : unitsPerOne ∣ units m
  · obtain ⟨n, hn⟩ := exists_eq_mul_left_of_dvd h
    have hunits : (units m : ℚ) = n * unitsPerOne := by rw [hn, Nat.cast_mul]
    have hinteger : (⟨n * 10 ^ 1, -1⟩ : Decimal).toRat = n := by
      rw [Decimal.toRat_mul_ten_pow, Decimal.toRat]
      exact mul_one _
    rw [displayed_integer hn, Decimal.magnitude_eq_iff, ← pow_one 10, hinteger, ← hunits]
    exact isNearest_units hm.le
  · exact (isCoarsest_displayed h hm).magnitude

/-- An integer has a zero behind the point, and no other magnitude has an integer that
reads back. -/
theorem exponent_displayed_neg (hm : m < infinityMagnitude) : (displayed m).exponent < 0 := by
  by_cases h : unitsPerOne ∣ units m
  · obtain ⟨n, hn⟩ := exists_eq_mul_left_of_dvd h
    rw [displayed_integer hn]
    exact Int.negSucc_lt_zero 0
  · -- without a digit behind the point the shortest decimal is an integer
    by_contra hexponent
    obtain ⟨k, hk⟩ := Int.eq_ofNat_of_zero_le (not_lt.mp hexponent)
    have hnearest := Decimal.magnitude_eq_iff.mp (magnitude_displayed hm)
    have hcast : (displayed m).toRat = ((displayed m).digits * 10 ^ k : ℕ) := by
      rw [Decimal.toRat, hk, zpow_natCast, Nat.cast_mul, Nat.cast_pow, Nat.cast_ofNat]
    rw [hcast] at hnearest
    exact h (unitsPerOne_dvd_of_isNearest hnearest hm)

/-! ## The decimal and the float -/

/-- A number has at most so many significant digits. -/
def HasDigits (k : ℕ) (q : ℚ) : Prop :=
  ∃ (n : ℕ) (e : ℤ), n < 10 ^ k ∧ |q| = n * 10 ^ e

/-- A number is rounded to a float, no number with fewer digits is, and no number with as many
digits that is rounded to it is nearer to it. -/
structure IsShortest (x : Float) (p : ℚ) : Prop where
  roundsTo : RoundsTo p x
  exists_digits : ∃ k, HasDigits k p ∧ ∀ q, RoundsTo q x →
    (∀ j, HasDigits j q → k ≤ j) ∧ (HasDigits k q → |p - toRat x| ≤ |q - toRat x|)

/-- The distance of a decimal to a float of the same sign, in units. -/
theorem abs_sub_toRat_mul (hx : x.isFinite) (hsign : isNegative x ↔ q < 0) (h : |q| = d.toRat) :
    |q - toRat x| * unitsPerOne = |d.scaled - units (magnitude x)| := by
  rw [abs_sub_comm, abs_toRat_sub hx hsign, ← abs_units_sub hx, h, abs_sub_comm, Decimal.scaled]

theorem isShortest_of_isCoarsest (hx : x.isFinite) (hpos : 0 < magnitude x)
    (hd : Decimal.IsCoarsest (magnitude x) d) (hsign : isNegative x ↔ p < 0) (hp : |p| = d.toRat) :
    IsShortest x p := by
  obtain ⟨k, hk, hothers⟩ := hd.exists_digits hpos (isFinite_iff.mp hx)
  refine ⟨roundsTo_iff.mpr ⟨hsign, ?_⟩, k, ⟨d.digits, d.exponent, hk, hp⟩, fun q hq => ?_⟩
  · rw [hp]
    exact Decimal.magnitude_eq_iff.mp hd.magnitude
  -- every other number that is rounded to the float has its sign, and a decimal for a magnitude
  obtain ⟨hqsign, hnearest⟩ := roundsTo_iff.mp hq
  have hreads {n : ℕ} {e : ℤ} (h : |q| = n * 10 ^ e) :
      (⟨n, e⟩ : Decimal).magnitude = magnitude x := by
    rw [h] at hnearest
    exact Decimal.magnitude_eq_iff.mpr hnearest
  refine ⟨fun j ⟨n, e, hn, h⟩ => (hothers n e (hreads h)).1 j hn, fun ⟨n, e, hn, h⟩ => ?_⟩
  have hcloser := (hothers n e (hreads h)).2 hn
  rw [← abs_sub_toRat_mul hx hsign hp,
    ← abs_sub_toRat_mul (d := ⟨n, e⟩) hx hqsign h] at hcloser
  exact le_of_mul_le_mul_right hcloser cast_unitsPerOne_pos

/-- With the sign of a float, the decimal on the coarsest grid is the shortest one. -/
theorem isShortest_signed (hx : x.isFinite) (hpos : 0 < magnitude x)
    (hd : Decimal.IsCoarsest (magnitude x) d) :
    IsShortest x ((if x < 0 then -1 else 1) * d.toRat) := by
  have htoRat : 0 < d.toRat := Decimal.toRat_pos (Decimal.digits_pos hpos hd.magnitude)
  have hsign : isNegative x ↔ x < 0 := by rw [lt_zero_iff hx, and_iff_left hpos.ne']
  by_cases hneg : x < 0
  · rw [if_pos hneg, neg_one_mul]
    refine isShortest_of_isCoarsest hx hpos hd ?_ (by rw [abs_neg, abs_of_pos htoRat])
    rw [hsign, neg_lt_zero]
    exact iff_of_true hneg htoRat
  · rw [if_neg hneg, one_mul]
    refine isShortest_of_isCoarsest hx hpos hd ?_ (abs_of_pos htoRat)
    rw [hsign]
    exact iff_of_false hneg htoRat.not_gt

/-! ## The text -/

theorem toList_display (h : x.isFinite) :
    (display x).toList =
      (if x < 0 then ['-'] else []) ++ (displayed (magnitude x)).toPlain.toList := by
  have hsign : (isNegative x && decide (magnitude x ≠ 0)) = decide (x < 0) := by
    rw [Bool.eq_iff_iff, Bool.and_eq_true, decide_eq_true_iff, decide_eq_true_iff, lt_zero_iff h]
  rw [display, ofFloat_of_isFinite h]
  dsimp only
  rw [hsign, String.toList_append, sign]
  congr 1
  by_cases hneg : x < 0
  · rw [if_pos hneg, if_pos (decide_eq_true hneg)]
    rfl
  · rw [if_neg hneg, if_neg (by simpa using hneg)]
    rfl

/-- The text of a finite float as a result. Only what is below zero has a sign, the part before the
point has no superfluous zero, and there is a digit behind the point. An integer is displayed with
all its digits, and any other float as the shortest decimal that is rounded to it. -/
theorem display_digits (x : Float) (h : x.isFinite) :
    ∃ front back : List Char,
      (display x).toList = (if x < 0 then ['-'] else []) ++ (front ++ '.' :: back) ∧
        (∀ c ∈ front ++ back, c.isDigit) ∧ front ≠ [] ∧ back ≠ [] ∧
        (front.head? = some '0' → front = ['0']) ∧
        (∀ n : ℕ, |toRat x| = n → front = Nat.toDigits 10 n ∧ back = ['0']) ∧
        ((∀ n : ℕ, |toRat x| ≠ n) →
          IsShortest x ((if x < 0 then -1 else 1) * Numeral.number (front ++ '.' :: back))) := by
  have hm := isFinite_iff.mp h
  have hexponent := exponent_displayed_neg hm
  have htext := Decimal.toList_toPlain hexponent
  have hinteger {n : ℕ} : |toRat x| = n ↔ units (magnitude x) = n * unitsPerOne := by
    rw [abs_toRat h, div_eq_iff cast_unitsPerOne_pos.ne', ← Nat.cast_mul, Nat.cast_inj]
  refine ⟨(displayed (magnitude x)).front, (displayed (magnitude x)).back, ?_, ?_,
    Decimal.front_ne_nil _, Decimal.back_ne_nil hexponent, Decimal.front_of_head?, ?_, ?_⟩
  -- the text
  · rw [toList_display h, htext]
  · intro c hc
    rcases List.mem_append.mp hc with hc | hc
    · exact Decimal.isDigit_of_mem_front hc
    · exact Decimal.isDigit_of_mem_back hc
  -- an integer has a zero behind the point
  · intro n hn
    rw [displayed_integer (hinteger.mp hn)]
    exact ⟨Decimal.front_integer n, Decimal.back_integer n⟩
  -- what is no integer is displayed as the shortest decimal
  · intro hne
    rw [← htext, Decimal.number_toPlain hexponent]
    have hdvd : ¬ unitsPerOne ∣ units (magnitude x) := by
      intro h
      obtain ⟨n, hn⟩ := exists_eq_mul_left_of_dvd h
      exact hne n (hinteger.mpr hn)
    exact isShortest_signed h (pos_of_not_dvd hdvd) (isCoarsest_displayed hdvd hm)

/-- A power of two, where the floats below are twice as dense as those above. -/
theorem display_digits_power_of_two :
    let x := Float.ofBits 0x8360000000000000
    x.isFinite ∧ ∃ front back : List Char,
      (display x).toList = (if x < 0 then ['-'] else []) ++ (front ++ '.' :: back) ∧
        (∀ c ∈ front ++ back, c.isDigit) ∧ front ≠ [] ∧ back ≠ [] ∧
        (front.head? = some '0' → front = ['0']) ∧
        (∀ n : ℕ, |toRat x| = n → front = Nat.toDigits 10 n ∧ back = ['0']) ∧
        ((∀ n : ℕ, |toRat x| ≠ n) →
          IsShortest x ((if x < 0 then -1 else 1) * Numeral.number (front ++ '.' :: back))) := by
  intro x
  have hfinite : x.isFinite := by decide +kernel
  exact ⟨hfinite, display_digits x hfinite⟩

end InfixCalculator.Value
