import InfixCalculator.Proofs.Binary64.Rational

/-!
# Rounding a rational number to a float

`Binary64.RoundsTo` says what it is for a rational number to be rounded to a float, by comparison
with all other floats. It comes down to the nearest magnitude (`Binary64.roundsTo_iff`), so every
number is rounded to one float only (`Binary64.RoundsTo.unique`).
-/

namespace InfixCalculator.Binary64

variable {x y : Float} {m n : ℕ} {q : ℚ}

/-- The numbers from here on are rounded to infinity. It lies in the middle between the greatest
finite float and the power of two that would be the next one. -/
def overflowBound : ℚ :=
  2 ^ 1024 - 2 ^ 970

/-- A number is rounded to the nearest float. Of two equally near ones the even one is taken, and a
float that is zero or infinite has the sign of the number. -/
structure RoundsTo (q : ℚ) (x : Float) : Prop where
  not_nan : ¬ x.isNaN
  isNegative_iff : isNegative x ↔ q < 0
  isFinite_iff : x.isFinite ↔ |q| < overflowBound
  closest : x.isFinite → ∀ y : Float, y.isFinite → |toRat x - q| ≤ |toRat y - q|
  even_of_tie : x.isFinite → ∀ y : Float, y.isFinite → toRat y ≠ toRat x →
    |toRat y - q| = |toRat x - q| → Even x.toBits.toNat

theorem odd_greatest : Odd (infinityMagnitude - 1) := by decide

/-- The middle between the greatest finite float and infinity. -/
theorem units_greatest :
    (units (infinityMagnitude - 1) + units infinityMagnitude : ℚ) =
      2 * (overflowBound * unitsPerOne) := by
  have hspacing : spacing (infinityMagnitude - 1) = 2 ^ 2045 := by
    have hgrid : infinityMagnitude - 1 = 2045 * binade + (2 * binade - 1) := by decide
    rw [hgrid, spacing_add (.inr (by decide)) (by decide)]
  have hnext := units_succ (infinityMagnitude - 1)
  rw [Nat.sub_add_cancel (by decide), hspacing] at hnext
  have hcast : (units infinityMagnitude : ℚ) = units (infinityMagnitude - 1) + 2 ^ 2045 := by
    rw [hnext, Nat.cast_add, Nat.cast_pow, Nat.cast_ofNat]
  have hinfinity : (units infinityMagnitude : ℚ) = 2 ^ 1024 * unitsPerOne := by
    rw [units_infinityMagnitude, Nat.cast_mul, Nat.cast_pow, Nat.cast_ofNat]
  have hpow : (2 : ℚ) ^ 2045 = 2 * (2 ^ 970 * unitsPerOne) := by
    rw [cast_unitsPerOne, ← pow_add, ← pow_succ']
  rw [overflowBound, sub_mul, ← hinfinity]
  -- the powers are not to be evaluated
  generalize (2 : ℚ) ^ 970 * unitsPerOne = half at hpow ⊢
  generalize (2 : ℚ) ^ 2045 = whole at hpow hcast
  linarith

/-- What is nearest to a quantity is finite up to the middle between the greatest finite float and
infinity. The greatest finite float is odd, so the middle itself belongs to infinity. -/
theorem IsNearest.lt_infinity_iff (h : IsNearest q m) :
    m < infinityMagnitude ↔ q < overflowBound * unitsPerOne := by
  obtain ⟨hle, hbelow, habove⟩ := isNearest_iff.mp h
  have hmiddle := units_greatest
  constructor
  · intro hlt
    obtain ⟨hhigh, htie⟩ := habove infinityMagnitude le_rfl hlt
    rcases (Nat.le_sub_one_of_lt hlt).lt_or_eq with hless | rfl
    · have hunits := units_cast_lt hless
      linarith
    · refine lt_of_le_of_ne (by linarith) fun heq => ?_
      exact Nat.not_even_iff_odd.mpr odd_greatest (htie (by linarith))
  · intro hlt
    refine lt_of_le_of_ne hle fun heq => ?_
    subst heq
    have hlow := (hbelow (infinityMagnitude - 1) (by decide)).1
    linarith

theorem abs_units_sub (h : x.isFinite) (q : ℚ) :
    |(units (magnitude x) : ℚ) - |q| * unitsPerOne| = |(|toRat x| - |q|)| * unitsPerOne := by
  rw [← abs_toRat_mul h, ← sub_mul, abs_mul, abs_of_pos cast_unitsPerOne_pos]

theorem toRat_nonneg (h : x.isFinite) (hsign : isNegative x = false) : 0 ≤ toRat x := by
  rw [toRat_eq h, hsign, if_neg Bool.false_ne_true, one_mul]
  exact div_nonneg (Nat.cast_nonneg _) (Nat.cast_nonneg _)

theorem toRat_nonpos (h : x.isFinite) (hsign : isNegative x) : toRat x ≤ 0 := by
  rw [toRat_eq h, hsign, if_pos rfl, neg_one_mul, neg_nonpos]
  exact div_nonneg (Nat.cast_nonneg _) (Nat.cast_nonneg _)

/-- Between numbers of one sign the distance is that of their sizes. -/
theorem abs_toRat_sub (h : x.isFinite) (hsign : isNegative x ↔ q < 0) :
    |toRat x - q| = |(|toRat x| - |q|)| := by
  cases hx : isNegative x with
  | false =>
    have hq : 0 ≤ q := not_lt.mp fun hlt => Bool.false_ne_true (hx.symm.trans (hsign.mpr hlt))
    rw [abs_of_nonneg (toRat_nonneg h hx), abs_of_nonneg hq]
  | true =>
    have hq : q < 0 := hsign.mp hx
    rw [abs_of_nonpos (toRat_nonpos h hx), abs_of_neg hq, neg_sub_neg, abs_sub_comm]

/-- A float of the sign of a number with the nearest magnitude is what the number is rounded to. -/
theorem IsNearest.roundsTo (h : IsNearest (|q| * unitsPerOne) (magnitude x))
    (hsign : isNegative x ↔ q < 0) : RoundsTo q x where
  not_nan := by
    rw [isNaN_iff]
    exact h.le.not_gt
  isNegative_iff := hsign
  isFinite_iff := by
    rw [isFinite_iff, h.lt_infinity_iff, mul_lt_mul_iff_of_pos_right cast_unitsPerOne_pos]
  -- floats of the other sign are on the far side of zero
  closest hx y hy := by
    have hunits := h.closest (magnitude y) (isFinite_iff.mp hy).le
    rw [abs_units_sub hx, abs_units_sub hy, mul_le_mul_iff_of_pos_right cast_unitsPerOne_pos]
      at hunits
    calc |toRat x - q| = |(|toRat x| - |q|)| := abs_toRat_sub hx hsign
      _ ≤ |(|toRat y| - |q|)| := hunits
      _ ≤ |toRat y - q| := abs_abs_sub_abs_le _ _
  even_of_tie hx y hy hne htie := by
    rw [even_toBits_iff]
    by_cases hmagnitude : magnitude y = magnitude x
    · -- the opposite number, which is as far away from zero only
      have habs : |toRat y| = |toRat x| := by rw [abs_toRat hy, abs_toRat hx, hmagnitude]
      have hopposite : toRat y = -toRat x := (abs_eq_abs.mp habs).resolve_left hne
      have hq : q = 0 := by
        rw [abs_sub_eq_abs_sub_iff_of_ne hne] at htie
        linarith
      rw [hq, abs_zero, zero_mul] at h
      rw [h.eq_zero]
      exact Even.zero
    · refine h.even_of_tie (magnitude y) (isFinite_iff.mp hy).le hmagnitude ?_
      have hunits := h.closest (magnitude y) (isFinite_iff.mp hy).le
      refine le_antisymm ?_ hunits
      rw [abs_units_sub hx, abs_units_sub hy, ← abs_toRat_sub hx hsign, ← htie]
      exact mul_le_mul_of_nonneg_right (abs_abs_sub_abs_le _ _) cast_unitsPerOne_pos.le

/-- Every quantity has a nearest magnitude. -/
theorem exists_isNearest (hq : 0 ≤ q) : ∃ m, IsNearest (q * unitsPerOne) m := by
  obtain ⟨num, hnum⟩ := Int.eq_ofNat_of_zero_le (Rat.num_nonneg.mpr hq)
  have hratio : q * unitsPerOne = num * unitsPerOne / q.den := by
    rw [mul_div_right_comm]
    congr 1
    conv_lhs => rw [← Rat.num_div_den q, hnum]
    rw [Int.cast_natCast]
  exact ⟨_, hratio ▸ isNearest_nearest num q.den_pos⟩

/-- Rounding is to the nearest magnitude, with the sign of the number. -/
theorem roundsTo_iff :
    RoundsTo q x ↔ (isNegative x ↔ q < 0) ∧ IsNearest (|q| * unitsPerOne) (magnitude x) := by
  refine ⟨fun h => ⟨h.isNegative_iff, ?_⟩, fun ⟨hsign, h⟩ => h.roundsTo hsign⟩
  -- compared with the float of the nearest magnitude
  obtain ⟨m, hm⟩ := exists_isNearest (abs_nonneg q)
  obtain ⟨y, hynegative, rfl⟩ := exists_float (decide (q < 0)) hm.le
  have hy : RoundsTo q y := hm.roundsTo (by rw [hynegative, decide_eq_true_iff])
  by_cases hmagnitude : magnitude x = magnitude y
  · rwa [hmagnitude]
  -- two infinite magnitudes would be the same
  have hx : x.isFinite := by
    by_contra hinfinite
    have hyinfinite : ¬ y.isFinite := by rwa [hy.isFinite_iff, ← h.isFinite_iff]
    have hnan := h.not_nan
    rw [isFinite_iff] at hinfinite hyinfinite
    rw [isNaN_iff] at hnan
    have := hm.le
    omega
  have hyfinite : y.isFinite := hy.isFinite_iff.mpr (h.isFinite_iff.mp hx)
  -- both floats are closest, so they are equally near
  have htie : |toRat y - q| = |toRat x - q| :=
    le_antisymm (hy.closest hyfinite x hx) (h.closest hx y hyfinite)
  have hne : toRat y ≠ toRat x := by
    intro heq
    have habs : |toRat x| * unitsPerOne = |toRat y| * unitsPerOne := by rw [heq]
    rw [abs_toRat_mul hx, abs_toRat_mul hyfinite, units_cast_inj] at habs
    exact hmagnitude habs
  refine ⟨(isFinite_iff.mp hx).le, fun n hn => ?_, fun _ _ _ _ => ?_⟩
  · rw [abs_units_sub hx, ← abs_toRat_sub hx h.isNegative_iff, ← htie,
      abs_toRat_sub hyfinite hy.isNegative_iff, ← abs_units_sub hyfinite]
    exact hm.closest n hn
  · exact even_toBits_iff.mp (h.even_of_tie hx y hyfinite hne htie)

/-- A number is rounded to one float only. -/
theorem RoundsTo.unique (hx : RoundsTo q x) (hy : RoundsTo q y) : x = y := by
  obtain ⟨hxsign, hxnearest⟩ := roundsTo_iff.mp hx
  obtain ⟨hysign, hynearest⟩ := roundsTo_iff.mp hy
  exact eq_of_magnitude_eq (Bool.eq_iff_iff.mpr (hxsign.trans hysign.symm))
    (hxnearest.unique hynearest)

theorem roundsTo_toFloat_iff (hm : m ≤ infinityMagnitude) (hq : 0 ≤ q) :
    RoundsTo q (toFloat m) ↔ IsNearest (q * unitsPerOne) m := by
  have hsign : isNegative (toFloat m) ↔ q < 0 := by
    rw [isNegative_toFloat hm]
    exact iff_of_false Bool.false_ne_true hq.not_gt
  rw [roundsTo_iff, and_iff_right hsign, magnitude_toFloat hm, abs_of_nonneg hq]

end InfixCalculator.Binary64
