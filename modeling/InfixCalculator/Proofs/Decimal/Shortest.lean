import InfixCalculator.Proofs.Decimal.Grid
import Mathlib.Data.Nat.Log

/-!
# The fewest digits

A decimal on the coarsest grid with a hit has the fewest digits of all decimals that read back as
the magnitude (`Decimal.IsCoarsest.digits_lt`), and none with as many digits is nearer
(`Decimal.IsCoarsest.closest_of_digits`).

A decimal on a finer grid has as many digits only if the one found is a power of ten and the other
one less. The power of ten is at least as near nevertheless: `Decimal.nine_tenths_le`.
-/

namespace InfixCalculator.Decimal

open Binary64

variable {m n j : ℕ} {e : ℤ} {d : Decimal}

namespace IsCoarsest

/-- No coarser grid has a point that reads back. -/
theorem le_exponent (h : IsCoarsest m d) (hn : (⟨n, e⟩ : Decimal).magnitude = m) :
    e ≤ d.exponent := by
  by_contra hlt
  obtain ⟨k, rfl⟩ := Int.exists_add_of_le (Int.add_one_le_of_lt (not_le.mp hlt))
  exact h.coarser (n * 10 ^ k) ((magnitude_congr (toRat_mul_ten_pow n k _)).trans hn)

/-- Powers of ten lie on coarser grids. -/
theorem magnitude_ten_pow_ne (h : IsCoarsest m d) (hj : 0 < j) :
    (⟨10 ^ j, d.exponent⟩ : Decimal).magnitude ≠ m := by
  have hcoarser := magnitude_congr (toRat_mul_ten_pow 1 j d.exponent)
  rw [one_mul] at hcoarser
  intro hten
  have := h.le_exponent (hcoarser.symm.trans hten)
  omega

/-- A power of ten between a decimal and the one found reads back as well. -/
theorem magnitude_ten_pow (h : IsCoarsest m d) (hn : (⟨n, e⟩ : Decimal).magnitude = m)
    (hlow : (⟨n, e⟩ : Decimal).scaled ≤ (⟨10 ^ j, d.exponent⟩ : Decimal).scaled)
    (hhigh : 10 ^ j ≤ d.digits) : (⟨10 ^ j, d.exponent⟩ : Decimal).magnitude = m :=
  magnitude_between (magnitude_eq_iff.mp hn) (magnitude_eq_iff.mp h.magnitude) hlow
    (scaled_mono hhigh le_rfl)

/-- No decimal that reads back has fewer digits than the one found. -/
theorem digits_lt (h : IsCoarsest m d) (hpos : 0 < m) (hn : (⟨n, e⟩ : Decimal).magnitude = m)
    (hlt : n < 10 ^ j) : d.digits < 10 ^ j := by
  by_contra hge
  have hj : 0 < j := by
    refine Nat.pos_of_ne_zero ?_
    rintro rfl
    rw [pow_zero] at hlt
    exact (digits_pos hpos hn).ne' (Nat.lt_one_iff.mp hlt)
  -- the power of ten is between a decimal with fewer digits and the one found
  have hlow := scaled_mono hlt.le (h.le_exponent hn)
  exact h.magnitude_ten_pow_ne hj (h.magnitude_ten_pow hn hlow (not_lt.mp hge))

end IsCoarsest

/-! ## Powers of ten -/

/-- A unit begins with the digits 2.0 in decimal notation. -/
theorem exists_step_unit : ∃ e, 1 / 5 < step e ∧ step e < 21 / 100 := by
  obtain ⟨k, hlow, hhigh⟩ : ∃ k, 2 * 10 ^ k < unitsPerOne ∧ 100 * unitsPerOne < 210 * 10 ^ k :=
    ⟨323, by decide +kernel, by decide +kernel⟩
  refine ⟨-(k + 1 : ℕ), ?_⟩
  rw [step, zpow_neg, zpow_natCast, inv_mul_eq_div]
  -- the unit is not to be evaluated
  generalize unitsPerOne = unit at hlow hhigh ⊢
  have hlow : (2 * 10 ^ k : ℚ) < unit := by exact_mod_cast hlow
  have hhigh : (100 * unit : ℚ) < 210 * 10 ^ k := by exact_mod_cast hhigh
  rw [lt_div_iff₀ (by positivity), div_lt_iff₀ (by positivity), pow_succ]
  constructor
  · linarith
  · linarith

/-- No magnitude below ten units lies just below a power of ten. -/
theorem nine_tenths_le_of_lt_ten {r : ℕ} (hpos : 0 < r) (hten : r < 10)
    (h : 20 * step e ≤ 2 * r + 1) : 19 * step e ≤ 2 * (r : ℚ) := by
  by_contra hlt
  have hone : (1 : ℚ) ≤ r := Nat.one_le_cast.mpr hpos
  have hnine : (r : ℚ) ≤ 9 := Nat.cast_le_ofNat.mpr (Nat.le_of_lt_succ hten)
  -- the only power of ten between a twentieth of a unit and one unit is a fifth of it
  obtain ⟨unit, hlow, hhigh⟩ := exists_step_unit
  rcases lt_trichotomy e unit with hless | rfl | hmore
  · have hmono := step_mono (Int.add_one_le_of_lt hless)
    rw [step_succ] at hmono
    linarith
  · have hsingle : r < 2 := by
      have hcast : (r : ℚ) < 2 := by linarith
      exact_mod_cast hcast
    obtain rfl : r = 1 := by omega
    rw [Nat.cast_one] at h
    linarith
  · have hmono := step_mono (Int.add_one_le_of_lt hmore)
    rw [step_succ] at hmono
    linarith

/-- The middle between a power of ten and nine tenths of it is not above a magnitude that the power
reads back as. -/
theorem nine_tenths_le (hpos : 0 < m) (hm : m < infinityMagnitude)
    (h : (⟨1, e + 1⟩ : Decimal).magnitude = m) : 19 * step e ≤ 2 * units m := by
  obtain ⟨s, r, rfl, hs, hr⟩ := exists_grid m
  obtain ⟨-, -, habove⟩ := isNearest_iff.mp (magnitude_eq_iff.mp h)
  have hmiddle := (habove (s * binade + r + 1) hm (Nat.lt_succ_self _)).1
  rw [← scaled, scaled_mk, step_succ, units_succ, Nat.cast_add, spacing_add hs hr,
    units_add hs hr.le, Nat.cast_one, one_mul] at hmiddle
  rw [units_add hs hr.le]
  push_cast at hmiddle ⊢
  by_cases hten : r < 10
  · have hbinade : 10 ≤ binade := by decide
    obtain rfl : s = 0 := hs.resolve_right (not_le.mpr (hten.trans_le hbinade))
    rw [pow_zero, mul_one] at hmiddle ⊢
    exact nine_tenths_le_of_lt_ten (by omega) hten (by linarith)
  · -- the spacing is a tenth of the magnitude at most
    have hspacing : (10 : ℚ) * 2 ^ s ≤ r * 2 ^ s :=
      mul_le_mul_of_nonneg_right (Nat.ofNat_le_cast.mpr (not_lt.mp hten)) (by positivity)
    have hpos := step_pos e
    linarith

/-- No decimal that reads back and has as many digits as the one found is nearer. -/
theorem IsCoarsest.closest_of_digits (h : IsCoarsest m d) (hpos : 0 < m)
    (hm : m < infinityMagnitude) (hd : 10 ^ j ≤ d.digits)
    (hn : (⟨n, e⟩ : Decimal).magnitude = m) (hlt : n < 10 ^ (j + 1)) :
    |d.scaled - units m| ≤ |(⟨n, e⟩ : Decimal).scaled - units m| := by
  rcases (h.le_exponent hn).lt_or_eq with hfiner | rfl
  · -- a power of ten lies between the two
    have hlow : (⟨n, e⟩ : Decimal).scaled ≤ (⟨10 ^ j, d.exponent⟩ : Decimal).scaled :=
      calc (⟨n, e⟩ : Decimal).scaled ≤ (⟨10 ^ j * 10 ^ 1, e⟩ : Decimal).scaled :=
            scaled_mono hlt.le le_rfl
        _ = (⟨10 ^ j, e + 1⟩ : Decimal).scaled := by rw [scaled, toRat_mul_ten_pow, ← scaled]; rfl
        _ ≤ (⟨10 ^ j, d.exponent⟩ : Decimal).scaled := scaled_mono le_rfl hfiner
    have hten := h.magnitude_ten_pow hn hlow hd
    obtain rfl : j = 0 := by
      by_contra hj
      exact h.magnitude_ten_pow_ne (Nat.pos_of_ne_zero hj) hten
    rw [pow_zero] at hten
    obtain ⟨coarser, hcoarser⟩ : ∃ coarser, d.exponent = coarser + 1 := ⟨d.exponent - 1, by ring⟩
    have hpower := h.closest 1 hten
    rw [hcoarser] at hten hpower hfiner
    -- the other decimal is at most nine tenths of the power
    have hnine := scaled_mono (Nat.le_of_lt_succ hlt) (Int.le_of_lt_add_one hfiner)
    have hmiddle := nine_tenths_le hpos hm hten
    have hstep := step_pos coarser
    rw [scaled_mk 1, step_succ, Nat.cast_one, one_mul] at hpower
    rw [scaled_mk 9] at hnine
    push_cast at hnine
    refine hpower.trans ?_
    rw [abs_sub_le_abs_sub_iff_of_gt (by linarith)]
    linarith
  · exact h.closest n hn

/-- The decimal found has the fewest digits of all that read back, and is nearest among those with
as many. -/
theorem IsCoarsest.exists_digits (h : IsCoarsest m d) (hpos : 0 < m) (hm : m < infinityMagnitude) :
    ∃ k, d.digits < 10 ^ k ∧ ∀ n e, (⟨n, e⟩ : Decimal).magnitude = m →
      (∀ j, n < 10 ^ j → k ≤ j) ∧
        (n < 10 ^ k → |d.scaled - units m| ≤ |(⟨n, e⟩ : Decimal).scaled - units m|) := by
  have hdigits : 0 < d.digits := digits_pos hpos h.magnitude
  have hlog := Nat.pow_log_le_self 10 hdigits.ne'
  refine ⟨Nat.log 10 d.digits + 1, Nat.lt_pow_succ_log_self (by decide) _,
    fun n e hn => ⟨fun j hlt => ?_, fun hlt => ?_⟩⟩
  · have hpow := hlog.trans_lt (h.digits_lt hpos hn hlt)
    exact (Nat.pow_lt_pow_iff_right (by decide)).mp hpow
  · exact h.closest_of_digits hpos hm hlog hn hlt

end InfixCalculator.Decimal
