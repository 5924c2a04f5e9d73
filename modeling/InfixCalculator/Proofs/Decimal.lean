import InfixCalculator.Decimal
import InfixCalculator.Proofs.Binary64.Rounding
import Mathlib.Algebra.Order.Field.Power
import Mathlib.Tactic.Positivity

/-!
# Decimals as rational numbers

The magnitude of a decimal is the one nearest to it as a number of units
(`Decimal.magnitude_eq_iff`), so that the float of the magnitude is the decimal rounded:
`Decimal.roundsTo_toFloat`.
-/

namespace InfixCalculator.Decimal

open Binary64

variable {d d' : Decimal} {m n : ℕ} {e : ℤ}

/-- The rational number that a decimal is. -/
def toRat (d : Decimal) : ℚ :=
  d.digits * 10 ^ d.exponent

theorem toRat_nonneg (d : Decimal) : 0 ≤ d.toRat := by
  unfold toRat
  positivity

theorem toRat_pos (h : 0 < d.digits) : 0 < d.toRat := by
  unfold toRat
  positivity

theorem denominator_pos (d : Decimal) : 0 < d.denominator := by
  rw [denominator, Nat.pow_eq]
  positivity

/-- One of the two powers of ten is one, so the exponent is split between the numerator and the
denominator. -/
theorem toRat_eq_div (d : Decimal) : d.toRat = d.numerator / d.denominator := by
  have hsplit : d.exponent = (d.exponent.toNat : ℤ) - ((-d.exponent).toNat : ℤ) := by omega
  rw [toRat, numerator, denominator, Nat.pow_eq, Nat.pow_eq, Nat.cast_mul, Nat.cast_pow,
    Nat.cast_pow, mul_div_assoc, Nat.cast_ofNat, ← zpow_natCast, ← zpow_natCast,
    ← zpow_sub₀ (by norm_num), ← hsplit]

/-- The magnitude of a decimal is found by rounding a quotient, hence it is the nearest one. -/
theorem isNearest_magnitude (d : Decimal) : IsNearest (d.toRat * unitsPerOne) d.magnitude := by
  rw [toRat_eq_div, div_mul_eq_mul_div]
  exact isNearest_nearest d.numerator d.denominator_pos

/-- Which magnitude a decimal has depends on distances only. -/
theorem magnitude_eq_iff : d.magnitude = m ↔ IsNearest (d.toRat * unitsPerOne) m :=
  ⟨fun h => h ▸ d.isNearest_magnitude, fun h => d.isNearest_magnitude.unique h⟩

/-- Decimals that are the same number have the same magnitude, however they are written. -/
theorem magnitude_congr (h : d.toRat = d'.toRat) : d.magnitude = d'.magnitude :=
  magnitude_eq_iff.mpr (h ▸ d'.isNearest_magnitude)

/-- Zero is the only decimal without digits, and reads back as zero only. -/
theorem digits_pos (hpos : 0 < m) (h : (⟨n, e⟩ : Decimal).magnitude = m) : 0 < n := by
  refine Nat.pos_of_ne_zero fun hn => hpos.ne' ?_
  have hnearest := magnitude_eq_iff.mp h
  rw [toRat, hn, Nat.cast_zero, zero_mul, zero_mul] at hnearest
  exact hnearest.eq_zero

/-- Zeros at the end of the digits can be exchanged for a greater exponent. -/
theorem toRat_mul_ten_pow (n k : ℕ) (e : ℤ) :
    (⟨n * 10 ^ k, e⟩ : Decimal).toRat = (⟨n, e + k⟩ : Decimal).toRat := by
  rw [toRat, toRat, zpow_add₀ (by norm_num), zpow_natCast, Nat.cast_mul, Nat.cast_pow,
    Nat.cast_ofNat]
  ring

/-- The float that a decimal reads back as is the decimal rounded. -/
theorem roundsTo_toFloat (d : Decimal) : RoundsTo d.toRat (toFloat d.magnitude) :=
  (roundsTo_toFloat_iff d.isNearest_magnitude.le d.toRat_nonneg).mpr d.isNearest_magnitude

end InfixCalculator.Decimal
