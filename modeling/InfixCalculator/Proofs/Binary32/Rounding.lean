import Mathlib.Algebra.Order.Field.Power
import Mathlib.Data.Int.Log
import Mathlib.Data.Rat.Floor
import Mathlib.Tactic.Linarith
import Mathlib.Tactic.Positivity
import Mathlib.Tactic.Ring

/-!
# Rounding to single precision

Rounding as a function of rational numbers, with no bound on the exponent: `rounded` puts a number
on the grid of its binade (`spacing`), whose lines lie 24 digits below the first digit of the number
but not below `2⁻¹⁴⁹`. Rounding keeps the order (`rounded_mono`), leaves alone what has at most 24
digits (`rounded_of_digits`), and is off by half a unit in the last of them (`abs_rounded_sub_le`).
-/

namespace InfixCalculator.Binary32

variable {q v w : ℚ} {n : ℤ}

/-! ## Rounding to an integer -/

/-- The nearest integer; a half goes to the even neighbour. -/
def roundEven (q : ℚ) : ℤ :=
  if Int.fract q < 1 / 2 ∨ (Int.fract q = 1 / 2 ∧ Even ⌊q⌋) then ⌊q⌋ else ⌊q⌋ + 1

/-- Rounding moves by less than a half, or by a half to an even number. -/
theorem roundEven_spec (q : ℚ) :
    |roundEven q - q| < 1 / 2 ∨ (|roundEven q - q| = 1 / 2 ∧ Even (roundEven q)) := by
  have hfract := Int.fract_add_floor q
  have hnonneg := Int.fract_nonneg q
  have hlt := Int.fract_lt_one q
  have hfloor : |(⌊q⌋ : ℚ) - q| = Int.fract q := by
    rw [abs_sub_comm, Int.self_sub_floor, abs_of_nonneg hnonneg]
  have hceil : |((⌊q⌋ + 1 : ℤ) : ℚ) - q| = 1 - Int.fract q := by
    rw [abs_of_nonneg (by push_cast; linarith)]
    push_cast
    linarith
  rw [roundEven]
  split_ifs with h
  · rwa [hfloor]
  · -- the fraction is more than a half, or a half behind an odd whole part
    rw [hceil, Int.even_add_one]
    push Not at h
    rcases h.1.lt_or_eq with hgt | heq
    · exact .inl (by linarith)
    · exact .inr ⟨by linarith, h.2 heq.symm⟩

/-- There is only one integer so near. -/
theorem roundEven_eq (h : |n - q| < 1 / 2 ∨ (|n - q| = 1 / 2 ∧ Even n)) : roundEven q = n := by
  have hspec := roundEven_spec q
  have hhalf : |(roundEven q : ℚ) - q| ≤ 1 / 2 := hspec.elim le_of_lt fun h => h.1.le
  have hhalf' : |(n : ℚ) - q| ≤ 1 / 2 := h.elim le_of_lt fun h => h.1.le
  by_contra hne
  -- different integers are one apart, so both are even and next to each other
  have hone : (1 : ℚ) ≤ |(roundEven q : ℚ) - n| := by
    exact_mod_cast Int.one_le_abs (sub_ne_zero.mpr hne)
  have hsum : |(roundEven q : ℚ) - n| ≤ |(roundEven q : ℚ) - q| + |(n : ℚ) - q| := by
    rw [abs_sub_comm (n : ℚ) q]
    exact abs_sub_le ..
  obtain ⟨-, heven⟩ := hspec.resolve_left (by linarith)
  obtain ⟨-, heven'⟩ := h.resolve_left (by linarith)
  have hodd : |roundEven q - n| = 1 := by
    have : |(roundEven q : ℚ) - n| = 1 := by linarith
    exact_mod_cast this
  have : Even |roundEven q - n| := even_abs.mpr (heven.sub heven')
  rw [hodd] at this
  exact Int.not_even_one this

/-- An integer is left alone. -/
theorem roundEven_intCast (n : ℤ) : roundEven n = n :=
  roundEven_eq (.inl (by norm_num))

/-- Opposite numbers are rounded to opposite integers. -/
theorem roundEven_neg (q : ℚ) : roundEven (-q) = -roundEven q := by
  have hneg : |((-roundEven q : ℤ) : ℚ) - -q| = |roundEven q - q| := by
    rw [Int.cast_neg, neg_sub_neg, abs_sub_comm]
  apply roundEven_eq
  rw [hneg, even_neg]
  exact roundEven_spec q

theorem abs_roundEven_sub_le (q : ℚ) : |roundEven q - q| ≤ 1 / 2 :=
  (roundEven_spec q).elim le_of_lt fun h => h.1.le

/-- Rounding does not pass an integer above. -/
theorem roundEven_le (h : q ≤ n) : roundEven q ≤ n := by
  have hnear := (abs_le.mp (abs_roundEven_sub_le q)).2
  have hlt : (roundEven q : ℚ) < (n + 1 : ℤ) := by
    push_cast
    linarith
  exact Int.lt_add_one_iff.mp (Int.cast_lt.mp hlt)

/-- Rounding does not pass an integer below. -/
theorem le_roundEven (h : n ≤ q) : n ≤ roundEven q := by
  have hnear := (abs_le.mp (abs_roundEven_sub_le q)).1
  have hlt : (n : ℚ) < (roundEven q + 1 : ℤ) := by
    push_cast
    linarith
  exact Int.lt_add_one_iff.mp (Int.cast_lt.mp hlt)

/-- Rounding to an integer keeps the order. -/
theorem roundEven_mono {q' : ℚ} (hq : q ≤ q') : roundEven q ≤ roundEven q' := by
  by_contra hlt
  push Not at hlt
  -- the smaller number would be at least a half above `roundEven q'`, and the greater one at most
  have hone : ((roundEven q' + 1 : ℤ) : ℚ) ≤ roundEven q := by exact_mod_cast hlt
  have hnear := (abs_le.mp (abs_roundEven_sub_le q)).2
  have hnear' := (abs_le.mp (abs_roundEven_sub_le q')).1
  push_cast at hone
  have heq : q = q' := by linarith
  rw [heq] at hlt
  exact hlt.false

/-! ## The grid of single precision -/

/-- The exponent of the distance between neighbours on the grid that a number is rounded to. -/
def spacing (v : ℚ) : ℤ :=
  max (Int.log 2 |v| - 23) (-149)

/-- The number in single precision, if its exponent is not too large. -/
def rounded (v : ℚ) : ℚ :=
  roundEven (v / 2 ^ spacing v) * 2 ^ spacing v

/-- The grid is nowhere finer than this. -/
theorem le_spacing (v : ℚ) : -149 ≤ spacing v :=
  le_max_right ..

theorem spacing_neg (v : ℚ) : spacing (-v) = spacing v := by
  rw [spacing, spacing, abs_neg]

theorem rounded_neg (v : ℚ) : rounded (-v) = -rounded v := by
  rw [rounded, rounded, spacing_neg, neg_div, roundEven_neg, Int.cast_neg, neg_mul]

@[simp]
theorem rounded_zero : rounded 0 = 0 := by
  simp [rounded, roundEven]

theorem two_zpow_pos (e : ℤ) : (0 : ℚ) < 2 ^ e :=
  zpow_pos two_pos e

theorem two_zpow_add (e : ℤ) (n : ℕ) : (2 : ℚ) ^ (e + n) = 2 ^ e * 2 ^ n := by
  rw [zpow_add₀ two_ne_zero, zpow_natCast]

/-- The grid of a number below `2ᵉ⁺²⁴` is not coarser than `2ᵉ`. -/
theorem spacing_le {e : ℤ} (hv : v ≠ 0) (h : |v| < 2 ^ (e + 24)) (he : -149 ≤ e) :
    spacing v ≤ e := by
  have hlog := (Int.lt_zpow_iff_log_lt (b := 2) (by norm_num) (abs_pos.mpr hv)).mp
    (by exact_mod_cast h)
  rw [spacing]
  omega

/-- The grid of a number from `2ᵉ⁺²³` on is not finer than `2ᵉ`. -/
theorem le_spacing_of_le {e : ℤ} (h : 2 ^ (e + 23) ≤ |v|) : e ≤ spacing v := by
  have hpos : 0 < |v| := (two_zpow_pos _).trans_le h
  have hlog := (Int.zpow_le_iff_le_log (b := 2) (by norm_num) hpos).mp (by exact_mod_cast h)
  rw [spacing]
  omega

/-- The grid is fine enough for 24 digits. -/
theorem abs_lt_of_spacing (v : ℚ) : |v| < 2 ^ (spacing v + 24) := by
  by_contra h
  have hle : (2 : ℚ) ^ (spacing v + 1 + 23) ≤ |v| := by
    rw [show spacing v + 1 + 23 = spacing v + 24 by omega]
    exact not_lt.mp h
  have := le_spacing_of_le hle
  omega

/-- Above the least exponent it is not finer than that. -/
theorem le_abs_of_spacing (hs : spacing v ≠ -149) (hv : v ≠ 0) : 2 ^ (spacing v + 23) ≤ |v| := by
  have hle := le_spacing v
  by_contra h
  have hlt : |v| < 2 ^ (spacing v - 1 + 24) := by
    rw [show spacing v - 1 + 24 = spacing v + 23 by omega]
    exact not_le.mp h
  have := spacing_le hv hlt (by omega)
  omega

/-- Rounding to 24 digits may carry into one more. -/
theorem roundEven_spacing_le (hv : 0 < v) : roundEven (v / 2 ^ spacing v) ≤ 2 ^ 24 := by
  have hlt := abs_lt_of_spacing v
  rw [abs_of_pos hv, show spacing v + 24 = spacing v + (24 : ℕ) from rfl, two_zpow_add,
    ← div_lt_iff₀' (two_zpow_pos _)] at hlt
  exact roundEven_le (by exact_mod_cast hlt.le)

/-- Above the least exponent no digit is lost in front. -/
theorem le_roundEven_spacing (hv : 0 < v) (hs : spacing v ≠ -149) :
    2 ^ 23 ≤ roundEven (v / 2 ^ spacing v) := by
  have hle := le_abs_of_spacing hs hv.ne'
  rw [abs_of_pos hv, show spacing v + 23 = spacing v + (23 : ℕ) from rfl, two_zpow_add,
    ← le_div_iff₀' (two_zpow_pos _)] at hle
  exact le_roundEven (by exact_mod_cast hle)

/-- Rounding moves by at most half the distance of the lines. -/
theorem abs_rounded_sub_le_spacing (v : ℚ) : |rounded v - v| ≤ 2 ^ spacing v / 2 := by
  have hpos := two_zpow_pos (spacing v)
  calc |rounded v - v|
    _ = |roundEven (v / 2 ^ spacing v) - v / 2 ^ spacing v| * 2 ^ spacing v := by
        rw [← abs_of_pos hpos, ← abs_mul, abs_of_pos hpos, sub_mul, div_mul_cancel₀ _ hpos.ne',
          rounded]
    _ ≤ 1 / 2 * 2 ^ spacing v := by gcongr; exact abs_roundEven_sub_le _
    _ = 2 ^ spacing v / 2 := by ring

/-- Rounding is off by half a unit in the last of 24 digits, or by half of the least number. -/
theorem abs_rounded_sub_le (v : ℚ) : |rounded v - v| ≤ |v| / 2 ^ 24 + 1 / 2 ^ 150 := by
  have hnear := abs_rounded_sub_le_spacing v
  have hnonneg := abs_nonneg v
  rcases eq_or_ne v 0 with rfl | hv
  · simp
  by_cases hs : spacing v = -149
  · -- on the finest grid the error is absolute, on any other one relative
    rw [hs] at hnear
    have : (2 : ℚ) ^ (-149 : ℤ) / 2 = 1 / 2 ^ 150 := by norm_num
    linarith [div_nonneg hnonneg (show (0 : ℚ) ≤ 2 ^ 24 by norm_num)]
  · have hle := le_abs_of_spacing hs hv
    have : (2 : ℚ) ^ (spacing v + 23) = 2 ^ spacing v * 2 ^ 23 := two_zpow_add _ 23
    linarith

/-- Numbers of 24 digits are on the grid. -/
theorem rounded_of_digits {m e : ℤ} (hm : |m| < 2 ^ 24) (he : -149 ≤ e) :
    rounded (m * 2 ^ e) = m * 2 ^ e := by
  rcases eq_or_ne m 0 with rfl | hne
  · simp
  have hm : |(m : ℚ)| < 2 ^ 24 := by exact_mod_cast hm
  have hv : (m * 2 ^ e : ℚ) ≠ 0 := mul_ne_zero (Int.cast_ne_zero.mpr hne) (two_zpow_pos e).ne'
  have hlt : |(m * 2 ^ e : ℚ)| < 2 ^ (e + 24) := by
    rw [abs_mul, abs_of_pos (two_zpow_pos e), show e + 24 = e + (24 : ℕ) from rfl, two_zpow_add,
      mul_comm]
    gcongr
  -- the grid has a line for each multiple of the last digit
  obtain ⟨k, hk⟩ := Int.le.dest (spacing_le hv hlt he)
  have hgrid : (m * 2 ^ e : ℚ) / 2 ^ spacing (m * 2 ^ e) = (m * 2 ^ k : ℤ) := by
    rw [div_eq_iff (two_zpow_pos _).ne']
    conv_lhs => rw [← hk, two_zpow_add]
    push_cast
    ring
  rw [rounded, hgrid, roundEven_intCast, ← hgrid, div_mul_cancel₀ _ (two_zpow_pos _).ne']

/-- Natural numbers of 24 digits are on the grid. -/
theorem rounded_natCast {m : ℕ} (hm : m < 2 ^ 24) : rounded m = m := by
  have hdigits : |(m : ℤ)| < 2 ^ 24 := by
    rw [Nat.abs_cast]
    exact_mod_cast hm
  simpa using rounded_of_digits hdigits (e := 0) (by norm_num)

/-- Rounding does not pass the lines of the grid. -/
theorem rounded_le_grid (h : v ≤ n * 2 ^ spacing v) : rounded v ≤ n * 2 ^ spacing v := by
  have hpos := two_zpow_pos (spacing v)
  rw [rounded]
  gcongr
  exact roundEven_le ((div_le_iff₀ hpos).mpr h)

theorem grid_le_rounded (h : n * 2 ^ spacing v ≤ v) : n * 2 ^ spacing v ≤ rounded v := by
  have hpos := two_zpow_pos (spacing v)
  rw [rounded]
  gcongr
  exact le_roundEven ((le_div_iff₀ hpos).mpr h)

theorem rounded_nonneg (hv : 0 ≤ v) : 0 ≤ rounded v := by
  simpa using grid_le_rounded (v := v) (n := 0) (by simpa using hv)

/-- Greater numbers have no finer grid. -/
theorem spacing_mono (hv : 0 < v) (hvw : v ≤ w) : spacing v ≤ spacing w := by
  rw [spacing, spacing, abs_of_pos hv, abs_of_pos (hv.trans_le hvw)]
  exact max_le_max_right _ (Int.sub_le_sub_right (Int.log_mono_right hv hvw) _)

/-- Where the greater number has a coarser grid, the power of two with which this grid begins lies
between the numbers. -/
theorem two_zpow_between (hv : 0 < v) (hvw : v ≤ w) (hlt : spacing v < spacing w) :
    v ≤ 2 ^ (spacing w + 23) ∧ 2 ^ (spacing w + 23) ≤ w := by
  have hw := hv.trans_le hvw
  have hfine : spacing w ≠ -149 := by
    have := le_spacing v
    omega
  constructor
  · have hbelow := abs_lt_of_spacing v
    rw [abs_of_pos hv] at hbelow
    exact hbelow.le.trans (zpow_le_zpow_right₀ one_le_two (by omega))
  · simpa [abs_of_pos hw] using le_abs_of_spacing hfine hw.ne'

/-- Rounding keeps the order of numbers that are not negative. -/
theorem rounded_le_rounded (hv : 0 ≤ v) (hvw : v ≤ w) : rounded v ≤ rounded w := by
  have hpos := two_zpow_pos (spacing w)
  rcases hv.eq_or_lt with rfl | hv
  · rw [rounded_zero]
    exact rounded_nonneg hvw
  rcases (spacing_mono hv hvw).lt_or_eq with hlt | heq
  · -- the power of two between the numbers lies on both grids
    obtain ⟨hbelow, habove⟩ := two_zpow_between hv hvw hlt
    have hcoarse : (2 : ℚ) ^ (spacing w + 23) = ((2 ^ 23 : ℤ) : ℚ) * 2 ^ spacing w := by
      rw [show spacing w + 23 = spacing w + (23 : ℕ) from rfl, two_zpow_add, mul_comm]
      norm_cast
    obtain ⟨k, hk⟩ := Int.le.dest (show spacing v ≤ spacing w + 23 by omega)
    have hfine : (2 : ℚ) ^ (spacing w + 23) = ((2 ^ k : ℤ) : ℚ) * 2 ^ spacing v := by
      rw [← hk, two_zpow_add, mul_comm]
      norm_cast
    calc rounded v
      _ ≤ 2 ^ (spacing w + 23) := by
          rw [hfine] at hbelow ⊢
          exact rounded_le_grid hbelow
      _ ≤ rounded w := by
          rw [hcoarse] at habove ⊢
          exact grid_le_rounded habove
  · have hmono := roundEven_mono (div_le_div_of_nonneg_right hvw hpos.le)
    rw [rounded, rounded, heq]
    gcongr

/-- Rounding keeps the order, also where the grid changes between two numbers and across zero. -/
theorem rounded_mono : Monotone rounded := by
  intro v w hvw
  rcases le_total 0 v with hv | hv
  · exact rounded_le_rounded hv hvw
  rcases le_total 0 w with hw | hw
  · -- zero lies between the numbers
    have hneg := rounded_nonneg (neg_nonneg.mpr hv)
    rw [rounded_neg] at hneg
    linarith [rounded_nonneg hw]
  · have hneg := rounded_le_rounded (neg_nonneg.mpr hw) (neg_le_neg hvw)
    rw [rounded_neg, rounded_neg] at hneg
    linarith

end InfixCalculator.Binary32
