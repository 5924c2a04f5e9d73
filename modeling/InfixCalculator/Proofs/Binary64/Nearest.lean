import InfixCalculator.Binary64
import Mathlib.Data.Rat.Cast.Order
import Mathlib.Tactic.Linarith
import Mathlib.Tactic.Positivity
import Mathlib.Tactic.Ring
import Mathlib.Tactic.Zify

/-!
# Rounding to the nearest magnitude

The finite magnitudes, with `2 ^ 1024` above them in the place of infinity, are numbers of units
whose distance doubles from binade to binade (`units_succ`). A magnitude is nearest to a quantity of
units if the quantity lies between the middles to its two neighbours (`isNearest_of_neighbours`).
`nearest` rounds a quotient on the grid of the binade that holds it, and this gives the nearest of
all magnitudes: `isNearest_nearest`.

A quantity has one nearest magnitude (`IsNearest.unique`), and the quantities that share it have no
gaps (`IsNearest.between`). An integer is nearest to an integer (`unitsPerOne_dvd_of_isNearest`).
-/

namespace InfixCalculator

section Distances

variable {a b q : ℚ}

/-- Of two points the lower one is at least as near to what is not above their middle. -/
theorem abs_sub_le_abs_sub_iff_of_lt (h : a < b) : |a - q| ≤ |b - q| ↔ 2 * q ≤ a + b := by
  have hproduct : (b - q) ^ 2 - (a - q) ^ 2 = (b - a) * (a + b - 2 * q) := by ring
  rw [← sq_le_sq, ← sub_nonneg, hproduct, mul_nonneg_iff_of_pos_left (sub_pos.mpr h), sub_nonneg]

theorem abs_sub_le_abs_sub_iff_of_gt (h : b < a) : |a - q| ≤ |b - q| ↔ a + b ≤ 2 * q := by
  have hproduct : (b - q) ^ 2 - (a - q) ^ 2 = (a - b) * (2 * q - (a + b)) := by ring
  rw [← sq_le_sq, ← sub_nonneg, hproduct, mul_nonneg_iff_of_pos_left (sub_pos.mpr h), sub_nonneg]

/-- Two numbers are equally far from the middle between them only. -/
theorem abs_sub_eq_abs_sub_iff_of_ne (h : a ≠ b) : |a - q| = |b - q| ↔ a + b = 2 * q := by
  rcases h.lt_or_gt with h | h
  · rw [le_antisymm_iff, abs_sub_le_abs_sub_iff_of_lt h, abs_sub_le_abs_sub_iff_of_gt h,
      add_comm b a, ← le_antisymm_iff, eq_comm]
  · rw [le_antisymm_iff, abs_sub_le_abs_sub_iff_of_gt h, abs_sub_le_abs_sub_iff_of_lt h,
      add_comm b a, ← le_antisymm_iff]

end Distances

namespace Binary64

variable {m n s r t : ℕ} {q : ℚ}

/-! ## Units -/

theorem binade_eq : binade = 2 ^ 52 :=
  rfl

theorem binade_pos : 0 < binade := by decide

theorem even_binade : Even binade := ⟨2 ^ 51, by decide⟩

/-- How many units a magnitude is below the next one. -/
def spacing (m : ℕ) : ℕ :=
  2 ^ (m / binade - 1)

/-- A magnitude in the grid of its binade. -/
theorem exists_grid (m : ℕ) :
    ∃ s r, m = s * binade + r ∧ (s = 0 ∨ binade ≤ r) ∧ r < 2 * binade := by
  have hdiv := Nat.div_add_mod m binade
  have hmod := Nat.mod_lt m binade_pos
  rcases Nat.eq_zero_or_pos (m / binade) with hzero | hpos
  · refine ⟨0, m, by simp, .inl rfl, ?_⟩
    rw [hzero] at hdiv
    omega
  · -- all but the lowest binade begin at the middle of their grid
    refine ⟨m / binade - 1, binade + m % binade, ?_, .inr (Nat.le_add_right _ _), by omega⟩
    rw [← Nat.add_assoc, ← Nat.succ_mul, Nat.succ_eq_add_one, Nat.sub_add_cancel hpos,
      Nat.mul_comm, hdiv]

/-- A magnitude in a binade tells how often the spacing has been doubled; the lowest two binades
share one spacing. -/
theorem div_binade_sub_one (h : s = 0 ∨ binade ≤ r) (hr : r < 2 * binade) :
    (s * binade + r) / binade - 1 = s := by
  have hlt : r / binade < 2 := Nat.div_lt_of_lt_mul (by rwa [Nat.mul_comm])
  rw [Nat.mul_comm, Nat.mul_add_div binade_pos]
  rcases h with rfl | h
  · omega
  · have := Nat.div_pos h binade_pos
    omega

/-- Within a binade the spacing is constant. -/
theorem spacing_add (h : s = 0 ∨ binade ≤ r) (hr : r < 2 * binade) :
    spacing (s * binade + r) = 2 ^ s := by
  rw [spacing, div_binade_sub_one h hr]

/-- The magnitudes of a binade and the first one behind them lie on the grid of its spacing. -/
theorem units_add (h : s = 0 ∨ binade ≤ r) (hr : r ≤ 2 * binade) :
    units (s * binade + r) = r * 2 ^ s := by
  rcases hr.lt_or_eq with hr | rfl
  · simp only [units, div_binade_sub_one h hr, Nat.add_sub_cancel_left, Nat.pow_eq]
  · -- the first magnitude of the next binade
    have hnext : s * binade + 2 * binade = (s + 1) * binade + binade := by ring
    have hlt : binade < 2 * binade := by have := binade_pos; omega
    rw [hnext]
    simp only [units, div_binade_sub_one (.inr le_rfl) hlt, Nat.add_sub_cancel_left, Nat.pow_eq]
    ring

/-- Neighbouring magnitudes are one spacing apart. -/
theorem units_succ (m : ℕ) : units (m + 1) = units m + spacing m := by
  obtain ⟨s, r, rfl, h, hr⟩ := exists_grid m
  have hnext : s = 0 ∨ binade ≤ r + 1 := h.imp_right Nat.le_succ_of_le
  rw [Nat.add_assoc, units_add hnext hr, units_add h hr.le, spacing_add h hr]
  ring

theorem spacing_pos (m : ℕ) : 0 < spacing m := by
  unfold spacing
  positivity

/-- Magnitudes are ordered as the numbers are. -/
theorem units_strictMono : StrictMono units :=
  strictMono_nat_of_lt_succ fun m => by
    rw [units_succ]
    exact Nat.lt_add_of_pos_right (spacing_pos m)

theorem units_zero : units 0 = 0 := by decide

/-- The number of units by its usual name; evaluating it would take too long. -/
theorem unitsPerOne_eq : unitsPerOne = 2 ^ 1074 := by
  unfold unitsPerOne
  -- the power is not to be evaluated
  generalize 1074 = n
  exact Nat.pow_eq

theorem cast_unitsPerOne : (unitsPerOne : ℚ) = 2 ^ 1074 := by
  rw [unitsPerOne_eq, Nat.cast_pow, Nat.cast_ofNat]

theorem cast_unitsPerOne_pos : (0 : ℚ) < unitsPerOne := by
  rw [cast_unitsPerOne]
  exact pow_pos two_pos 1074

theorem unitsPerOne_pos : 0 < unitsPerOne :=
  Nat.cast_pos.mp cast_unitsPerOne_pos

/-- The magnitude of infinity takes the place of the first power of two beyond the range. -/
theorem units_infinityMagnitude : units infinityMagnitude = 2 ^ 1024 * unitsPerOne := by
  have hgrid : infinityMagnitude = 2046 * binade + binade := rfl
  rw [hgrid, units_add (.inr le_rfl) (by omega), binade_eq, unitsPerOne_eq, ← pow_add, ← pow_add]

/-! ## The nearest magnitude -/

/-- A magnitude is nearest to a quantity of units. Of two equally near ones the even one is. -/
structure IsNearest (q : ℚ) (m : ℕ) : Prop where
  le : m ≤ infinityMagnitude
  closest : ∀ n ≤ infinityMagnitude, |(units m : ℚ) - q| ≤ |(units n : ℚ) - q|
  even_of_tie : ∀ n ≤ infinityMagnitude, n ≠ m → |(units n : ℚ) - q| = |(units m : ℚ) - q| → Even m

theorem units_cast_lt (h : m < n) : (units m : ℚ) < units n :=
  Nat.cast_lt.mpr (units_strictMono h)

theorem units_cast_inj : (units m : ℚ) = units n ↔ m = n := by
  rw [Nat.cast_inj, units_strictMono.injective.eq_iff]

/-- The quantities with a given nearest magnitude lie between the middles to all others. -/
theorem isNearest_iff :
    IsNearest q m ↔ m ≤ infinityMagnitude ∧
      (∀ n < m, (units n + units m : ℚ) ≤ 2 * q ∧ ((units n + units m : ℚ) = 2 * q → Even m)) ∧
        ∀ n ≤ infinityMagnitude, m < n →
          2 * q ≤ units m + units n ∧ ((units m + units n : ℚ) = 2 * q → Even m) := by
  constructor
  · intro h
    refine ⟨h.le, fun n hn => ⟨?_, fun htie => ?_⟩, fun n hle hn => ⟨?_, fun htie => ?_⟩⟩
    · rw [add_comm, ← abs_sub_le_abs_sub_iff_of_gt (units_cast_lt hn)]
      exact h.closest n (hn.le.trans h.le)
    · have hne := (units_cast_lt hn).ne
      exact h.even_of_tie n (hn.le.trans h.le) hn.ne ((abs_sub_eq_abs_sub_iff_of_ne hne).mpr htie)
    · rw [← abs_sub_le_abs_sub_iff_of_lt (units_cast_lt hn)]
      exact h.closest n hle
    · have hne := (units_cast_lt hn).ne
      exact h.even_of_tie n hle hn.ne' ((abs_sub_eq_abs_sub_iff_of_ne hne).mpr htie).symm
  -- conversely, every other magnitude is below or above
  · rintro ⟨hle, hbelow, habove⟩
    refine ⟨hle, fun n hn => ?_, fun n hn hne htie => ?_⟩
    · rcases lt_trichotomy n m with hlt | rfl | hgt
      · rw [abs_sub_le_abs_sub_iff_of_gt (units_cast_lt hlt), add_comm]
        exact (hbelow n hlt).1
      · exact le_rfl
      · rw [abs_sub_le_abs_sub_iff_of_lt (units_cast_lt hgt)]
        exact (habove n hn hgt).1
    · rw [abs_sub_eq_abs_sub_iff_of_ne (units_cast_inj.not.mpr hne)] at htie
      rcases hne.lt_or_gt with hlt | hgt
      · exact (hbelow n hlt).2 htie
      · exact (habove n hn hgt).2 (add_comm (units n : ℚ) _ ▸ htie)

/-- The middles to the two neighbours decide. -/
theorem isNearest_of_neighbours (hle : m ≤ infinityMagnitude)
    (hbelow : ∀ n, n + 1 = m →
      (units n + units m : ℚ) ≤ 2 * q ∧ ((units n + units m : ℚ) = 2 * q → Even m))
    (habove : m < infinityMagnitude →
      2 * q ≤ units m + units (m + 1) ∧ ((units m + units (m + 1) : ℚ) = 2 * q → Even m)) :
    IsNearest q m := by
  refine isNearest_iff.mpr ⟨hle, fun n hn => ?_, fun n hn hlt => ?_⟩
  -- the middle to a magnitude further away is further away as well
  · obtain ⟨before, rfl⟩ := Nat.exists_eq_add_one_of_ne_zero hn.ne_bot
    obtain ⟨hmiddle, htie⟩ := hbelow before rfl
    have hunits : (units n : ℚ) ≤ units before :=
      Nat.cast_le.mpr (units_strictMono.monotone (Nat.le_of_lt_succ hn))
    exact ⟨by linarith, fun h => htie (by linarith)⟩
  · obtain ⟨hmiddle, htie⟩ := habove (hlt.trans_le hn)
    have hunits : (units (m + 1) : ℚ) ≤ units n :=
      Nat.cast_le.mpr (units_strictMono.monotone hlt)
    exact ⟨by linarith, fun h => htie (by linarith)⟩

/-- Two magnitudes equally near would both be even, but then there is a nearer one between them. -/
theorem IsNearest.not_lt (h : IsNearest q m) (h' : IsNearest q n) : ¬ m < n := by
  intro hlt
  obtain ⟨-, -, habove⟩ := isNearest_iff.mp h
  obtain ⟨hn, hbelow, -⟩ := isNearest_iff.mp h'
  -- the quantity would be in the middle of the two
  have hmiddle : (units m + units n : ℚ) = 2 * q := le_antisymm (hbelow m hlt).1 (habove n hn hlt).1
  have hevenm : Even m := (habove n hn hlt).2 hmiddle
  have hevenn : Even n := (hbelow m hlt).2 hmiddle
  have hbetween : m + 1 < n := by
    refine lt_of_le_of_ne hlt fun hsucc => ?_
    exact Nat.even_add_one.mp (hsucc ▸ hevenn) hevenm
  have hnearer := (habove (m + 1) (hbetween.le.trans hn) (Nat.lt_succ_self m)).1
  have hunits := units_cast_lt hbetween
  linarith

/-- Ties are broken, so there is at most one nearest magnitude. -/
theorem IsNearest.unique (h : IsNearest q m) (h' : IsNearest q n) : m = n :=
  le_antisymm (Nat.le_of_not_lt (h'.not_lt h)) (Nat.le_of_not_lt (h.not_lt h'))

/-- A magnitude is nearest to itself. -/
theorem isNearest_units (h : m ≤ infinityMagnitude) : IsNearest (units m) m where
  le := h
  closest n _ := by
    rw [sub_self, abs_zero]
    exact abs_nonneg _
  even_of_tie n _ hne htie := by
    rw [sub_self, abs_zero, abs_eq_zero, sub_eq_zero, units_cast_inj] at htie
    exact absurd htie hne

theorem IsNearest.eq_zero (h : IsNearest 0 m) : m = 0 := by
  rw [← Nat.cast_zero, ← units_zero] at h
  exact h.unique (isNearest_units (Nat.zero_le _))

/-- What lies between two quantities with the same nearest magnitude has it too. -/
theorem IsNearest.between {low high : ℚ} (hlow : IsNearest low m) (hhigh : IsNearest high m)
    (hle : low ≤ q) (hge : q ≤ high) : IsNearest q m := by
  obtain ⟨hm, hbelow, -⟩ := isNearest_iff.mp hlow
  obtain ⟨-, -, habove⟩ := isNearest_iff.mp hhigh
  refine isNearest_iff.mpr ⟨hm, fun n hn => ?_, fun n hn hlt => ?_⟩
  · obtain ⟨hmiddle, htie⟩ := hbelow n hn
    exact ⟨by linarith, fun h => htie (by linarith)⟩
  · obtain ⟨hmiddle, htie⟩ := habove n hn hlt
    exact ⟨by linarith, fun h => htie (by linarith)⟩

/-! ## Integers -/

/-- A magnitude as a multiple of the spacing of its binade. -/
def mantissa (m : ℕ) : ℕ :=
  m - (m / binade - 1) * binade

/-- The units of a magnitude are its mantissa at the spacing of its binade. -/
theorem units_eq (m : ℕ) : units m = mantissa m * 2 ^ (m / binade - 1) := by
  rw [units, Nat.pow_eq, mantissa]

theorem mantissa_pos (h : 0 < m) : 0 < mantissa m := by
  have hunits : units 0 < units m := units_strictMono h
  rw [units_zero, units_eq] at hunits
  exact Nat.pos_of_mul_pos_right hunits

theorem spacing_le_units (hpos : 0 < m) : spacing m ≤ units m := by
  rw [units_eq]
  exact Nat.le_mul_of_pos_left _ (mantissa_pos hpos)

/-- The spacing does not decrease. -/
theorem spacing_mono (h : m ≤ n) : spacing m ≤ spacing n :=
  Nat.pow_le_pow_right (by decide) (Nat.sub_le_sub_right (Nat.div_le_div_right h) 1)

/-- A magnitude to which a multiple of its spacing is near enough is this multiple. -/
theorem IsNearest.eq_units (h : IsNearest (t * spacing m : ℕ) m) (hm : m < infinityMagnitude) :
    t * spacing m = units m := by
  obtain ⟨-, hbelow, habove⟩ := isNearest_iff.mp h
  have hunits : units m = mantissa m * spacing m := units_eq m
  -- the multiple is less than half a spacing away from the magnitude, on either side
  have hhigh : t ≤ mantissa m := by
    have hmiddle := (habove (m + 1) hm m.lt_succ_self).1
    rw [units_succ, hunits] at hmiddle
    have hbound : 2 * t * spacing m ≤ (2 * mantissa m + 1) * spacing m := by
      norm_cast at hmiddle
      linarith
    have := Nat.le_of_mul_le_mul_right hbound (spacing_pos m)
    omega
  have hlow : mantissa m ≤ t := by
    rcases Nat.eq_zero_or_pos m with rfl | hpos
    · exact (by decide : mantissa 0 = 0).le.trans t.zero_le
    obtain ⟨n, rfl⟩ := Nat.exists_eq_add_one_of_ne_zero hpos.ne'
    have hmiddle := (hbelow n n.lt_succ_self).1
    have hspacing := spacing_mono n.le_succ
    have hsucc := units_succ n
    have hbound : 2 * mantissa (n + 1) * spacing (n + 1) ≤ (2 * t + 1) * spacing (n + 1) := by
      norm_cast at hmiddle
      linarith
    have := Nat.le_of_mul_le_mul_right hbound (spacing_pos (n + 1))
    omega
  rw [hunits, le_antisymm hhigh hlow]

/-- An integer is nearest to integers only. -/
theorem unitsPerOne_dvd_of_isNearest (h : IsNearest (n * unitsPerOne) m)
    (hm : m < infinityMagnitude) : unitsPerOne ∣ units m := by
  obtain ⟨k, hk⟩ : ∃ k, unitsPerOne = 2 ^ k := ⟨1074, unitsPerOne_eq⟩
  rcases le_total k (m / binade - 1) with hle | hge
  · -- the magnitude is so large that all of its neighbours are integers
    rw [hk, units_eq]
    exact (pow_dvd_pow 2 hle).mul_left _
  · -- the integer lies on the grid of the magnitude
    obtain ⟨c, hc⟩ : spacing m ∣ n * unitsPerOne := by
      rw [hk]
      exact (pow_dvd_pow 2 hge).mul_left n
    rw [← Nat.cast_mul, hc, Nat.mul_comm] at h
    rw [← h.eq_units hm, Nat.mul_comm, ← hc]
    exact Nat.dvd_mul_left _ _

/-! ## Rounding a quotient -/

/-- A multiple of a grid's spacing is nearest to a quantity. Of two equally near ones the even
multiple is. -/
structure IsRounded (q spacing : ℚ) (r : ℕ) : Prop where
  low : 2 * r * spacing ≤ 2 * q + spacing
  even_of_low : 2 * r * spacing = 2 * q + spacing → Even r
  high : 2 * q ≤ 2 * r * spacing + spacing
  even_of_high : 2 * q = 2 * r * spacing + spacing → Even r

theorem IsRounded.scale {spacing factor : ℚ} (h : IsRounded q spacing r) (hfactor : 0 < factor) :
    IsRounded (factor * q) (factor * spacing) r := by
  have hlow : 2 * r * (factor * spacing) = factor * (2 * r * spacing) := by ring
  have hq : 2 * (factor * q) = factor * (2 * q) := by ring
  refine ⟨?_, fun htie => h.even_of_low ?_, ?_, fun htie => h.even_of_high ?_⟩
  · rw [hlow, hq, ← mul_add]
    exact mul_le_mul_of_nonneg_left h.low hfactor.le
  · rw [hlow, hq, ← mul_add] at htie
    exact mul_left_cancel₀ hfactor.ne' htie
  · rw [hlow, hq, ← mul_add]
    exact mul_le_mul_of_nonneg_left h.high hfactor.le
  · rw [hlow, hq, ← mul_add] at htie
    exact mul_left_cancel₀ hfactor.ne' htie

/-- Beyond the end of a binade the spacing is not smaller. -/
theorem two_pow_le_spacing (h : s = 0 ∨ binade ≤ r) : 2 ^ s ≤ spacing (s * binade + r) := by
  refine Nat.pow_le_pow_right (by decide) ?_
  rw [Nat.mul_comm, Nat.mul_add_div binade_pos]
  rcases h with rfl | h
  · omega
  · have := Nat.div_pos h binade_pos
    omega

/-- The magnitude before the rounded one is no nearer, on the same grid or on the finer
one below. -/
theorem IsRounded.middle_below (h : IsRounded q (2 ^ s) r) (hq : s = 0 ∨ binade * 2 ^ s ≤ q)
    (hr : s = 0 ∨ binade ≤ r) (hr' : r ≤ 2 * binade) (hn : n + 1 = s * binade + r) :
    (units n + r * 2 ^ s : ℚ) ≤ 2 * q ∧ ((units n + r * 2 ^ s : ℚ) = 2 * q → Even r) := by
  have hunits : (units n + spacing n : ℚ) = r * 2 ^ s := by
    rw [← Nat.cast_add, ← units_succ, hn, units_add hr hr']
    push_cast
    rfl
  by_cases hgrid : s = 0 ∨ binade < r
  · -- the magnitude before lies on the same grid
    obtain ⟨before, rfl⟩ : ∃ before, r = before + 1 := by
      refine Nat.exists_eq_add_one_of_ne_zero fun hzero => ?_
      rcases hgrid with rfl | hlt
      · omega
      · omega
    obtain rfl : n = s * binade + before := by omega
    rw [spacing_add (hgrid.imp_right Nat.le_of_lt_succ) (by omega)] at hunits
    push_cast at hunits
    have hlow := h.low
    push_cast at hlow ⊢
    refine ⟨by linarith, fun htie => h.even_of_low ?_⟩
    push_cast
    linarith
  · -- the quantity is not below the first magnitude of its binade
    obtain ⟨hs, hfirst⟩ := not_or.mp hgrid
    obtain rfl : r = binade := le_antisymm (not_lt.mp hfirst) (hr.resolve_left hs)
    have hquantity := hq.resolve_left hs
    have hspacing : (0 : ℚ) < spacing n := Nat.cast_pos.mpr (spacing_pos n)
    exact ⟨by linarith, fun htie => by linarith⟩

/-- A quantity that is rounded beyond infinity is itself not below it, as its binade begins there or
above. -/
theorem units_infinity_le (hq : s = 0 ∨ binade * 2 ^ s ≤ q) (hr : r ≤ 2 * binade)
    (h : infinityMagnitude < s * binade + r) : (units infinityMagnitude : ℚ) ≤ q := by
  have hlast : infinityMagnitude = 2045 * binade + 2 * binade := rfl
  -- infinity is the first magnitude of the last binade but one beyond the range
  have hs : 2046 ≤ s := by
    by_contra hs
    have := Nat.mul_le_mul_right binade (Nat.le_of_lt_succ (not_le.mp hs))
    omega
  have hfirst : infinityMagnitude ≤ s * binade + binade := by
    have := Nat.mul_le_mul_right binade hs
    omega
  have hunits := units_strictMono.monotone hfirst
  rw [units_add (.inr le_rfl) (by omega)] at hunits
  refine le_trans ?_ (hq.resolve_left (by omega))
  exact_mod_cast hunits

/-- Rounding on the grid of the binade that holds a quantity finds the nearest of all magnitudes. -/
theorem IsRounded.isNearest (h : IsRounded q (2 ^ s) r) (hq : s = 0 ∨ binade * 2 ^ s ≤ q)
    (hr : s = 0 ∨ binade ≤ r) (hr' : r ≤ 2 * binade) :
    IsNearest q (min (s * binade + r) infinityMagnitude) := by
  have hunits : (units (s * binade + r) : ℚ) = r * 2 ^ s := by
    rw [units_add hr hr']
    push_cast
    rfl
  have heven : Even r → Even (s * binade + r) := (even_binade.mul_left s).add
  -- within the range the two neighbours decide, beyond it infinity has only one
  rcases le_or_gt (s * binade + r) infinityMagnitude with hle | hgt
  · rw [min_eq_left hle]
    refine isNearest_of_neighbours hle (fun n hn => ?_) fun _ => ?_
    · rw [hunits]
      obtain ⟨hmiddle, htie⟩ := h.middle_below hq hr hr' hn
      exact ⟨hmiddle, fun heq => heven (htie heq)⟩
    · have hnext : (2 ^ s : ℚ) ≤ spacing (s * binade + r) := by
        exact_mod_cast two_pow_le_spacing hr
      rw [units_succ, Nat.cast_add, hunits]
      have hhigh := h.high
      exact ⟨by linarith, fun htie => heven (h.even_of_high (by linarith))⟩
  · rw [min_eq_right hgt.le]
    have hquantity := units_infinity_le hq hr' hgt
    refine isNearest_of_neighbours le_rfl (fun n hn => ?_) fun hlt => absurd hlt (lt_irrefl _)
    have hbelow := units_cast_lt (hn ▸ Nat.lt_succ_self n : n < infinityMagnitude)
    exact ⟨by linarith, fun htie => by linarith⟩

section Quotient

variable {den : ℕ}

/-- Rounding a quotient of natural numbers leads to the nearest one, and to the even one from the
middle. -/
theorem isRounded_roundDiv (num : ℕ) (h : 0 < den) : IsRounded num den (roundDiv num den) := by
  have hdiv := Nat.div_add_mod num den
  have hmod := Nat.mod_lt num h
  have hproduct : 2 * (num / den) * den = 2 * (den * (num / den)) := by ring
  have hnext : 2 * (num / den + 1) * den = 2 * (num / den) * den + 2 * den := by ring
  -- in natural numbers, where the remainder decides
  have hspec : 2 * roundDiv num den * den ≤ 2 * num + den ∧
      (2 * roundDiv num den * den = 2 * num + den → Even (roundDiv num den)) ∧
        2 * num ≤ 2 * roundDiv num den * den + den ∧
          (2 * num = 2 * roundDiv num den * den + den → Even (roundDiv num den)) := by
    simp only [roundDiv]
    split
    case isTrue hdown =>
      rw [hproduct]
      refine ⟨by omega, fun htie => by omega, by omega, fun htie => ?_⟩
      rw [Nat.even_iff]
      omega
    case isFalse hup =>
      rw [hnext, hproduct]
      refine ⟨by omega, fun htie => ?_, by omega, fun htie => by omega⟩
      rw [Nat.even_iff]
      omega
  obtain ⟨hlow, hevenlow, hhigh, hevenhigh⟩ := hspec
  exact ⟨by exact_mod_cast hlow, fun htie => hevenlow (by exact_mod_cast htie),
    by exact_mod_cast hhigh, fun htie => hevenhigh (by exact_mod_cast htie)⟩

/-- The grid of the binade that holds a quotient, by the logarithm of its whole part. -/
theorem binade_of_quotient (num : ℕ) (h : 0 < den) :
    let doublings := (num / den).log2 - 52
    (doublings = 0 ∨ binade * (den * 2 ^ doublings) ≤ num) ∧
      num < 2 * binade * (den * 2 ^ doublings) := by
  intro doublings
  constructor
  · by_cases hlog : (num / den).log2 ≤ 52
    · exact .inl (Nat.sub_eq_zero_of_le hlog)
    have hne : num / den ≠ 0 := by
      intro hzero
      rw [hzero] at hlog
      exact hlog (by decide)
    -- the first digit of the whole part is the first one of the mantissa
    have hpow : binade * 2 ^ doublings = 2 ^ (num / den).log2 := by
      rw [binade_eq, ← pow_add, Nat.add_sub_cancel' (by omega)]
    refine .inr ?_
    calc binade * (den * 2 ^ doublings) = 2 ^ (num / den).log2 * den := by rw [← hpow]; ring
      _ ≤ num / den * den := Nat.mul_le_mul_right den (Nat.log2_self_le hne)
      _ ≤ num := Nat.div_mul_le_self num den
  · have hpow : 2 ^ ((num / den).log2 + 1) ≤ 2 * binade * 2 ^ doublings := by
      rw [binade_eq, ← pow_succ', ← pow_add]
      exact Nat.pow_le_pow_right (by decide) (by omega)
    calc num < den * (num / den + 1) := Nat.lt_mul_div_succ num h
      _ = (num / den + 1) * den := Nat.mul_comm _ _
      _ ≤ 2 ^ ((num / den).log2 + 1) * den := Nat.mul_le_mul_right den Nat.lt_log2_self
      _ ≤ 2 * binade * 2 ^ doublings * den := Nat.mul_le_mul_right den hpow
      _ = 2 * binade * (den * 2 ^ doublings) := by ring

/-- The nearest magnitude of a quotient is nearest to it. -/
theorem isNearest_nearest (num : ℕ) (h : 0 < den) :
    IsNearest (num * unitsPerOne / den) (nearest num den) := by
  obtain ⟨hlow, hhigh⟩ := binade_of_quotient (num * unitsPerOne) h
  rw [nearest, ← Nat.cast_mul]
  simp only [Nat.pow_eq]
  generalize (num * unitsPerOne / den).log2 - 52 = s at hlow hhigh ⊢
  generalize num * unitsPerOne = scaled at hlow hhigh ⊢
  have hden : (0 : ℚ) < den := Nat.cast_pos.mpr h
  have hspacing : 0 < den * 2 ^ s := by positivity
  have hrounded := isRounded_roundDiv scaled hspacing
  generalize roundDiv scaled (den * 2 ^ s) = r at hrounded ⊢
  -- what is rounded does not leave its binade, but may come to the end of it
  have hr : s = 0 ∨ binade ≤ r := by
    refine hlow.imp_right fun hlow => ?_
    have hbound : 2 * binade * (den * 2 ^ s) ≤ (2 * r + 1) * (den * 2 ^ s) := by
      have := hrounded.high
      norm_cast at this
      linarith
    have := Nat.le_of_mul_le_mul_right hbound hspacing
    omega
  have hr' : r ≤ 2 * binade := by
    have hbound : 2 * r * (den * 2 ^ s) < (2 * (2 * binade) + 1) * (den * 2 ^ s) := by
      have := hrounded.low
      norm_cast at this
      linarith
    have := Nat.lt_of_mul_lt_mul_right hbound
    omega
  have hscaled : IsRounded (scaled / den) (2 ^ s) r := by
    have hfactor := hrounded.scale (inv_pos.mpr hden)
    rwa [← div_eq_inv_mul, ← div_eq_inv_mul, Nat.cast_mul, mul_div_cancel_left₀ _ hden.ne',
      Nat.cast_pow, Nat.cast_ofNat] at hfactor
  refine hscaled.isNearest (hlow.imp_right fun hlow => ?_) hr hr'
  rw [le_div_iff₀ hden]
  have hcast : (binade * (den * 2 ^ s) : ℚ) ≤ scaled := by exact_mod_cast hlow
  linarith

end Quotient

end Binary64

end InfixCalculator
