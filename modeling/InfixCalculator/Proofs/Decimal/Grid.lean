import InfixCalculator.Decimal
import InfixCalculator.Proofs.Decimal
import Mathlib.Tactic.FieldSimp

/-!
# Decimals on grids

The decimals with one exponent form a grid. A magnitude lies between two neighbours on it, and if
any point of the grid reads back as the magnitude, so does the neighbour on the same side
(`Decimal.magnitude_below`, `Decimal.magnitude_above`). The search therefore misses no grid
(`Decimal.onGrid?_eq_none`), and what it finds lies on the coarsest grid with a hit:
`Decimal.isCoarsest_shortest`.
-/

namespace InfixCalculator.Decimal

open Binary64

variable {m n : ℕ} {e : ℤ} {d : Decimal}

/-- The distance of two neighbours on a grid, in units. -/
def step (e : ℤ) : ℚ :=
  10 ^ e * unitsPerOne

theorem step_pos (e : ℤ) : 0 < step e :=
  mul_pos (zpow_pos (by norm_num) e) cast_unitsPerOne_pos

theorem step_mono {e' : ℤ} (h : e ≤ e') : step e ≤ step e' :=
  mul_le_mul_of_nonneg_right (zpow_le_zpow_right₀ (by norm_num) h) cast_unitsPerOne_pos.le

/-- Each grid is ten times as coarse as the next one. -/
theorem step_succ (e : ℤ) : step (e + 1) = 10 * step e := by
  rw [step, step, zpow_add_one₀ (by norm_num), mul_comm _ (10 : ℚ), mul_assoc]

/-- A decimal as a number of units. -/
def scaled (d : Decimal) : ℚ :=
  d.toRat * unitsPerOne

theorem scaled_mk (n : ℕ) (e : ℤ) : (⟨n, e⟩ : Decimal).scaled = n * step e := by
  rw [scaled, toRat, mul_assoc, step]

/-- More digits at a greater exponent are a greater number. -/
theorem scaled_mono {n' : ℕ} {e' : ℤ} (hn : n ≤ n') (he : e ≤ e') :
    (⟨n, e⟩ : Decimal).scaled ≤ (⟨n', e'⟩ : Decimal).scaled := by
  rw [scaled_mk, scaled_mk]
  exact mul_le_mul (Nat.cast_le.mpr hn) (step_mono he) (step_pos e).le (Nat.cast_nonneg n')

/-- What lies between two quantities that read back as a magnitude reads back as it too. -/
theorem magnitude_between {low high : ℚ} (hlow : IsNearest low m) (hhigh : IsNearest high m)
    (hle : low ≤ d.scaled) (hge : d.scaled ≤ high) : d.magnitude = m :=
  magnitude_eq_iff.mpr (hlow.between hhigh hle hge)

/-! ## The two neighbours -/

/-- The point of a grid below a magnitude. -/
def below (m : ℕ) (e : ℤ) : Decimal :=
  ⟨(position m e).floor, e⟩

/-- The point of a grid above a magnitude. -/
def above (m : ℕ) (e : ℤ) : Decimal :=
  ⟨(position m e).floor + 1, e⟩

/-- The denominator of the quotient that `position` divides. -/
def positionDen (e : ℤ) : ℕ :=
  unitsPerOne * Nat.pow 10 e.toNat

/-- The numerator of the quotient that `position` divides. -/
def positionNum (m : ℕ) (e : ℤ) : ℕ :=
  units m * Nat.pow 10 (-e).toNat

theorem positionDen_pos (e : ℤ) : 0 < positionDen e :=
  Nat.mul_pos unitsPerOne_pos (Nat.pow_pos (by decide))

/-- The point below is found by division. -/
theorem floor_eq (m : ℕ) (e : ℤ) : (position m e).floor = positionNum m e / positionDen e :=
  rfl

/-- Multiplied by a power of ten, the points of a grid are natural numbers. -/
theorem scaled_mul (n : ℕ) (e : ℤ) :
    (⟨n, e⟩ : Decimal).scaled * 10 ^ (-e).toNat = (n * positionDen e : ℕ) := by
  rw [scaled, toRat_eq_div, numerator, denominator, positionDen, Nat.pow_eq, Nat.pow_eq,
    Nat.cast_mul, Nat.cast_mul, Nat.cast_mul, Nat.cast_pow, Nat.cast_pow, Nat.cast_ofNat]
  generalize (unitsPerOne : ℚ) = u
  field_simp

/-- So is the number whose neighbours are wanted. -/
theorem units_mul (m : ℕ) (e : ℤ) : (units m : ℚ) * 10 ^ (-e).toNat = positionNum m e := by
  rw [positionNum, Nat.pow_eq, Nat.cast_mul, Nat.cast_pow, Nat.cast_ofNat]

/-- The point below is at most the number. -/
theorem scaled_below_le (m : ℕ) (e : ℤ) : (below m e).scaled ≤ units m := by
  have hpow : (0 : ℚ) < 10 ^ (-e).toNat := by positivity
  rw [← mul_le_mul_iff_of_pos_right hpow, below, scaled_mul, units_mul, Nat.cast_le, floor_eq]
  exact Nat.div_mul_le_self _ _

/-- The point above is greater than the number. -/
theorem lt_scaled_above (m : ℕ) (e : ℤ) : (units m : ℚ) < (above m e).scaled := by
  have hpow : (0 : ℚ) < 10 ^ (-e).toNat := by positivity
  rw [← mul_lt_mul_iff_of_pos_right hpow, above, scaled_mul, units_mul, Nat.cast_lt, floor_eq,
    Nat.mul_comm]
  exact Nat.lt_mul_div_succ _ (positionDen_pos e)

theorem le_two_mul_mod_iff (num den : ℕ) :
    den ≤ 2 * (num % den) ↔ num / den * den + (num / den + 1) * den ≤ num + num := by
  have hdiv := Nat.div_add_mod' num den
  have hnext : (num / den + 1) * den = num / den * den + den := Nat.succ_mul _ _
  omega

/-- Whether the point above is at least as near. -/
theorem upper_iff (m : ℕ) (e : ℤ) :
    (position m e).upper ↔ (below m e).scaled + (above m e).scaled ≤ 2 * units m := by
  have hpow : (0 : ℚ) < 10 ^ (-e).toNat := by positivity
  have hupper : (position m e).upper ↔ positionDen e ≤ 2 * (positionNum m e % positionDen e) := by
    simp only [position, decide_eq_true_iff, positionDen, positionNum]
  rw [← mul_le_mul_iff_of_pos_right hpow, add_mul, two_mul, add_mul, below, above, scaled_mul,
    scaled_mul, units_mul, ← Nat.cast_add, ← Nat.cast_add, Nat.cast_le, floor_eq,
    ← le_two_mul_mod_iff]
  exact hupper

/-- With any point below a magnitude the nearest one reads back. -/
theorem magnitude_below (hm : m ≤ infinityMagnitude) (h : (⟨n, e⟩ : Decimal).magnitude = m)
    (hn : n ≤ (position m e).floor) : (below m e).magnitude = m :=
  magnitude_between (magnitude_eq_iff.mp h) (isNearest_units hm) (scaled_mono hn le_rfl)
    (scaled_below_le m e)

/-- If a point above the number reads back as it, so does the nearest of them. -/
theorem magnitude_above (hm : m ≤ infinityMagnitude) (h : (⟨n, e⟩ : Decimal).magnitude = m)
    (hn : (position m e).floor < n) : (above m e).magnitude = m :=
  magnitude_between (isNearest_units hm) (magnitude_eq_iff.mp h) (lt_scaled_above m e).le
    (scaled_mono hn le_rfl)

/-! ## One grid -/

/-- A decimal reads back as a magnitude, and no other on its grid that does is nearer. -/
structure IsHit (m : ℕ) (d : Decimal) : Prop where
  magnitude : d.magnitude = m
  closest : ∀ n, (⟨n, d.exponent⟩ : Decimal).magnitude = m →
    |d.scaled - units m| ≤ |(⟨n, d.exponent⟩ : Decimal).scaled - units m|

/-- The candidates in the order in which they are tried. -/
def candidates (m : ℕ) (e : ℤ) : List Decimal :=
  if (position m e).upper then [above m e, below m e] else [below m e, above m e]

theorem onGrid?_eq (m : ℕ) (e : ℤ) :
    onGrid? m e = (candidates m e).find? (·.magnitude = m) :=
  rfl

theorem mem_candidates : d ∈ candidates m e ↔ d = below m e ∨ d = above m e := by
  unfold candidates
  split
  · rw [List.mem_pair, or_comm]
  · rw [List.mem_pair]

/-- Where neither neighbour reads back as the number, no point of the grid does. -/
theorem onGrid?_eq_none (hm : m ≤ infinityMagnitude) (h : onGrid? m e = none) (n : ℕ) :
    (⟨n, e⟩ : Decimal).magnitude ≠ m := by
  intro hn
  rw [onGrid?_eq, List.find?_eq_none] at h
  rcases le_or_gt n (position m e).floor with hle | hgt
  · exact h (below m e) (mem_candidates.mpr (.inl rfl)) (decide_eq_true (magnitude_below hm hn hle))
  · exact h (above m e) (mem_candidates.mpr (.inr rfl)) (decide_eq_true (magnitude_above hm hn hgt))

/-- The neighbour below is the nearest of the points that are not greater. -/
theorem abs_below_sub_le (hn : n ≤ (position m e).floor) :
    |(below m e).scaled - units m| ≤ |(⟨n, e⟩ : Decimal).scaled - units m| := by
  have hfloor := scaled_mono hn (le_refl e)
  have hbelow := scaled_below_le m e
  rw [below] at hbelow ⊢
  rw [abs_of_nonpos (by linarith), abs_of_nonpos (by linarith)]
  linarith

/-- The neighbour above is the nearest of the greater points. -/
theorem abs_above_sub_le (hn : (position m e).floor < n) :
    |(above m e).scaled - units m| ≤ |(⟨n, e⟩ : Decimal).scaled - units m| := by
  have hceil := scaled_mono hn (le_refl e)
  have habove := lt_scaled_above m e
  rw [above] at habove ⊢
  rw [abs_of_nonneg (by linarith), abs_of_nonneg (by linarith)]
  linarith

/-- Which neighbour is tried first depends on which one is nearer. -/
theorem upper_iff_abs (m : ℕ) (e : ℤ) :
    (position m e).upper ↔ |(above m e).scaled - units m| ≤ |(below m e).scaled - units m| := by
  have hlt := (scaled_below_le m e).trans_lt (lt_scaled_above m e)
  rw [upper_iff, add_comm, ← abs_sub_le_abs_sub_iff_of_gt hlt]

/-- The second of two candidates is only found if the first fails. -/
theorem find?_pair {α : Type*} {p : α → Bool} {a b c : α} (h : [a, b].find? p = some c) :
    (c = a ∧ p a) ∨ (c = b ∧ p b ∧ ¬ p a) := by
  by_cases ha : p a
  · rw [List.find?_cons_of_pos ha] at h
    exact .inl ⟨(Option.some.inj h).symm, ha⟩
  · rw [List.find?_cons_of_neg ha, List.find?_singleton] at h
    split at h
    case isTrue hb => exact .inr ⟨(Option.some.inj h).symm, hb, ha⟩
    case isFalse => cases h

/-- What is found, and why it is not the other candidate. -/
theorem onGrid?_cases (h : onGrid? m e = some d) :
    (d = above m e ∧ (above m e).magnitude = m ∧
        ((position m e).upper ∨ (below m e).magnitude ≠ m)) ∨
      (d = below m e ∧ (below m e).magnitude = m ∧
        (¬ (position m e).upper ∨ (above m e).magnitude ≠ m)) := by
  rw [onGrid?_eq, candidates] at h
  split at h
  case isTrue hupper =>
    rcases find?_pair h with ⟨hd, habove⟩ | ⟨hd, hbelow, habove⟩
    · exact .inl ⟨hd, of_decide_eq_true habove, .inl hupper⟩
    · exact .inr ⟨hd, of_decide_eq_true hbelow, .inr fun hm => habove (decide_eq_true hm)⟩
  case isFalse hupper =>
    rcases find?_pair h with ⟨hd, hbelow⟩ | ⟨hd, habove, hbelow⟩
    · exact .inr ⟨hd, of_decide_eq_true hbelow, .inl hupper⟩
    · exact .inl ⟨hd, of_decide_eq_true habove, .inr fun hm => hbelow (decide_eq_true hm)⟩

/-- What is found on a grid reads back, and no other point of the grid that does is nearer. -/
theorem isHit_of_onGrid? (hm : m ≤ infinityMagnitude) (h : onGrid? m e = some d) :
    d.exponent = e ∧ IsHit m d := by
  have hupper := upper_iff_abs m e
  rcases onGrid?_cases h with ⟨rfl, hmagnitude, hother⟩ | ⟨rfl, hmagnitude, hother⟩
  · refine ⟨rfl, hmagnitude, fun n hn => ?_⟩
    rcases le_or_gt n (position m e).floor with hle | hgt
    · have hbelow := magnitude_below hm hn hle
      exact (hupper.mp (hother.resolve_right (not_not_intro hbelow))).trans (abs_below_sub_le hle)
    · exact abs_above_sub_le hgt
  · refine ⟨rfl, hmagnitude, fun n hn => ?_⟩
    rcases le_or_gt n (position m e).floor with hle | hgt
    · exact abs_below_sub_le hle
    · have habove := magnitude_above hm hn hgt
      have hnearer := hupper.not.mp (hother.resolve_right (not_not_intro habove))
      exact (not_le.mp hnearer).le.trans (abs_above_sub_le hgt)

/-! ## From the coarsest grid to the finest -/

/-- A hit on a grid where the next coarser one has none. -/
structure IsCoarsest (m : ℕ) (d : Decimal) : Prop extends IsHit m d where
  coarser : ∀ n, (⟨n, d.exponent + 1⟩ : Decimal).magnitude ≠ m

/-- Where the last grid holds the magnitude itself, the first hit lies on the coarsest grid. -/
theorem isCoarsest_firstHit {last : Decimal} (hm : m ≤ infinityMagnitude)
    (hlast : last.scaled = units m) (finer : ℕ)
    (hcoarser : ∀ n, (⟨n, last.exponent + finer + 1⟩ : Decimal).magnitude ≠ m) :
    IsCoarsest m (firstHit (onGrid? m) last (last.exponent + finer) finer) := by
  -- on the grids still to be tried; all that were tried before had no hit
  induction finer with
  | zero =>
    rw [Nat.cast_zero, add_zero] at hcoarser
    refine ⟨⟨?_, fun n _ => ?_⟩, hcoarser⟩
    · rw [firstHit, magnitude_eq_iff, ← scaled, hlast]
      exact isNearest_units hm
    · rw [firstHit, hlast, sub_self, abs_zero]
      exact abs_nonneg _
  | succ finer ih =>
    have hnext : last.exponent + (finer + 1 : ℕ) = last.exponent + finer + 1 := by
      push_cast
      ring
    rw [hnext] at hcoarser ⊢
    rw [firstHit]
    cases hgrid : onGrid? m (last.exponent + finer + 1) with
    | some decimal =>
      obtain ⟨hexponent, hhit⟩ := isHit_of_onGrid? hm hgrid
      refine ⟨hhit, fun n => ?_⟩
      rw [hexponent]
      exact hcoarser n
    | none =>
      rw [add_sub_cancel_right]
      exact ih (onGrid?_eq_none hm hgrid)

theorem positionDen_dvd_positionNum {k : ℕ} (hk : unitsPerOne = 2 ^ k) (m : ℕ) :
    positionDen (-k) ∣ positionNum m (-k) := by
  have hten : 2 ^ k ∣ 10 ^ k := pow_dvd_pow_of_dvd (by decide) k
  have hzero : (-(k : ℤ)).toNat = 0 := by omega
  have hneg : (- -(k : ℤ)).toNat = k := by omega
  rw [positionDen, positionNum, hk, hzero, hneg, Nat.pow_eq, Nat.pow_eq, pow_zero, Nat.mul_one]
  exact hten.mul_left (units m)

/-- The finest grid contains every magnitude. -/
theorem scaled_below_finest (m : ℕ) : (below m finest).scaled = units m := by
  have hpow : (10 : ℚ) ^ (-finest).toNat ≠ 0 := by positivity
  have hdvd : positionDen finest ∣ positionNum m finest :=
    positionDen_dvd_positionNum unitsPerOne_eq m
  rw [← mul_left_inj' hpow, below, scaled_mul, units_mul, Nat.cast_inj, floor_eq,
    Nat.div_mul_cancel hdvd]

/-- A power of ten above the integer part of a magnitude, by the number of its binary digits. -/
theorem lt_ten_pow (v : ℕ) : v < 10 ^ (v.log2 / 3 + 1) :=
  calc v < 2 ^ (v.log2 + 1) := Nat.lt_log2_self
    _ ≤ 2 ^ (3 * (v.log2 / 3 + 1)) := Nat.pow_le_pow_right (by decide) (by omega)
    _ = 8 ^ (v.log2 / 3 + 1) := pow_mul 2 3 _
    _ ≤ 10 ^ (v.log2 / 3 + 1) := Nat.pow_le_pow_left (by decide) _

/-- On the coarsest grid the number lies below the first point. -/
theorem units_lt_coarsest (m : ℕ) : (units m : ℚ) < step (coarsest m) := by
  have hlt := (Nat.div_lt_iff_lt_mul unitsPerOne_pos).mp (lt_ten_pow (units m / unitsPerOne))
  rw [step, zpow_natCast, coarsest]
  calc (units m : ℚ) < (10 ^ ((units m / unitsPerOne).log2 / 3 + 1) * unitsPerOne : ℕ) :=
        Nat.cast_lt.mpr hlt
    _ = _ := by rw [Nat.cast_mul, Nat.cast_pow, Nat.cast_ofNat]

/-- The points of the grid before the first one are zero, or more than ten times the magnitude. -/
theorem magnitude_ne_of_coarsest (hpos : 0 < m) (hm : m < infinityMagnitude) (n : ℕ) :
    (⟨n, coarsest m + 1⟩ : Decimal).magnitude ≠ m := by
  intro h
  obtain ⟨-, -, habove⟩ := isNearest_iff.mp (magnitude_eq_iff.mp h)
  -- the middle to the next magnitude is at most half as much again as the magnitude
  have hmiddle := (habove (m + 1) hm m.lt_succ_self).1
  rw [← scaled, scaled_mk, step_succ, units_succ, Nat.cast_add] at hmiddle
  have hspacing : (spacing m : ℚ) ≤ units m := Nat.cast_le.mpr (spacing_le_units hpos)
  have hunits := units_lt_coarsest m
  have hone : (1 : ℚ) ≤ n := Nat.one_le_cast.mpr (digits_pos hpos h)
  have hstep := mul_le_mul_of_nonneg_right hone (step_pos (coarsest m)).le
  linarith

/-- The search ends on the coarsest of all grids with a point that reads back as the magnitude. -/
theorem isCoarsest_shortest (hpos : 0 < m) (hm : m < infinityMagnitude) :
    IsCoarsest m (shortest m) := by
  have hlast : (below m finest).exponent = finest := rfl
  have hfirst : finest + ((coarsest m : ℤ) - finest).toNat = coarsest m := by
    rw [finest]
    omega
  have hcoarsest :=
    isCoarsest_firstHit hm.le (scaled_below_finest m) ((coarsest m : ℤ) - finest).toNat
  rw [hlast, hfirst] at hcoarsest
  exact hcoarsest (magnitude_ne_of_coarsest hpos hm)

end InfixCalculator.Decimal
