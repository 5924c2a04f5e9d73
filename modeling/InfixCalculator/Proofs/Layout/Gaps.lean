import InfixCalculator.Proofs.Binary32.Signs
import InfixCalculator.Proofs.Layout.Paths

/-!
# Gaps and drift

The operands of a node stand at a distance on both sides of it that depends on the level alone
(`gapAt`); without rounding it would be `fraction` of the spread of the root. A path drifts to the
side by the sum of these gaps with their signs (`drift`). The coordinates that are computed in
single precision stay close to that, within `rounding` for each step (`Tame.abs_position_sub_le`).
-/

namespace InfixCalculator.Layout

open Binary32

/-! ## The gap of a level -/

/-- The spread of the nodes of a level. -/
def spreadAt (spread : Float32) : ℕ → Float32
  | 0 => spread
  | level + 1 => spreadAt spread level * 0.6

/-- The distance of the operands from a node of a level. -/
def gapAt (spread : Float32) (level : ℕ) : Float32 :=
  spreadAt spread level / (Float32.ofNat level * 0.5 + 1)

/-- A descent from the root goes down a level with every step. -/
theorem foldl_step_eq (origin : Point) (spread : Float32) (path : List Side) :
    path.foldl Spot.step ⟨origin, spread, 0⟩ =
      ⟨position origin spread path, spreadAt spread path.length, path.length⟩ := by
  induction path using List.reverseRecOn with
  | nil => rfl
  | append_singleton path side ih =>
    rw [position, List.foldl_concat, ih, List.length_append]
    cases side <;> rfl

theorem x_position_left (origin : Point) (spread : Float32) (path : List Side) :
    (position origin spread (path ++ [.left])).x =
      (position origin spread path).x - gapAt spread path.length := by
  rw [position, List.foldl_concat, foldl_step_eq]
  rfl

theorem x_position_right (origin : Point) (spread : Float32) (path : List Side) :
    (position origin spread (path ++ [.right])).x =
      (position origin spread path).x + gapAt spread path.length := by
  rw [position, List.foldl_concat, foldl_step_eq]
  rfl

/-! ## Without rounding -/

/-- The gap of a level for a spread of one. -/
def fraction (level : ℕ) : ℚ :=
  (3 / 5) ^ level / (level / 2 + 1)

/-- The sum of the gaps of some levels for a spread of one. -/
def reach (level count : ℕ) : ℚ :=
  ∑ i ∈ Finset.range count, fraction (level + i)

/-- How far a path from some level leads to the right for a spread of one. -/
def drift : ℕ → List Side → ℚ
  | _, [] => 0
  | level, .left :: path => -fraction level + drift (level + 1) path
  | level, .right :: path => fraction level + drift (level + 1) path

theorem fraction_pos (level : ℕ) : 0 < fraction level := by
  rw [fraction]
  positivity

/-- The gap shrinks by more than the factor of the spread. -/
theorem fraction_succ_le (level : ℕ) : fraction (level + 1) ≤ 3 / 5 * fraction level := by
  rw [fraction, fraction, pow_succ', mul_div_assoc]
  gcongr
  exact Nat.le_succ level

theorem fraction_le_pow (level : ℕ) : fraction level ≤ (3 / 5) ^ level :=
  div_le_self (by positivity) (by linarith [show (0 : ℚ) ≤ level / 2 by positivity])

theorem fraction_le_one (level : ℕ) : fraction level ≤ 1 :=
  (fraction_le_pow level).trans (pow_le_one₀ (by norm_num) (by norm_num))

theorem reach_succ (level count : ℕ) :
    reach level (count + 1) = fraction level + reach (level + 1) count := by
  rw [reach, reach, Finset.sum_range_succ']
  simp only [Nat.add_right_comm level, Nat.add_assoc, Nat.add_zero, add_comm]

theorem reach_nonneg (level count : ℕ) : 0 ≤ reach level count :=
  Finset.sum_nonneg fun _ _ => (fraction_pos _).le

theorem reach_mono (level : ℕ) : Monotone (reach level) := fun _ _ h =>
  Finset.sum_le_sum_of_subset_of_nonneg (Finset.range_mono h) fun _ _ _ => (fraction_pos _).le

/-- All levels from some level on reach no further than two and a half times its gap. -/
theorem reach_le (level count : ℕ) : reach level count ≤ 5 / 2 * fraction level := by
  induction count generalizing level with
  | zero => exact mul_nonneg (by norm_num) (fraction_pos level).le
  | succ count ih =>
    rw [reach_succ]
    linarith [ih (level + 1), fraction_succ_le level]

/-- The reach of all levels is found from the first few of them. -/
theorem reach_le_add (level count first : ℕ) :
    reach level count ≤ reach level first + 5 / 2 * fraction (level + first) := by
  induction first generalizing level count with
  | zero => simpa [reach] using reach_le level count
  | succ first ih =>
    cases count with
    | zero =>
      have hzero : reach level 0 = 0 := rfl
      linarith [fraction_pos (level + (first + 1)), reach_nonneg level (first + 1)]
    | succ count =>
      rw [reach_succ, reach_succ, Nat.add_comm first, ← Nat.add_assoc]
      linarith [ih (level + 1) count]

theorem drift_append (level : ℕ) (path path' : List Side) :
    drift level (path ++ path') = drift level path + drift (level + path.length) path' := by
  induction path generalizing level with
  | nil => simp [drift]
  | cons side path ih =>
    rw [List.cons_append, List.length_cons, Nat.add_comm path.length, ← Nat.add_assoc]
    cases side <;> simp only [drift, ih] <;> ring

theorem abs_drift_le (level : ℕ) (path : List Side) :
    |drift level path| ≤ reach level path.length := by
  induction path generalizing level with
  | nil => simp [drift, reach]
  | cons side path ih =>
    have habs := abs_of_pos (fraction_pos level)
    rw [List.length_cons, reach_succ]
    cases side with
    | left =>
      have := abs_add_le (-fraction level) (drift (level + 1) path)
      rw [abs_neg, habs] at this
      exact this.trans (by gcongr; exact ih _)
    | right =>
      have := abs_add_le (fraction level) (drift (level + 1) path)
      rw [habs] at this
      exact this.trans (by gcongr; exact ih _)

/-! ## With rounding -/

/-- What may be lost in one step of a descent. -/
def rounding (origin : Point) (spread : Float32) : ℚ :=
  (|toRat origin.x| + 12 * toRat spread) / 2 ^ 24 + 5 / 2 ^ 150

theorem toRat_shrinkage : toRat 0.6 = 3 / 5 + 2 / 5 / 2 ^ 24 := by
  have hunpack : (0.6 : Float32).toModel.unpack =
      .finite .positive 10066330 (-24) (by decide) := rfl
  rw [toRat, hunpack]
  norm_num [signed]

theorem toRat_half : toRat 0.5 = 1 / 2 := by
  have hunpack : (0.5 : Float32).toModel.unpack =
      .finite .positive (2 ^ 23) (-24) (by decide) := rfl
  rw [toRat, hunpack]
  norm_num [signed]

theorem toRat_one : toRat 1 = 1 :=
  (@toRat_ofNat 1 (by norm_num)).2.trans Nat.cast_one

variable {origin : Point} {spread : Float32} {level : ℕ}

/-- The spread does not grow. -/
theorem spreadAt_bounds (hfinite : spread.isFinite) (hnonneg : 0 ≤ toRat spread) (level : ℕ) :
    (spreadAt spread level).isFinite ∧ 0 ≤ toRat (spreadAt spread level) ∧
      toRat (spreadAt spread level) ≤ toRat spread := by
  induction level with
  | zero => exact ⟨hfinite, hnonneg, le_rfl⟩
  | succ level ih =>
    obtain ⟨hlevel, hpos, hle⟩ := ih
    have hfactor : (0.6 : Float32).isFinite := by decide +kernel
    have hrounds := rounds_mul hlevel hfactor
    rw [toRat_shrinkage] at hrounds
    obtain ⟨hnext, hpos', hle'⟩ := hrounds.isFinite_of_le hlevel (by positivity)
      (mul_le_of_le_one_right hpos (by norm_num))
    exact ⟨hnext, hpos', hle'.trans hle⟩

/-- The spread of a level, up to rounding. -/
theorem abs_spreadAt_sub_le (hfinite : spread.isFinite) (hnonneg : 0 ≤ toRat spread) (level : ℕ) :
    |toRat (spreadAt spread level) - (3 / 5) ^ level * toRat spread| ≤
      3 * toRat spread / 2 ^ 24 + 3 / 2 ^ 150 := by
  induction level with
  | zero =>
    rw [spreadAt, pow_zero, one_mul, sub_self, abs_zero]
    positivity
  | succ level ih =>
    obtain ⟨hlevel, hpos, hle⟩ := spreadAt_bounds hfinite hnonneg level
    obtain ⟨hnext, -, -⟩ := spreadAt_bounds hfinite hnonneg (level + 1)
    have hrounds := rounds_mul hlevel (show (0.6 : Float32).isFinite by decide +kernel)
    rw [toRat_shrinkage] at hrounds
    have hproduct : 0 ≤ toRat (spreadAt spread level) * (3 / 5 + 2 / 5 / 2 ^ 24) := by positivity
    have herror := hrounds.abs_sub_le hnext
    rw [abs_of_nonneg hproduct, ← spreadAt] at herror
    rw [pow_succ', mul_assoc]
    -- the error so far shrinks along with the spread, which makes room for the one of this step
    rw [abs_le] at ih herror ⊢
    constructor <;> linarith [ih.1, ih.2, herror.1, herror.2]

/-- The divisor of a level is exact. -/
theorem toRat_divisor (hlevel : level < 2 ^ 23) :
    (Float32.ofNat level * 0.5 + 1).isFinite ∧
      toRat (Float32.ofNat level * 0.5 + 1) = level / 2 + 1 := by
  obtain ⟨hnat, hvalue⟩ := toRat_ofNat hlevel
  have hhalf : (Float32.ofNat level * 0.5).isFinite ∧
      toRat (Float32.ofNat level * 0.5) = ((level : ℤ) : ℚ) * 2 ^ (-1 : ℤ) := by
    have hrounds := rounds_mul hnat (show (0.5 : Float32).isFinite by decide +kernel)
    have heq : toRat (Float32.ofNat level) * toRat 0.5 = ((level : ℤ) : ℚ) * 2 ^ (-1 : ℤ) := by
      rw [hvalue, toRat_half]
      norm_num
    rw [heq] at hrounds
    exact hrounds.exact (by rw [Nat.abs_cast]; exact_mod_cast hlevel.trans (by norm_num))
      (by norm_num) (by norm_num)
  have hrounds := rounds_add hhalf.1 (show (1 : Float32).isFinite by decide +kernel)
  have heq : toRat (Float32.ofNat level * 0.5) + toRat 1 =
      ((level + 2 : ℤ) : ℚ) * 2 ^ (-1 : ℤ) := by
    rw [hhalf.2, toRat_one]
    push_cast
    ring
  rw [heq] at hrounds
  obtain ⟨hfinite, hexact⟩ := hrounds.exact
    (by rw [abs_of_nonneg (by positivity)]; omega) (by norm_num) (by norm_num)
  refine ⟨hfinite, hexact.trans ?_⟩
  push_cast
  ring

/-- The gap of a level is the quotient, rounded. -/
theorem rounds_gapAt (hfinite : spread.isFinite) (hnonneg : 0 ≤ toRat spread)
    (hlevel : level < 2 ^ 23) :
    Rounds (toRat (spreadAt spread level) / (level / 2 + 1)) (gapAt spread level) := by
  obtain ⟨hdivisor, hvalue⟩ := toRat_divisor hlevel
  rw [← hvalue]
  exact rounds_div (spreadAt_bounds hfinite hnonneg level).1 hdivisor
    (by rw [hvalue]; positivity)

theorem gapAt_bounds (hfinite : spread.isFinite) (hnonneg : 0 ≤ toRat spread)
    (hlevel : level < 2 ^ 23) :
    (gapAt spread level).isFinite ∧ 0 ≤ toRat (gapAt spread level) ∧
      toRat (gapAt spread level) ≤ toRat spread := by
  obtain ⟨hspread, hpos, hle⟩ := spreadAt_bounds hfinite hnonneg level
  have hdivisor : (1 : ℚ) ≤ level / 2 + 1 := by linarith [show (0 : ℚ) ≤ level / 2 by positivity]
  obtain ⟨hgap, hgap', hgap''⟩ := (rounds_gapAt hfinite hnonneg hlevel).isFinite_of_le hspread
    (by positivity) (div_le_self hpos hdivisor)
  exact ⟨hgap, hgap', hgap''.trans hle⟩

/-- The gap of a level, up to rounding. -/
theorem abs_gapAt_sub_le (hfinite : spread.isFinite) (hnonneg : 0 ≤ toRat spread)
    (hlevel : level < 2 ^ 23) :
    |toRat (gapAt spread level) - fraction level * toRat spread| ≤
      4 * toRat spread / 2 ^ 24 + 4 / 2 ^ 150 := by
  obtain ⟨hspread, hpos, hle⟩ := spreadAt_bounds hfinite hnonneg level
  have hdivisor : (1 : ℚ) ≤ level / 2 + 1 := by linarith [show (0 : ℚ) ≤ level / 2 by positivity]
  have hquotient := div_le_self hpos hdivisor
  have hquotient' : 0 ≤ toRat (spreadAt spread level) / (level / 2 + 1) := by positivity
  have herror := (rounds_gapAt hfinite hnonneg hlevel).abs_sub_le
    (gapAt_bounds hfinite hnonneg hlevel).1
  rw [abs_of_nonneg hquotient'] at herror
  have hspreadError : |toRat (spreadAt spread level) / (level / 2 + 1) -
      fraction level * toRat spread| ≤ 3 * toRat spread / 2 ^ 24 + 3 / 2 ^ 150 := by
    have heq : toRat (spreadAt spread level) / (level / 2 + 1) - fraction level * toRat spread =
        (toRat (spreadAt spread level) - (3 / 5) ^ level * toRat spread) / (level / 2 + 1) := by
      rw [fraction]
      ring
    -- dividing by at least one does not enlarge the error of the spread
    rw [heq, abs_div, abs_of_pos (show (0 : ℚ) < level / 2 + 1 by positivity)]
    exact (div_le_self (abs_nonneg _) hdivisor).trans (abs_spreadAt_sub_le hfinite hnonneg level)
  rw [abs_le] at herror hspreadError ⊢
  constructor <;> linarith [herror.1, herror.2, hspreadError.1, hspreadError.2]

/-! ## The drift of a descent -/

theorem le_rounding (origin : Point) (spread : Float32) :
    12 * toRat spread / 2 ^ 24 ≤ rounding origin spread := by
  rw [rounding]
  linarith [abs_nonneg (toRat origin.x)]

theorem rounding_pos (origin : Point) (hpos : 0 < toRat spread) : 0 < rounding origin spread :=
  lt_of_lt_of_le (by positivity) (le_rounding origin spread)

/-- A descent in which every coordinate is finite. -/
structure Regular (origin : Point) (spread : Float32) (path : List Side) : Prop where
  isFinite_spread : spread.isFinite
  spread_pos : 0 < toRat spread
  isFinite_x : ∀ above, above <+: path → (position origin spread above).x.isFinite

theorem Regular.of_prefix {path above : List Side} (h : Regular origin spread path)
    (habove : above <+: path) : Regular origin spread above where
  isFinite_spread := h.isFinite_spread
  spread_pos := h.spread_pos
  isFinite_x above' habove' := h.isFinite_x above' (habove'.trans habove)

/-- A regular descent that has room for its rounding. -/
structure Tame (origin : Point) (spread : Float32) (path : List Side) : Prop extends
    Regular origin spread path where
  room : path.length * rounding origin spread ≤ 3 * toRat spread

namespace Tame

variable {path above below : List Side}

theorem of_prefix (h : Tame origin spread path) (habove : above <+: path) :
    Tame origin spread above where
  toRegular := h.toRegular.of_prefix habove
  room := by
    have hlength : (above.length : ℚ) ≤ path.length := by exact_mod_cast habove.length_le
    exact (mul_le_mul_of_nonneg_right hlength (rounding_pos origin h.spread_pos).le).trans h.room

/-- There is room for so few steps only that the divisors are exact. -/
theorem length_lt (h : Tame origin spread path) : path.length < 2 ^ 23 := by
  have hpos := h.spread_pos
  have hrounding := le_rounding origin spread
  by_contra hlength
  -- so many steps would lose more than there is room for
  have hlength : (2 ^ 23 : ℚ) ≤ path.length := by exact_mod_cast not_lt.mp hlength
  have := mul_le_mul_of_nonneg_right hlength (rounding_pos origin hpos).le
  linarith [h.room]

/-- A step loses little, as long as the descent has not come far from the root. -/
theorem abs_step_sub_le {side : Side} (h : Tame origin spread (path ++ [side]))
    (hnear : |toRat (position origin spread path).x| ≤ |toRat origin.x| + 6 * toRat spread) :
    |toRat (position origin spread (path ++ [side])).x -
        (toRat (position origin spread path).x + drift path.length [side] * toRat spread)| ≤
      rounding origin spread := by
  have hpath := h.of_prefix (List.prefix_append path [side])
  have hx := hpath.isFinite_x path List.prefix_rfl
  have hnext := h.isFinite_x _ List.prefix_rfl
  obtain ⟨hgap, hnonneg, hle⟩ := gapAt_bounds h.isFinite_spread h.spread_pos.le hpath.length_lt
  have hgapError := abs_gapAt_sub_le h.isFinite_spread h.spread_pos.le hpath.length_lt
  -- what is lost: the error of the gap, and the rounding of the sum
  cases side with
  | left =>
    rw [x_position_left] at hnext ⊢
    have herror := (rounds_sub hx hgap).abs_sub_le hnext
    have hsize := abs_sub (toRat (position origin spread path).x) (toRat (gapAt spread path.length))
    rw [abs_of_nonneg hnonneg] at hsize
    rw [drift, drift, rounding]
    rw [abs_le] at hgapError herror ⊢
    constructor <;> linarith [hgapError.1, hgapError.2, herror.1, herror.2]
  | right =>
    rw [x_position_right] at hnext ⊢
    have herror := (rounds_add hx hgap).abs_sub_le hnext
    have hsize := abs_add_le (toRat (position origin spread path).x)
      (toRat (gapAt spread path.length))
    rw [abs_of_nonneg hnonneg] at hsize
    rw [drift, drift, rounding]
    rw [abs_le] at hgapError herror ⊢
    constructor <;> linarith [hgapError.1, hgapError.2, herror.1, herror.2]

/-- The errors of the steps add up, as long as each of them is small. -/
theorem abs_append_sub_le (h : Tame origin spread (above ++ below))
    (hnear : ∀ path, path <+: above ++ below → path ≠ above ++ below →
      |toRat (position origin spread path).x| ≤ |toRat origin.x| + 6 * toRat spread) :
    |toRat (position origin spread (above ++ below)).x -
        (toRat (position origin spread above).x + drift above.length below * toRat spread)| ≤
      below.length * rounding origin spread := by
  induction below using List.reverseRecOn with
  | nil => simp [drift]
  | append_singleton below side ih =>
    rw [← List.append_assoc] at h hnear ⊢
    have habove := List.prefix_append (above ++ below) [side]
    have hstep := h.abs_step_sub_le (hnear _ habove (by simp))
    have hbelow := ih (h.of_prefix habove) fun path hpath _ =>
      hnear path (hpath.trans habove) fun heq => by simpa [heq] using hpath.length_le
    rw [drift_append, List.length_append, List.length_singleton]
    rw [List.length_append] at hstep
    push_cast
    rw [abs_le] at hstep hbelow ⊢
    constructor <;> linarith [hstep.1, hstep.2, hbelow.1, hbelow.2]

/-- A descent does not come far from the root. -/
theorem abs_le (h : Tame origin spread path) :
    |toRat (position origin spread path).x| ≤ |toRat origin.x| + 6 * toRat spread := by
  -- the error of a step depends on how far all steps before it have come
  induction hn : path.length using Nat.strong_induction_on generalizing path with
  | _ n ih =>
    have hpos := h.spread_pos
    have herror := @abs_append_sub_le origin spread [] path h fun above habove hne =>
      have hlt : above.length < path.length :=
        habove.length_le.lt_of_ne fun heq => hne (habove.eq_of_length heq)
      ih above.length (hn ▸ hlt) (h.of_prefix habove) rfl
    rw [List.nil_append, List.length_nil, show position origin spread [] = origin from rfl]
      at herror
    have hdrift : |drift 0 path| ≤ 5 / 2 :=
      (abs_drift_le 0 path).trans ((reach_le 0 _).trans (by linarith [fraction_le_one 0]))
    have hdrift' : |drift 0 path * toRat spread| ≤ 5 / 2 * toRat spread := by
      rw [abs_mul, abs_of_pos hpos]
      gcongr
    have htriangle := abs_add_le (toRat (position origin spread path).x -
      (toRat origin.x + drift 0 path * toRat spread)) (toRat origin.x + drift 0 path * toRat spread)
    have htriangle' := abs_add_le (toRat origin.x) (drift 0 path * toRat spread)
    rw [sub_add_cancel] at htriangle
    linarith [h.room]

/-- Where the rest of a path leads, up to rounding in each step. -/
theorem abs_position_sub_le (h : Tame origin spread (above ++ below)) :
    |toRat (position origin spread (above ++ below)).x -
        (toRat (position origin spread above).x + drift above.length below * toRat spread)| ≤
      below.length * rounding origin spread :=
  h.abs_append_sub_le fun _ hpath _ => (h.of_prefix hpath).abs_le

end Tame

end InfixCalculator.Layout
