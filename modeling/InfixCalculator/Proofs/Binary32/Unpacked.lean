import InfixCalculator.Proofs.Binary32
import InfixCalculator.Proofs.Binary32.Rounding

/-!
# Rounding as it is carried out

The library's model of floats computes with a mantissa, an exponent, and two bits for the digits
that have been dropped. `Denotes` says which rational number such a result is, and that it is in the
one form that numbers are compared and packed in. Its operations on finite numbers denote the exact
results, `rounded`.
-/

namespace InfixCalculator.Binary32

open Float.Model Float.Model.UnpackedFloat

/-! ## Dropped digits -/

/-- The number whose whole part is the mantissa, and whose fraction the two bits compare to
a half. -/
def Describes (em : ExtendedMantissa) (q : ℚ) : Prop :=
  match em.roundBit, em.stickyBit with
  | false, false => q = em.mantissa
  | false, true => em.mantissa < q ∧ q < em.mantissa + 1 / 2
  | true, false => q = em.mantissa + 1 / 2
  | true, true => em.mantissa + 1 / 2 < q ∧ q < em.mantissa + 1

variable {em : ExtendedMantissa} {q : ℚ}

/-- The mantissa is the whole part. -/
theorem Describes.bounds (h : Describes em q) : em.mantissa ≤ q ∧ q < em.mantissa + 1 := by
  obtain ⟨m, r, s⟩ := em
  cases r <;> cases s <;> simp only [Describes] at h <;> constructor <;> linarith

/-- Dropping a digit halves the number. -/
theorem Describes.shiftRightOne (h : Describes em q) : Describes em.shiftRightOne (q / 2) := by
  obtain ⟨m, r, s⟩ := em
  -- the last digit of the mantissa becomes the first bit, and the second bit gathers the rest
  obtain ⟨k, rfl | rfl⟩ := Nat.even_or_odd' m
  · have hhalf : 2 * k / 2 = k := by omega
    have hbit : (2 * k % 2 != 0) = false := by simp
    cases r <;> cases s <;>
      simp only [Describes, ExtendedMantissa.shiftRightOne, hhalf, hbit, Bool.or_false,
        Bool.or_true] at h ⊢ <;> push_cast at h <;> grind
  · have hhalf : (2 * k + 1) / 2 = k := by omega
    have hbit : ((2 * k + 1) % 2 != 0) = true := by simp [Nat.add_mod]
    cases r <;> cases s <;>
      simp only [Describes, ExtendedMantissa.shiftRightOne, hhalf, hbit, Bool.or_false,
        Bool.or_true] at h ⊢ <;> push_cast at h <;> grind

theorem Describes.shiftRight (h : Describes em q) (n : ℕ) : Describes (em >>> n) (q / 2 ^ n) := by
  change Describes (n.repeat ExtendedMantissa.shiftRightOne em) _
  induction n with
  | zero => simpa [Nat.repeat] using h
  | succ n ih =>
    rw [Nat.repeat, pow_succ, ← div_div]
    exact ih.shiftRightOne

/-- The bits decide how to round. -/
theorem Describes.roundEven_eq (h : Describes em q) : roundEven q = em.roundedMantissa := by
  obtain ⟨m, r, s⟩ := em
  apply Binary32.roundEven_eq
  cases r <;> cases s <;>
    simp only [Describes, ExtendedMantissa.roundedMantissa, ExtendedMantissa.accuracy,
      Accuracy.roundToNearestEven] at h ⊢
  · exact .inl (by rw [h]; norm_num)
  · exact .inl (abs_lt.mpr ⟨by push_cast; linarith, by push_cast; linarith⟩)
  · rcases Nat.even_or_odd m with heven | hodd
    · rw [Nat.even_iff.mp heven, h]
      exact .inr ⟨by norm_num, (Int.even_coe_nat m).mpr heven⟩
    · rw [Nat.odd_iff.mp hodd, h]
      exact .inr ⟨by push_cast; norm_num [abs_of_pos], (Int.even_coe_nat _).mpr hodd.add_one⟩
  · exact .inl (abs_lt.mpr ⟨by push_cast; linarith, by push_cast; linarith⟩)

/-! ## Canonical numbers -/

/-- A number with a sign. -/
def signed (sign : Sign) (q : ℚ) : ℚ :=
  match sign with
  | .negative => -q
  | .positive => q

theorem rounded_signed (sign : Sign) (q : ℚ) :
    rounded (signed sign q) = signed sign (rounded q) := by
  cases sign with
  | negative => exact rounded_neg q
  | positive => rfl

theorem abs_signed (sign : Sign) (q : ℚ) : |signed sign q| = |q| := by
  cases sign with
  | negative => exact abs_neg q
  | positive => rfl

/-- The finite number `f` is `r`, and it has 24 digits or the least exponent. -/
def Denotes (f : UnpackedFloat) (r : ℚ) : Prop :=
  match f with
  | .zero _ => r = 0
  | .finite sign m e _ =>
    m < 2 ^ 24 ∧ -149 ≤ e ∧ (e = -149 ∨ 2 ^ 23 ≤ m) ∧ r = signed sign (m * 2 ^ e)
  | _ => False

variable {f g : UnpackedFloat} {r s v : ℚ} {sign : Sign} {m : ℕ} {e : ℤ}

theorem Denotes.zero_or_finite (h : Denotes f r) :
    (∃ sign, f = .zero sign ∧ r = 0) ∨
      ∃ sign m e hm, f = .finite sign m e hm ∧ m < 2 ^ 24 ∧ -149 ≤ e ∧ (e = -149 ∨ 2 ^ 23 ≤ m) ∧
        r = signed sign (m * 2 ^ e) := by
  cases f with
  | infinity sign => exact h.elim
  | notANumber => exact h.elim
  | zero sign => exact .inl ⟨sign, rfl, h⟩
  | finite sign m e hm => exact .inr ⟨sign, m, e, hm, rfl, h⟩

/-- What a canonical number denotes is not changed by rounding. -/
theorem Denotes.rounded_eq (h : Denotes f r) : rounded r = r := by
  obtain ⟨sign, -, rfl⟩ | ⟨sign, m, e, hm, -, hlt, he, -, rfl⟩ := h.zero_or_finite
  · exact rounded_zero
  · have hdigits : |(m : ℤ)| < 2 ^ 24 := by
      rw [Nat.abs_cast]
      exact_mod_cast hlt
    rw [rounded_signed]
    exact congrArg _ (rounded_of_digits hdigits he)

theorem targetExponent_eq (t : ℤ) : Format.binary32.targetExponent t = max (t - 24) (-149) :=
  rfl

/-! ## Rounding a mantissa -/

/-- The exponent that rounding aims at is the one of the grid. -/
theorem targetExponent_eq_spacing (hq : 0 < q) (hm : m ≤ q) (hm' : q < m + 1)
    (he : e ≤ Format.binary32.targetExponent (totalExponent m e)) :
    Format.binary32.targetExponent (totalExponent m e) = spacing (q * 2 ^ e) := by
  have hpos := two_zpow_pos e
  have habs : |q * 2 ^ e| = q * 2 ^ e := abs_of_pos (mul_pos hq hpos)
  rw [targetExponent_eq, totalExponent] at he ⊢
  apply le_antisymm
  · -- a mantissa of so many digits does not lie below its first digit
    rcases le_or_gt (m.log2 + 1 + e - 24) (-149) with hleast | hdigits
    · rw [max_eq_right hleast]
      exact le_spacing _
    · have hne : m ≠ 0 := by
        rintro rfl
        rw [Nat.log2_zero] at he hdigits
        omega
      have hfirst : (2 : ℚ) ^ m.log2 ≤ q := le_trans (by exact_mod_cast Nat.log2_self_le hne) hm
      rw [max_eq_left hdigits.le]
      apply le_spacing_of_le
      rw [habs, show (m.log2 + 1 + e - 24 + 23 : ℤ) = e + m.log2 by omega, two_zpow_add, mul_comm q]
      gcongr
  -- and it stays below the next power of two, whatever was dropped from it
  · have hlast : q < 2 ^ (m.log2 + 1) := hm'.trans_le (by exact_mod_cast Nat.lt_log2_self)
    refine spacing_le (mul_pos hq hpos).ne' ?_ (le_max_right ..)
    calc |q * 2 ^ e|
      _ < 2 ^ e * 2 ^ (m.log2 + 1) := by
          rw [habs, mul_comm]
          gcongr
      _ = 2 ^ (e + (m.log2 + 1 : ℕ)) := (two_zpow_add _ _).symm
      _ ≤ _ := zpow_le_zpow_right₀ one_le_two (by push_cast; omega)

theorem shiftToTargetExponent_of_le (h : Format.binary32.targetExponent (totalExponent m e) ≤ e) :
    shiftToTargetExponent .binary32 m e .exact = (⟨m, false, false⟩, e) := by
  rw [shiftToTargetExponent, shiftToExponent, Int.toNat_of_nonpos (by omega)]
  simp only [Nat.cast_zero, Int.add_zero]
  rfl

/-- The second shift takes back a carry out of the 24 digits. -/
theorem denotes_carry {n : ℕ} (hn : n ≤ 2 ^ 24) (he : -149 ≤ e) (hdigits : e = -149 ∨ 2 ^ 23 ≤ n) :
    Denotes
      (if h : (shiftToTargetExponent .binary32 n e .exact).1.mantissa = 0 then .zero sign
        else .finite sign (shiftToTargetExponent .binary32 n e .exact).1.mantissa
          (shiftToTargetExponent .binary32 n e .exact).2 (Nat.pos_of_ne_zero h))
      (signed sign (n * 2 ^ e)) := by
  rcases hn.lt_or_eq with hlt | rfl
  -- without a carry nothing is shifted
  · have hlog : n.log2 ≤ 23 := by
      rcases eq_or_ne n 0 with rfl | hne
      · rw [Nat.log2_zero]; omega
      · exact Nat.le_of_lt_succ ((Nat.log2_lt hne).mpr hlt)
    rw [shiftToTargetExponent_of_le (by rw [targetExponent_eq, totalExponent]; omega)]
    split_ifs with hzero
    · rw [show n = 0 from hzero, Nat.cast_zero, zero_mul]
      cases sign <;> simp [Denotes, signed]
    · exact ⟨hlt, he, hdigits, rfl⟩
  -- a carry leaves a power of two, which loses a zero digit
  · have hshift :
        shiftToTargetExponent .binary32 (2 ^ 24) e .exact = (⟨2 ^ 23, false, false⟩, e + 1) := by
      have hlog : (2 ^ 23).log2 = 23 := Nat.log2_two_pow
      have htarget : Format.binary32.targetExponent (totalExponent (2 ^ 23) (e + 1)) = e + 1 := by
        rw [targetExponent_eq, totalExponent, hlog]
        omega
      have := shiftToTargetExponent_zeros (by norm_num) htarget 1
      rwa [Nat.cast_one, Int.add_sub_cancel] at this
    rw [hshift, dif_neg (by norm_num)]
    refine ⟨by norm_num, by omega, .inr le_rfl, ?_⟩
    congr 1
    rw [zpow_add₀ two_ne_zero]
    push_cast
    ring

/-- Rounding a mantissa whose dropped digits are known gives the number on the grid. -/
theorem denotes_roundWithAccuracy {accuracy : Accuracy} (hq : 0 < q)
    (hdescribes : Describes (.ofMantissaAndAccuracy m accuracy) q)
    (he : e ≤ Format.binary32.targetExponent (totalExponent m e)) :
    Denotes (roundWithAccuracy .binary32 sign m e accuracy)
      (rounded (signed sign (q * 2 ^ e))) := by
  have hmantissa : (ExtendedMantissa.ofMantissaAndAccuracy m accuracy).mantissa = m := by
    obtain _ | (_ | _ | _) := accuracy <;> rfl
  obtain ⟨hm, hm'⟩ := hdescribes.bounds
  rw [hmantissa] at hm hm'
  have hspacing := targetExponent_eq_spacing hq hm hm' he
  -- the first shift drops the `n` digits that lie between the lines of the grid
  obtain ⟨n, hn⟩ := Int.le.dest he
  have hshift : shiftToTargetExponent .binary32 m e accuracy =
      (ExtendedMantissa.ofMantissaAndAccuracy m accuracy >>> n, spacing (q * 2 ^ e)) := by
    rw [shiftToTargetExponent, shiftToExponent, ← hspacing, ← hn]
    simp only [add_sub_cancel_left, Int.toNat_natCast]
  generalize hem : ExtendedMantissa.ofMantissaAndAccuracy m accuracy >>> n = em at hshift
  have hround : roundEven (q * 2 ^ e / 2 ^ spacing (q * 2 ^ e)) = em.roundedMantissa := by
    rw [← hem, ← (hdescribes.shiftRight n).roundEven_eq, ← hspacing, ← hn, two_zpow_add,
      mul_comm (2 ^ e : ℚ), mul_div_mul_right _ _ (two_zpow_pos e).ne']
  have hvalue : rounded (signed sign (q * 2 ^ e)) =
      signed sign (em.roundedMantissa * 2 ^ spacing (q * 2 ^ e)) := by
    rw [rounded_signed, rounded, hround, Int.cast_natCast]
  -- what is left has 24 digits, or is the power of two above them
  have hv : 0 < q * 2 ^ e := mul_pos hq (two_zpow_pos e)
  have hcarry := roundEven_spacing_le hv
  have hdigits := (eq_or_ne (spacing (q * 2 ^ e)) (-149)).imp_right (le_roundEven_spacing hv)
  rw [hround] at hcarry hdigits
  rw [roundWithAccuracy, hshift, hvalue]
  exact denotes_carry (by exact_mod_cast hcarry) (le_spacing _) (by exact_mod_cast hdigits)

end InfixCalculator.Binary32
