import InfixCalculator.Proofs.Binary32.Arithmetic

/-!
# Signs in single precision

No operation but subtraction makes a minus sign out of plus signs. This holds of all floats, whether
or not a result leaves the range, so it tells the sign of a result before it is known to be finite.
-/

namespace InfixCalculator.Binary32

open Float.Model Float.Model.UnpackedFloat

/-- There is no minus sign. -/
def HasPlus : UnpackedFloat → Prop
  | .infinity sign => sign = .positive
  | .notANumber => True
  | .zero sign => sign = .positive
  | .finite sign _ _ _ => sign = .positive

variable {f g : UnpackedFloat} {x y : Float32}

/-- Rounding keeps the sign, also where it leads to zero or to infinity. -/
theorem hasPlus_roundWithAccuracy (m : ℕ) (e : ℤ) (accuracy : Accuracy) :
    HasPlus (roundWithAccuracy .binary32 .positive m e accuracy) := by
  rw [roundWithAccuracy]
  dsimp only
  split <;> rfl

theorem hasPlus_normalize {n : ℤ} (hn : 0 ≤ n) (e : ℤ) :
    HasPlus (UnpackedFloat.normalize .binary32 n e .positive) := by
  unfold UnpackedFloat.normalize
  split
  case h_1 hlt => exact absurd (Int.compare_eq_lt.mp hlt) hn.not_gt
  case h_2 => rfl
  case h_3 => exact hasPlus_roundWithAccuracy ..

/-- Where both operands have a plus, so has their sum: no difference is formed. -/
theorem HasPlus.add (hf : HasPlus f) (hg : HasPlus g) :
    HasPlus (UnpackedFloat.add .binary32 f g) := by
  cases f <;> cases g <;> simp only [HasPlus] at hf hg <;> subst_vars
  case finite.finite =>
    refine hasPlus_normalize ?_ _
    exact add_nonneg (Int.natCast_nonneg _) (Int.natCast_nonneg _)
  all_goals first | exact rfl | exact trivial

/-- The sign of a product is a plus if both signs are. -/
theorem HasPlus.mul (hf : HasPlus f) (hg : HasPlus g) :
    HasPlus (UnpackedFloat.mul .binary32 f g) := by
  cases f <;> cases g <;> simp only [HasPlus] at hf hg <;> subst_vars
  case finite.finite => exact hasPlus_roundWithAccuracy ..
  all_goals first | exact rfl | exact trivial

/-- The sign of a quotient is found like that of a product. -/
theorem HasPlus.div (hf : HasPlus f) (hg : HasPlus g) :
    HasPlus (UnpackedFloat.div .binary32 f g) := by
  cases f <;> cases g <;> simp only [HasPlus] at hf hg <;> subst_vars
  case finite.finite => exact hasPlus_roundWithAccuracy ..
  all_goals first | exact rfl | exact trivial

/-- A decimal without a sign is read without one, whether by a product or by a quotient. -/
theorem hasPlus_ofScientific (m : ℕ) (e : ℤ) :
    HasPlus (UnpackedFloat.ofScientific .binary32 m e) := by
  unfold UnpackedFloat.ofScientific
  split_ifs
  · exact rfl
  · exact rfl
  · exact rfl
  · exact HasPlus.mul rfl rfl
  · exact HasPlus.div rfl rfl

/-- Only a minus sign is packed as one. -/
theorem hasPlus_unpack_pack (hf : HasPlus f) :
    HasPlus (UnpackedFloat.unpack .binary32 (UnpackedFloat.pack .binary32 f)) := by
  have hsign : unpackSign (UnpackedFloat.pack .binary32 f) = 0#1 := by
    fun_cases UnpackedFloat.pack .binary32 f <;> simp only [HasPlus] at hf <;> subst_vars
    all_goals exact unpackSign_packComponents ..
  rw [UnpackedFloat.unpack]
  simp only [hsign]
  split_ifs <;> first | exact rfl | exact trivial

/-- A float without a minus sign. -/
def IsPlus (x : Float32) : Prop :=
  HasPlus x.toModel.unpack

/-- Sums of floats without a minus sign have none. -/
theorem IsPlus.add (hx : IsPlus x) (hy : IsPlus y) : IsPlus (x + y) :=
  hasPlus_unpack_pack (HasPlus.add hx hy)

theorem IsPlus.mul (hx : IsPlus x) (hy : IsPlus y) : IsPlus (x * y) :=
  hasPlus_unpack_pack (HasPlus.mul hx hy)

theorem IsPlus.div (hx : IsPlus x) (hy : IsPlus y) : IsPlus (x / y) :=
  hasPlus_unpack_pack (HasPlus.div hx hy)

theorem isPlus_one : IsPlus 1 :=
  rfl

/-- A natural number is read without a minus sign, however great it is. -/
theorem isPlus_ofNat (n : ℕ) : IsPlus (Float32.ofNat n) := by
  change IsPlus (Float32.ofScientific n false 0)
  rw [Float32.ofScientific]
  -- small numbers are read as words, great ones as decimals
  split
  · have hword : IsPlus n.toUInt64.toFloat32 :=
      hasPlus_unpack_pack (hasPlus_normalize (Int.natCast_nonneg _) 0)
    exact hword.mul isPlus_one
  · exact hasPlus_unpack_pack (hasPlus_ofScientific ..)

/-- A float without a minus sign is not negative. -/
theorem IsPlus.toRat_nonneg (h : IsPlus x) : 0 ≤ toRat x := by
  rw [toRat]
  rw [IsPlus] at h
  split
  case h_1 sign m e hm hunpack =>
    rw [hunpack] at h
    obtain rfl : sign = .positive := h
    exact mul_nonneg (Nat.cast_nonneg m) (two_zpow_pos e).le
  case h_2 => exact le_rfl

/-- A minus sign would make the number negative. -/
theorem isPlus_of_pos (h : 0 < toRat x) : IsPlus x := by
  rw [toRat] at h
  rw [IsPlus]
  split at h
  case h_1 sign m e hm hunpack =>
    rw [hunpack]
    cases sign with
    | positive => rfl
    | negative =>
      have := mul_pos (show (0 : ℚ) < m by exact_mod_cast hm) (two_zpow_pos e)
      rw [signed] at h
      linarith
  case h_2 => exact h.false.elim

end InfixCalculator.Binary32
