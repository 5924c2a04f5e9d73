import InfixCalculator.Proofs.Binary32.Operations

/-!
# Arithmetic in single precision

A finite number in single precision is a rational number (`toRat`), and the operations round the
exact result (`rounds_add` and its siblings), which is finite unless it leaves the range. The order
of finite numbers is the one of the rational numbers.
-/

namespace InfixCalculator.Binary32

open Float.Model Float.Model.UnpackedFloat

/-! ## Finite floats -/

variable {x y : Float32} {f : UnpackedFloat} {v w : ℚ}

/-- The rational number that a finite float is. -/
def toRat (x : Float32) : ℚ :=
  match x.toModel.unpack with
  | .finite sign m e _ => signed sign (m * 2 ^ e)
  | _ => 0

/-- A finite float denotes its number in canonical form: its mantissa has 24 digits, unless its
exponent is the least one. -/
theorem denotes_toRat (h : x.isFinite) : Denotes x.toModel.unpack (toRat x) := by
  have h : x.toModel.unpack.isFinite := h
  rw [toRat]
  cases hunpack : x.toModel.unpack with
  | infinity sign => rw [hunpack] at h; cases h
  | notANumber => rw [hunpack] at h; cases h
  | zero sign => rfl
  | finite sign m e hm =>
    have htarget := targetExponent_of_unpack hunpack
    rw [targetExponent_eq, totalExponent] at htarget
    refine ⟨(Nat.log2_lt hm.ne').mp (by omega), by omega, ?_, rfl⟩
    exact (eq_or_ne e (-149)).imp_right fun h => (Nat.le_log2 hm.ne').mp (by omega)

/-- There is only one number that a float denotes. -/
theorem toRat_eq_of_denotes (h : Denotes x.toModel.unpack v) : toRat x = v := by
  rw [toRat]
  obtain ⟨sign, hunpack, rfl⟩ | ⟨sign, m, e, hm, hunpack, -, -, -, rfl⟩ := h.zero_or_finite
  · rw [hunpack]
  · rw [hunpack]

theorem isFinite_of_denotes (h : Denotes x.toModel.unpack v) : x.isFinite := by
  change x.toModel.unpack.isFinite
  obtain ⟨sign, hunpack, -⟩ | ⟨sign, m, e, hm, hunpack, -⟩ := h.zero_or_finite
  · rw [hunpack]
    rfl
  · rw [hunpack]
    rfl

/-- The number of a finite float is on the grid, so that rounding leaves it alone. -/
theorem rounded_toRat (h : x.isFinite) : rounded (toRat x) = toRat x :=
  (denotes_toRat h).rounded_eq

/-- The float is the number rounded, and it is finite if that is in the range. -/
def Rounds (v : ℚ) (x : Float32) : Prop :=
  (x.isFinite ↔ |rounded v| < 2 ^ 128) ∧ (x.isFinite → toRat x = rounded v)

/-- Packing turns a result that is too great into an infinity, and keeps every other one. -/
theorem rounds_pack (h : Denotes f (rounded v)) : Rounds v (Float32.ofModel (.pack f)) := by
  have unpack_eq : (Float32.ofModel (.pack f)).toModel.unpack =
      UnpackedFloat.unpack .binary32 (UnpackedFloat.pack .binary32 f) := rfl
  rcases h.unpack_pack with ⟨hlt, hunpack⟩ | ⟨hge, sign, -, hunpack⟩
  · rw [← unpack_eq] at hunpack
    exact ⟨iff_of_true (isFinite_of_denotes hunpack) hlt, fun _ => toRat_eq_of_denotes hunpack⟩
  · have hinfinite : ¬(Float32.ofModel (.pack f)).isFinite := by
      change ¬UnpackedFloat.isFinite _
      rw [unpack_eq, hunpack]
      exact Bool.false_ne_true
    exact ⟨iff_of_false hinfinite hge.not_gt, fun h => absurd h hinfinite⟩

/-- The sum of finite floats is the exact sum rounded. -/
theorem rounds_add (hx : x.isFinite) (hy : y.isFinite) : Rounds (toRat x + toRat y) (x + y) :=
  rounds_pack ((denotes_toRat hx).add (denotes_toRat hy))

/-- The difference of finite floats is the exact difference rounded. -/
theorem rounds_sub (hx : x.isFinite) (hy : y.isFinite) : Rounds (toRat x - toRat y) (x - y) :=
  rounds_pack ((denotes_toRat hx).sub (denotes_toRat hy))

/-- The product of finite floats is the exact product rounded. -/
theorem rounds_mul (hx : x.isFinite) (hy : y.isFinite) : Rounds (toRat x * toRat y) (x * y) :=
  rounds_pack ((denotes_toRat hx).mul (denotes_toRat hy))

/-- The quotient of finite floats is the exact quotient rounded, if the divisor is not zero. -/
theorem rounds_div (hx : x.isFinite) (hy : y.isFinite) (hne : toRat y ≠ 0) :
    Rounds (toRat x / toRat y) (x / y) :=
  rounds_pack ((denotes_toRat hx).div (denotes_toRat hy) hne)

/-- Only a finite number is packed as one. -/
theorem isFinite_of_isFinite_pack
    (h : (UnpackedFloat.unpack .binary32 (UnpackedFloat.pack .binary32 f)).isFinite) :
    f.isFinite := by
  cases f with
  | zero sign => rfl
  | finite sign m e hm => rfl
  | notANumber => exact absurd h (by decide +kernel)
  | infinity sign => cases sign <;> exact absurd h (by decide +kernel)

/-- An infinity or what is not a number makes a sum like it. -/
theorem isFinite_of_isFinite_add {g : UnpackedFloat}
    (h : (UnpackedFloat.add .binary32 f g).isFinite) : g.isFinite := by
  cases g with
  | zero sign => rfl
  | finite sign m e hm => rfl
  | notANumber => cases f <;> exact h
  | infinity sign =>
    cases f with
    | infinity sign' =>
      -- infinities of both signs have no sum, which is not finite either
      rw [UnpackedFloat.add] at h
      split at h <;> exact h
    | _ => exact h

/-- What is added to give a finite float is finite. -/
theorem isFinite_of_add (h : (x + y).isFinite) : y.isFinite :=
  isFinite_of_isFinite_add (isFinite_of_isFinite_pack h)

theorem isFinite_of_sub (h : (x - y).isFinite) : y.isFinite := by
  have h : (UnpackedFloat.sub .binary32 x.toModel.unpack y.toModel.unpack).isFinite :=
    isFinite_of_isFinite_pack h
  have hneg : y.toModel.unpack.neg.isFinite = y.toModel.unpack.isFinite := by
    cases y.toModel.unpack <;> rfl
  rw [sub_eq_add] at h
  exact hneg.symm.trans (isFinite_of_isFinite_add h)

/-- A finite float is in the range. -/
theorem abs_toRat_lt (h : x.isFinite) : |toRat x| < 2 ^ 128 := by
  -- a float is what it is packed into, so `rounds_pack` speaks about floats that are given as well
  have hrounds : Rounds (toRat x) (Float32.ofModel (.pack x.toModel.unpack)) :=
    rounds_pack (by rw [rounded_toRat h]; exact denotes_toRat h)
  rw [ofModel_pack_unpack] at hrounds
  rw [← rounded_toRat h]
  exact hrounds.1.mp h

/-! ## What a rounded result can be -/

/-- A result is off by half a unit in the last of its 24 digits, or by half of the least number. -/
theorem Rounds.abs_sub_le (h : Rounds v x) (hx : x.isFinite) :
    |toRat x - v| ≤ |v| / 2 ^ 24 + 1 / 2 ^ 150 := by
  rw [h.2 hx]
  exact abs_rounded_sub_le v

/-- Rounding never exchanges two results. -/
theorem Rounds.mono (h : Rounds v x) (h' : Rounds w y) (hx : x.isFinite) (hy : y.isFinite)
    (hvw : v ≤ w) : toRat x ≤ toRat y := by
  rw [h.2 hx, h'.2 hy]
  exact rounded_mono hvw

/-- A result between zero and a float is finite and lies between them as well. -/
theorem Rounds.isFinite_of_le (h : Rounds v x) (hy : y.isFinite) (hnonneg : 0 ≤ v)
    (hv : v ≤ toRat y) : x.isFinite ∧ 0 ≤ toRat x ∧ toRat x ≤ toRat y := by
  have hle : rounded v ≤ toRat y := rounded_toRat hy ▸ rounded_mono hv
  have hx : x.isFinite := by
    rw [h.1, abs_of_nonneg (rounded_nonneg hnonneg)]
    exact hle.trans_lt ((le_abs_self _).trans_lt (abs_toRat_lt hy))
  rw [h.2 hx]
  exact ⟨hx, rounded_nonneg hnonneg, hle⟩

/-- A result of at most 24 digits is exact. -/
theorem Rounds.exact {m e : ℤ} (h : Rounds (m * 2 ^ e) x) (hm : |m| < 2 ^ 24) (he : -149 ≤ e)
    (he' : e ≤ 104) : x.isFinite ∧ toRat x = m * 2 ^ e := by
  have hrounded := rounded_of_digits hm he
  have hx : x.isFinite := by
    rw [h.1, hrounded, abs_mul, abs_of_pos (two_zpow_pos e)]
    calc |(m : ℚ)| * 2 ^ e
      _ < 2 ^ 24 * 2 ^ e := by
          have := two_zpow_pos e
          gcongr
          exact_mod_cast hm
      _ ≤ 2 ^ 24 * 2 ^ (104 : ℤ) := by
          gcongr
          exact one_le_two
      _ = 2 ^ 128 := by norm_num
  exact ⟨hx, by rw [h.2 hx, hrounded]⟩

/-! ## Natural numbers -/

/-- A natural number of so few digits is exact. -/
theorem toRat_ofNat {n : ℕ} (hn : n < 2 ^ 23) :
    (Float32.ofNat n).isFinite ∧ toRat (Float32.ofNat n) = n := by
  have hword : n.toUInt64.toNat = n := by
    rw [Nat.toUInt64, UInt64.toNat_ofNat']
    omega
  -- a numeral of so few digits is read as a word and multiplied by a power of ten, here by one
  have hofNat : Float32.ofNat n = n.toUInt64.toFloat32 * 1 := by
    change Float32.ofScientific n false 0 = _
    rw [Float32.ofScientific, dif_pos ⟨hn, by decide⟩]
    rfl
  have hrounds : Rounds (n * 2 ^ (0 : ℤ)) n.toUInt64.toFloat32 := by
    refine rounds_pack ?_
    rw [UnpackedFloat.ofUInt64, UnpackedFloat.ofNat, UnpackedFloat.ofInt, hword]
    exact denotes_normalize n 0 .positive
  rw [hofNat, mul_one]
  have := Rounds.exact (m := n) hrounds
    (by rw [Nat.abs_cast]; exact_mod_cast hn.trans (by norm_num)) (by norm_num) (by norm_num)
  simpa using this

/-! ## Order -/

theorem lt_iff_compare : x < y ↔ x.toModel.unpack.compare y.toModel.unpack = some .lt := by
  have hlt : x < y ↔ x.toModel.unpack.lt y.toModel.unpack := decide_eq_true_iff
  rw [hlt, UnpackedFloat.lt, beq_iff_eq]

theorem le_iff_compare : x ≤ y ↔ (x.toModel.unpack.compare y.toModel.unpack).any Ordering.isLE := by
  have hle : x ≤ y ↔ x.toModel.unpack.le y.toModel.unpack := decide_eq_true_iff
  rw [hle, UnpackedFloat.le]

/-- Finite floats are ordered as their numbers are. -/
theorem lt_iff (hx : x.isFinite) (hy : y.isFinite) : x < y ↔ toRat x < toRat y := by
  rw [lt_iff_compare, compare_eq (denotes_toRat hx) (denotes_toRat hy), Option.some_inj,
    compare_lt_iff_lt]

theorem toRat_pos_iff (hx : x.isFinite) : 0 < toRat x ↔ 0 < x := by
  have hzero : toRat 0 = 0 := rfl
  rw [lt_iff (by decide +kernel) hx, hzero]

/-- The order with equality is that of the numbers too: the zeros of both signs are equal in it. -/
theorem le_iff (hx : x.isFinite) (hy : y.isFinite) : x ≤ y ↔ toRat x ≤ toRat y := by
  rw [le_iff_compare, compare_eq (denotes_toRat hx) (denotes_toRat hy), ← compare_le_iff_le]
  simp [Ordering.isLE_iff_ne_gt]

end InfixCalculator.Binary32
