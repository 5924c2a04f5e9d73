import InfixCalculator.Geometry
import Mathlib

/-!
# Single precision

Two operations on single-precision numbers that change nothing: multiplying by one (`mul_one`), and
confining to a range what is confined to it already (`clamp_clamp`). Both hold of every number, the
infinities and what is not a number included.

A finite number is a mantissa with an exponent, and its exponent is the one that rounding aims at
(`targetExponent_of_unpack`). A product by one is the same number with zero digits behind its
mantissa, which rounding drops.

Mathlib is imported as a whole, because the facts on the library's model of floats come with nothing
less.
-/

namespace InfixCalculator.Binary32

open Float.Model Float.Model.UnpackedFloat

/-! ## Rounding a number with zero digits behind it -/

variable {spec : Format} {m : Nat} {e : Int}

/-- Zero digits are shifted out without a trace. -/
theorem shiftRight_zeros (m n : Nat) :
    (⟨m * 2 ^ n, false, false⟩ : ExtendedMantissa) >>> n = ⟨m, false, false⟩ := by
  change n.repeat ExtendedMantissa.shiftRightOne _ = _
  induction n generalizing m with
  | zero => simp [Nat.repeat]
  | succ n ih =>
    rw [Nat.repeat, Nat.pow_succ', ← Nat.mul_assoc, ih]
    simp [ExtendedMantissa.shiftRightOne]

/-- Zero digits do not move the first digit. -/
theorem totalExponent_zeros (hm : m ≠ 0) (e : Int) (n : Nat) :
    totalExponent (m * 2 ^ n) (e - n) = totalExponent m e := by
  have hlog : (m * 2 ^ n).log2 = m.log2 + n := by
    induction n with
    | zero => simp
    | succ n ih =>
      rw [Nat.pow_succ', Nat.mul_left_comm, Nat.log2_two_mul (by positivity), ih, Nat.add_assoc]
  unfold totalExponent
  omega

theorem shiftToTargetExponent_zeros (hm : m ≠ 0)
    (he : spec.targetExponent (totalExponent m e) = e) (n : Nat) :
    shiftToTargetExponent spec (m * 2 ^ n) (e - n) .exact = (⟨m, false, false⟩, e) := by
  have hn : (e - (e - n)).toNat = n := by omega
  rw [shiftToTargetExponent, totalExponent_zeros hm, he, shiftToExponent]
  simp only [hn, ExtendedMantissa.ofMantissaAndAccuracy, shiftRight_zeros, Int.sub_add_cancel]

/-- Rounding takes a number with zero digits behind it back to the number. -/
theorem roundWithAccuracy_zeros (hm : 0 < m) (he : spec.targetExponent (totalExponent m e) = e)
    (sign : Sign) (n : Nat) :
    roundWithAccuracy spec sign (m * 2 ^ n) (e - n) .exact = .finite sign m e hm := by
  have hfirst := shiftToTargetExponent_zeros hm.ne' he n
  -- the mantissa is exact, so the second shift has nothing left to drop
  have hsecond := shiftToTargetExponent_zeros hm.ne' he 0
  simp only [Nat.pow_zero, Nat.mul_one, Nat.cast_zero, Int.sub_zero] at hsecond
  simp only [roundWithAccuracy, hfirst, ExtendedMantissa.roundedMantissa,
    ExtendedMantissa.accuracy, Accuracy.roundToNearestEven, hsecond, hm.ne', dite_false]

/-- The exponent of a finite number is the one that rounding aims at. -/
theorem targetExponent_of_unpack {bits : BitVec 32} {sign : Sign} {hm : 0 < m}
    (h : UnpackedFloat.unpack .binary32 bits = .finite sign m e hm) :
    Format.binary32.targetExponent (totalExponent m e) = e := by
  have hmin : Format.binary32.minExponent = -149 := by decide
  have hbits : (Format.binary32.mantissaBits : Int) = 24 := by decide
  have hbias : (Format.binary32.exponentBias : Int) = 127 := by decide
  have hfraction : (@unpackMantissa .binary32 bits).toNat < 2 ^ 23 :=
    (@unpackMantissa .binary32 bits).isLt
  rw [Format.targetExponent, totalExponent, hmin, hbits]
  rw [UnpackedFloat.unpack] at h
  split at h
  · split at h <;> cases h
  split at h
  case isTrue hzero =>
    split at h
    · cases h
    · -- subnormal: fewer digits than a normal mantissa, and the least exponent
      injection h with _ hmantissa hexponent
      have hlog : m.log2 < 23 := by
        rw [Nat.log2_lt hm.ne', ← hmantissa]
        exact hfraction
      rw [hzero, hbias] at hexponent
      norm_num at hexponent
      omega
  case isFalse hzero =>
    -- normal: the implicit digit is the first of all
    injection h with _ hmantissa hexponent
    have hlog : m.log2 = 23 := by
      rw [Nat.log2_eq_iff hm.ne', ← hmantissa, BitVec.toNat_append,
        ← Nat.shiftLeft_add_eq_or_of_lt hfraction]
      simp
      omega
    have hpositive : (@unpackExponent .binary32 bits).toNat ≠ 0 :=
      fun h => hzero (BitVec.eq_of_toNat_eq h)
    rw [hbias] at hexponent
    norm_num at hexponent
    omega

/-! ## Operations that change nothing -/

/-- A float is what it is packed into. -/
theorem ofModel_pack_unpack (x : Float32) : Float32.ofModel (.pack x.toModel.unpack) = x := by
  have hpack : Float32.Model.pack x.toModel.unpack = x.toModel := by
    obtain ⟨bits, hvalid⟩ := x.toModel
    simp only [Float32.Model.pack, Float32.Model.unpack, pack_unpack_of_valid hvalid]
  rw [hpack]

/-- Multiplying by one changes nothing: what is not a number stays as well. -/
theorem mul_one (x : Float32) : x * 1 = x := by
  have hone : (1 : Float32).toModel.unpack = .finite .positive (2 ^ 23) (-23) (by decide) := rfl
  have hsign (sign : Sign) : sign * .positive = sign := by cases sign <;> rfl
  have hmul : UnpackedFloat.mul .binary32 x.toModel.unpack (1 : Float32).toModel.unpack
      = x.toModel.unpack := by
    rw [hone]
    cases h : x.toModel.unpack with
    | infinity sign => simp [UnpackedFloat.mul, hsign]
    | notANumber => rfl
    | zero sign => simp [UnpackedFloat.mul, hsign]
    | finite sign m e hm =>
      rw [UnpackedFloat.mul, hsign]
      exact roundWithAccuracy_zeros hm (targetExponent_of_unpack h) sign 23
  change Float32.ofModel (.pack (.mul .binary32 x.toModel.unpack (1 : Float32).toModel.unpack)) = x
  rw [hmul, ofModel_pack_unpack]

/-- Only the number one compares equal to one. -/
theorem eq_one_of_beq {x : Float32} (h : x == 1) : x = 1 := by
  obtain ⟨-, -, hone | ⟨-, hzero⟩ | ⟨-, hzero⟩⟩ := Float32.beq_iff_ne_nan_and_eq.mp h
  · exact hone
  · exact absurd hzero (by decide +kernel)
  · exact absurd hzero (by decide +kernel)

theorem unpacked_lt_self (x : UnpackedFloat) : x.lt x = false := by
  cases x with
  | infinity sign => cases sign <;> rfl
  | notANumber => rfl
  | zero sign => rfl
  | finite sign m e hm => cases sign <;> simp [UnpackedFloat.lt, UnpackedFloat.compare]

theorem lt_irrefl (x : Float32) : ¬ x < x := by
  intro h
  have hlt : UnpackedFloat.lt x.toModel.unpack x.toModel.unpack = true := of_decide_eq_true h
  cases (unpacked_lt_self _).symm.trans hlt

/-- What lies in a range, or is not a number, is not changed by confining it to the range. -/
theorem clamp_clamp {low high : Float32} (h : ¬ high < low) (x : Float32) :
    clamp low high (clamp low high x) = clamp low high x := by
  by_cases hlow : x < low
  · simp [clamp, hlow, lt_irrefl, h]
  · by_cases hhigh : high < x
    · simp [clamp, hlow, hhigh, lt_irrefl, h]
    · simp [clamp, hlow, hhigh]

end InfixCalculator.Binary32
