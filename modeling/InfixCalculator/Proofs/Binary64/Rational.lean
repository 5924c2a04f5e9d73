import InfixCalculator.Proofs.Binary64.Nearest
import Mathlib

/-!
# Floats as rational numbers

A finite float is its mantissa times a power of two (`Binary64.toRat`). The bits of a float without
the sign are its magnitude, and the units of the magnitude are the rational number without its sign:
`Binary64.abs_toRat`. A number compares equal to zero exactly if its magnitude is zero, whatever its
sign (`Binary64.beq_zero_iff`); infinities and what is not a number never do.

Mathlib is imported as a whole, because the facts on the library's model of floats come with nothing
less.
-/

namespace InfixCalculator.Binary64

open Float.Model Float.Model.UnpackedFloat

variable {x y : Float} {m n : ℕ} {q : ℚ}

/-! ## The parts of a float -/

/-- Whether the sign bit of a float is set. -/
def isNegative (x : Float) : Bool :=
  decide (2 ^ 63 ≤ x.toBits.toNat)

/-- The bits of a float without the sign. -/
def magnitude (x : Float) : ℕ :=
  x.toBits.toNat % 2 ^ 63

/-- Sign and magnitude tell what the bits stand for. -/
theorem ofFloat_eq (x : Float) :
    ofFloat x =
      if magnitude x < infinityMagnitude then finite (isNegative x) (magnitude x)
      else if magnitude x = infinityMagnitude then infinity (isNegative x)
      else nan :=
  rfl

/-- A float is determined by its sign and its magnitude. -/
theorem eq_of_magnitude_eq (hsign : isNegative x = isNegative y)
    (hmagnitude : magnitude x = magnitude y) : x = y := by
  have hx : x.toBits.toNat < 2 ^ 64 := x.toBits.toNat_lt
  have hy : y.toBits.toNat < 2 ^ 64 := y.toBits.toNat_lt
  rw [← Float.toBits_inj, ← UInt64.toNat_inj]
  rw [magnitude, magnitude] at hmagnitude
  rw [isNegative, isNegative, decide_eq_decide] at hsign
  omega

/-- The sign is not the last bit. -/
theorem even_toBits_iff : Even x.toBits.toNat ↔ Even (magnitude x) := by
  rw [Nat.even_iff, Nat.even_iff, magnitude]
  omega

/-! ## Zeros -/

/-- Only the two zeros have no magnitude. -/
theorem eq_zero_or_eq_neg_zero_of_ofFloat {negative : Bool} (h : ofFloat x = .finite negative 0) :
    x = 0 ∨ x = -0 := by
  have hmagnitude : magnitude x = 0 := by
    rw [ofFloat_eq] at h
    split_ifs at h
    exact (Binary64.finite.inj h).2
  have hzero : isNegative 0 = false ∧ magnitude 0 = 0 := by decide +kernel
  have hneg : isNegative (-0) = true ∧ magnitude (-0) = 0 := by decide +kernel
  cases hsign : isNegative x with
  | false =>
    exact .inl (eq_of_magnitude_eq (hsign.trans hzero.1.symm) (hmagnitude.trans hzero.2.symm))
  | true => exact .inr (eq_of_magnitude_eq (hsign.trans hneg.1.symm) (hmagnitude.trans hneg.2.symm))

/-- The numbers that compare equal to zero are the zeros of both signs. -/
theorem beq_zero_iff : x == 0 ↔ ∃ negative, ofFloat x = .finite negative 0 := by
  constructor
  · intro h
    rcases (Float.beq_iff_ne_nan_and_eq.mp h).2.2 with rfl | ⟨rfl, -⟩ | ⟨rfl, -⟩
    · exact ⟨false, by decide +kernel⟩
    · exact ⟨false, by decide +kernel⟩
    · exact ⟨true, by decide +kernel⟩
  · rintro ⟨negative, h⟩
    rcases eq_zero_or_eq_neg_zero_of_ofFloat h with rfl | rfl <;> decide +kernel

/-! ## Unpacking -/

theorem infinityMagnitude_eq : infinityMagnitude = 2047 * 2 ^ 52 :=
  rfl

/-- The last 52 bits are the digits of the mantissa. -/
theorem toNat_unpackMantissa (bits : BitVec 64) :
    (@unpackMantissa .binary64 bits).toNat = bits.toNat % 2 ^ 52 := by
  rw [unpackMantissa_def, BitVec.extractLsb'_toNat, Nat.shiftRight_zero]

/-- The eleven bits before them are the exponent. -/
theorem toNat_unpackExponent (bits : BitVec 64) :
    (@unpackExponent .binary64 bits).toNat = bits.toNat / 2 ^ 52 % 2 ^ 11 := by
  rw [unpackExponent_def, BitVec.extractLsb'_toNat, Nat.shiftRight_eq_div_pow]

/-- The first bit is the sign. -/
theorem toNat_unpackSign (bits : BitVec 64) :
    (@unpackSign .binary64 bits).toNat = bits.toNat / 2 ^ 63 % 2 := by
  rw [unpackSign_def, BitVec.extractLsb'_toNat, Nat.shiftRight_eq_div_pow]
  rfl

theorem unpackMantissa_eq_zeros_iff {bits : BitVec 64} :
    @unpackMantissa .binary64 bits = 0#_ ↔ bits.toNat % 2 ^ 52 = 0 := by
  rw [← BitVec.toNat_inj, toNat_unpackMantissa]
  rfl

theorem unpackExponent_eq_zeros_iff {bits : BitVec 64} :
    @unpackExponent .binary64 bits = 0#_ ↔ bits.toNat / 2 ^ 52 % 2 ^ 11 = 0 := by
  rw [← BitVec.toNat_inj, toNat_unpackExponent]
  rfl

theorem unpackExponent_eq_ones_iff {bits : BitVec 64} :
    @unpackExponent .binary64 bits = -1#_ ↔ bits.toNat / 2 ^ 52 % 2 ^ 11 = 2047 := by
  rw [← BitVec.toNat_inj, toNat_unpackExponent]
  rfl

/-- The sign of the floats with or without the sign bit. -/
def signOf (negative : Bool) : Sign :=
  if negative then .negative else .positive

theorem ofBitVec_unpackSign {bits : BitVec 64} :
    Sign.ofBitVec (@unpackSign .binary64 bits) = signOf (decide (2 ^ 63 ≤ bits.toNat)) := by
  have hlt : bits.toNat < 2 ^ 64 := bits.isLt
  have hpositive : @unpackSign .binary64 bits = 0#1 ↔ ¬ 2 ^ 63 ≤ bits.toNat := by
    rw [← BitVec.toNat_inj, toNat_unpackSign]
    change _ = 0 ↔ _
    omega
  simp only [Sign.ofBitVec, signOf, hpositive, decide_eq_true_eq, ite_not]

/-- The spacing of the binade of a magnitude, as a power of two. -/
def exponent (m : ℕ) : ℤ :=
  (m / binade - 1 : ℕ) - 1074

/-- In the lowest binade the magnitude itself is the mantissa. -/
theorem mantissa_subnormal (h : m < binade) : mantissa m = m := by
  rw [mantissa, Nat.div_eq_of_lt h, Nat.zero_sub, Nat.zero_mul, Nat.sub_zero]

theorem exponent_subnormal (h : m < binade) : exponent m = -1074 := by
  rw [exponent, Nat.div_eq_of_lt h]
  rfl

/-- In every other binade the mantissa has one digit more than is written. -/
theorem mantissa_normal (h : m < binade) : mantissa ((n + 1) * binade + m) = binade + m := by
  have hgrid : (n + 1) * binade + m = n * binade + (binade + m) := by ring
  rw [hgrid, mantissa, div_binade_sub_one (.inr (Nat.le_add_right _ _)) (by omega),
    Nat.add_sub_cancel_left]

/-- The exponent grows from binade to binade, but the lowest two have the same. -/
theorem exponent_normal (h : m < binade) : exponent ((n + 1) * binade + m) = n - 1074 := by
  have hgrid : (n + 1) * binade + m = n * binade + (binade + m) := by ring
  rw [hgrid, exponent, div_binade_sub_one (.inr (Nat.le_add_right _ _)) (by omega)]

/-- What bits stand for, in the form in which floats are computed with. -/
def unpacked : Binary64 → UnpackedFloat
  | nan => .notANumber
  | infinity negative => .infinity (signOf negative)
  | finite negative magnitude =>
    if h : 0 < magnitude then
      .finite (signOf negative) (mantissa magnitude) (exponent magnitude) (mantissa_pos h)
    else .zero (signOf negative)

/-- Bits whose exponent consists of ones are beyond the finite numbers: an infinity if the mantissa
has no digit, and not a number otherwise. -/
theorem unpack_of_exponent_ones {bits : BitVec 64} (h : @unpackExponent .binary64 bits = -1#_) :
    UnpackedFloat.unpack .binary64 bits =
      (if bits.toNat % 2 ^ 52 = 0 then infinity (2 ^ 63 ≤ bits.toNat) else nan).unpacked := by
  unfold UnpackedFloat.unpack
  dsimp only
  rw [ofBitVec_unpackSign, if_pos h]
  by_cases hnone : @unpackMantissa .binary64 bits = 0#_
  · rw [if_pos hnone, if_pos (unpackMantissa_eq_zeros_iff.mp hnone), unpacked]
  · rw [if_neg hnone, if_neg (unpackMantissa_eq_zeros_iff.not.mp hnone), unpacked]

/-- Bits whose exponent consists of zeros are a zero or a subnormal number: the mantissa is the
whole magnitude. -/
theorem unpack_of_exponent_zeros {bits : BitVec 64} (h : @unpackExponent .binary64 bits = 0#_) :
    UnpackedFloat.unpack .binary64 bits =
      (finite (2 ^ 63 ≤ bits.toNat) (bits.toNat % 2 ^ 52)).unpacked := by
  have hexponent := unpackExponent_eq_zeros_iff.mp h
  have hfraction : bits.toNat % 2 ^ 52 < binade := Nat.mod_lt _ binade_pos
  have hlast : ¬ @unpackExponent .binary64 bits = -1#_ := fun hones => by
    have := unpackExponent_eq_ones_iff.mp hones
    omega
  unfold UnpackedFloat.unpack
  dsimp only
  rw [ofBitVec_unpackSign, if_neg hlast, if_pos h, unpacked]
  by_cases hnone : @unpackMantissa .binary64 bits = 0#_
  · rw [dif_pos hnone, dif_neg (by have := unpackMantissa_eq_zeros_iff.mp hnone; omega)]
  · rw [dif_neg hnone, dif_pos (Nat.pos_of_ne_zero (unpackMantissa_eq_zeros_iff.not.mp hnone))]
    congr 1
    · rw [toNat_unpackMantissa, mantissa_subnormal hfraction]
    · rw [toNat_unpackExponent, exponent_subnormal hfraction, hexponent]
      rfl

/-- All other bits are a normal number, whose first digit is not among the bits. -/
theorem unpack_of_exponent_between {bits : BitVec 64}
    (hlast : ¬ @unpackExponent .binary64 bits = -1#_)
    (hfirst : ¬ @unpackExponent .binary64 bits = 0#_) :
    UnpackedFloat.unpack .binary64 bits =
      (finite (2 ^ 63 ≤ bits.toNat) (bits.toNat % 2 ^ 63)).unpacked := by
  have hfraction : bits.toNat % 2 ^ 52 < binade := Nat.mod_lt _ binade_pos
  obtain ⟨n, hn⟩ :=
    Nat.exists_eq_add_one_of_ne_zero (unpackExponent_eq_zeros_iff.not.mp hfirst)
  have hmagnitude : bits.toNat % 2 ^ 63 = (n + 1) * binade + bits.toNat % 2 ^ 52 := by
    rw [binade_eq]
    omega
  unfold UnpackedFloat.unpack
  dsimp only
  rw [ofBitVec_unpackSign, if_neg hlast, if_neg hfirst, unpacked, dif_pos (by omega)]
  congr 1
  · have hlt : (@unpackMantissa .binary64 bits).toNat < 2 ^ 52 := BitVec.isLt _
    rw [hmagnitude, mantissa_normal hfraction, BitVec.toNat_append,
      ← Nat.shiftLeft_add_eq_or_of_lt hlt, toNat_unpackMantissa]
    rfl
  · have hbias : (Format.binary64.exponentBias : ℤ) = 1023 := by decide
    rw [hmagnitude, exponent_normal hfraction, toNat_unpackExponent, hn, hbias]
    push_cast
    ring

/-- The bits of a float are unpacked to what they stand for. The magnitude alone tells the three
ranges of exponents apart. -/
theorem unpack_eq (x : Float) : x.toModel.unpack = (ofFloat x).unpacked := by
  have hbits : x.toBits.toNat = x.toBits.toBitVec.toNat := rfl
  change UnpackedFloat.unpack .binary64 x.toBits.toBitVec = _
  rw [ofFloat_eq, isNegative, magnitude, hbits, infinityMagnitude_eq]
  generalize x.toBits.toBitVec = bits
  by_cases hlast : @unpackExponent .binary64 bits = -1#_
  · have hexponent := unpackExponent_eq_ones_iff.mp hlast
    have hinfinite : ¬ bits.toNat % 2 ^ 63 < 2047 * 2 ^ 52 := by omega
    rw [unpack_of_exponent_ones hlast, if_neg hinfinite]
    congr 1
    exact if_congr (by omega) rfl rfl
  have hexponent := unpackExponent_eq_ones_iff.not.mp hlast
  rw [if_pos (by omega)]
  by_cases hfirst : @unpackExponent .binary64 bits = 0#_
  · have hmagnitude : bits.toNat % 2 ^ 63 = bits.toNat % 2 ^ 52 := by
      have := unpackExponent_eq_zeros_iff.mp hfirst
      omega
    rw [unpack_of_exponent_zeros hfirst, hmagnitude]
  · exact unpack_of_exponent_between hlast hfirst

/-! ## Finite floats -/

/-- A float is finite if its magnitude is below that of the infinities. -/
theorem isFinite_iff : x.isFinite ↔ magnitude x < infinityMagnitude := by
  change x.toModel.unpack.isFinite ↔ _
  rw [unpack_eq, ofFloat_eq]
  split_ifs with hfinite hinfinity
  · rw [unpacked]
    split <;> simp [UnpackedFloat.isFinite, hfinite]
  · simp [unpacked, UnpackedFloat.isFinite, hfinite]
  · simp [unpacked, UnpackedFloat.isFinite, hfinite]

/-- A float is not a number if its magnitude is above that of the infinities. -/
theorem isNaN_iff : x.isNaN ↔ infinityMagnitude < magnitude x := by
  change x.toModel.unpack.isNaN ↔ _
  rw [unpack_eq, ofFloat_eq]
  split_ifs with hfinite hinfinity
  · rw [unpacked]
    split <;> simp [UnpackedFloat.isNaN, hfinite.le]
  · simp [unpacked, UnpackedFloat.isNaN, hinfinity]
  · simp only [unpacked, UnpackedFloat.isNaN, true_iff]
    omega

theorem ofFloat_of_isFinite (h : x.isFinite) : ofFloat x = finite (isNegative x) (magnitude x) := by
  rw [ofFloat_eq, if_pos (isFinite_iff.mp h)]

/-- The rational number that a finite float is. -/
def toRat (x : Float) : ℚ :=
  match x.toModel.unpack with
  | .finite sign mantissa exponent _ => sign.apply mantissa * 2 ^ exponent
  | _ => 0

/-- A finite float is as many units as its magnitude, with its sign. -/
theorem toRat_eq (h : x.isFinite) :
    toRat x = (if isNegative x then -1 else 1) * (units (magnitude x) / unitsPerOne) := by
  rw [toRat, unpack_eq, ofFloat_of_isFinite h, unpacked]
  rcases Nat.eq_zero_or_pos (magnitude x) with hzero | hpos
  · rw [dif_neg (by omega), hzero, units_zero, Nat.cast_zero, zero_div, mul_zero]
  · have hscale : (2 : ℚ) ^ exponent (magnitude x) =
        2 ^ (magnitude x / binade - 1) / unitsPerOne := by
      rw [exponent, zpow_sub₀ two_ne_zero, zpow_natCast, cast_unitsPerOne]
      rfl
    rw [dif_pos hpos, units_eq, Nat.cast_mul, Nat.cast_pow, Nat.cast_ofNat]
    dsimp only
    rw [hscale]
    cases isNegative x with
    | false =>
      rw [signOf, if_neg Bool.false_ne_true, if_neg Bool.false_ne_true, Sign.apply,
        Int.cast_natCast]
      ring
    | true =>
      rw [signOf, if_pos rfl, if_pos rfl, Sign.apply, Int.cast_neg, Int.cast_natCast]
      ring

/-- Without its sign, a finite float is as many units as its magnitude counts. -/
theorem abs_toRat (h : x.isFinite) : |toRat x| = units (magnitude x) / unitsPerOne := by
  have hnonneg : (0 : ℚ) ≤ units (magnitude x) / unitsPerOne :=
    div_nonneg (Nat.cast_nonneg _) (Nat.cast_nonneg _)
  have hone : |(if isNegative x then -1 else 1 : ℚ)| = 1 := by split <;> simp
  rw [toRat_eq h, abs_mul, abs_of_nonneg hnonneg, hone, one_mul]

theorem abs_toRat_mul (h : x.isFinite) : |toRat x| * unitsPerOne = units (magnitude x) := by
  rw [abs_toRat h, div_mul_cancel₀ _ cast_unitsPerOne_pos.ne']

theorem unpack_zero : (0 : Float).toModel.unpack = .zero .positive :=
  rfl

/-- The negative zero is not below zero. -/
theorem lt_zero_iff (h : x.isFinite) : x < 0 ↔ isNegative x ∧ magnitude x ≠ 0 := by
  have hlt : x < 0 ↔ x.toModel.unpack.lt (0 : Float).toModel.unpack := decide_eq_true_iff
  rw [hlt, unpack_zero, unpack_eq, ofFloat_of_isFinite h, unpacked, ← Nat.pos_iff_ne_zero]
  split
  case isTrue hpos =>
    cases isNegative x <;> simp [signOf, UnpackedFloat.lt, UnpackedFloat.compare, hpos]
  case isFalse hpos => simp [UnpackedFloat.lt, UnpackedFloat.compare, hpos]

/-- A finite float is at least zero if it has no sign, and the negative zero is too. -/
theorem zero_le_iff (h : x.isFinite) : 0 ≤ x ↔ isNegative x = false ∨ magnitude x = 0 := by
  have hle : 0 ≤ x ↔ (0 : Float).toModel.unpack.le x.toModel.unpack := decide_eq_true_iff
  rw [hle, unpack_zero, unpack_eq, ofFloat_of_isFinite h, unpacked, ← Nat.le_zero, ← Nat.not_lt]
  split
  case isTrue hpos =>
    cases isNegative x <;> simp [signOf, UnpackedFloat.le, UnpackedFloat.compare, hpos]
  case isFalse hpos => simp [UnpackedFloat.le, UnpackedFloat.compare, hpos]

/-! ## Floats with given parts -/

/-- The bits of an infinity or of a finite float come back from the float. -/
theorem toBits_ofBits {bits : UInt64} (h : bits.toNat % 2 ^ 63 ≤ infinityMagnitude) :
    (Float.ofBits bits).toBits = bits := by
  have hnumber : ¬ @isNaNBits .binary64 bits.toBitVec := by
    have hinfinity := infinityMagnitude_eq
    have hbits : bits.toNat = bits.toBitVec.toNat := rfl
    rw [isNaNBits, decide_eq_true_eq, unpackExponent_eq_ones_iff, ne_eq,
      unpackMantissa_eq_zeros_iff]
    omega
  have hpack := @pack_unpack .binary64 bits.toBitVec (by decide)
  rw [if_neg hnumber] at hpack
  exact congrArg UInt64.ofBitVec hpack

/-- There is a float for each sign and magnitude up to infinity. -/
theorem exists_float (negative : Bool) (h : m ≤ infinityMagnitude) :
    ∃ x, isNegative x = negative ∧ magnitude x = m := by
  have hinfinity := infinityMagnitude_eq
  obtain ⟨bits, hlt, hsign, hmod⟩ :
      ∃ bits : ℕ, bits < 2 ^ 64 ∧ (2 ^ 63 ≤ bits ↔ negative) ∧ bits % 2 ^ 63 = m := by
    cases negative with
    | false => exact ⟨m, by omega, iff_of_false (by omega) Bool.false_ne_true, by omega⟩
    | true => exact ⟨2 ^ 63 + m, by omega, iff_of_true (by omega) rfl, by omega⟩
  have hbits : bits.toUInt64.toNat = bits := by
    rw [Nat.toUInt64, UInt64.toNat_ofNat', Nat.mod_eq_of_lt hlt]
  have hback : (Float.ofBits bits.toUInt64).toBits.toNat = bits := by
    rw [toBits_ofBits, hbits]
    rwa [hbits, hmod]
  refine ⟨Float.ofBits bits.toUInt64, ?_, ?_⟩
  · rw [isNegative, hback, Bool.eq_iff_iff, decide_eq_true_iff, hsign]
  · rw [magnitude, hback, hmod]

/-- The float of a magnitude has the bits of the magnitude. -/
theorem toBits_toFloat (h : m ≤ infinityMagnitude) : (toFloat m).toBits.toNat = m := by
  have hinfinity := infinityMagnitude_eq
  have hbits : m.toUInt64.toNat = m := by
    rw [Nat.toUInt64, UInt64.toNat_ofNat']
    omega
  rw [toFloat, toBits_ofBits (by omega), hbits]

theorem magnitude_toFloat (h : m ≤ infinityMagnitude) : magnitude (toFloat m) = m := by
  have hinfinity := infinityMagnitude_eq
  rw [magnitude, toBits_toFloat h]
  omega

theorem isNegative_toFloat (h : m ≤ infinityMagnitude) : isNegative (toFloat m) = false := by
  have hinfinity := infinityMagnitude_eq
  rw [isNegative, toBits_toFloat h, decide_eq_false_iff_not]
  omega

/-- A float is what it is packed into. -/
theorem ofModel_pack_unpack (x : Float) : Float.ofModel (.pack x.toModel.unpack) = x := by
  have hpack : Float.Model.pack x.toModel.unpack = x.toModel := by
    obtain ⟨bits, hvalid⟩ := x.toModel
    simp only [Float.Model.pack, Float.Model.unpack, pack_unpack_of_valid hvalid]
  rw [hpack]

/-- Without its sign a finite float is the one of its magnitude. -/
theorem neg_eq_toFloat (h : x.isFinite) (hsign : isNegative x) : -x = toFloat (magnitude x) := by
  have hmagnitude := isFinite_iff.mp h
  have hfloat : (toFloat (magnitude x)).isFinite := by
    rwa [isFinite_iff, magnitude_toFloat hmagnitude.le]
  have hneg : x.toModel.unpack.neg = (toFloat (magnitude x)).toModel.unpack := by
    rw [unpack_eq, unpack_eq, ofFloat_of_isFinite h, ofFloat_of_isFinite hfloat, hsign,
      isNegative_toFloat hmagnitude.le, magnitude_toFloat hmagnitude.le, unpacked, unpacked]
    split <;> rfl
  change Float.ofModel (.pack x.toModel.unpack.neg) = _
  rw [hneg, ofModel_pack_unpack]

end InfixCalculator.Binary64
