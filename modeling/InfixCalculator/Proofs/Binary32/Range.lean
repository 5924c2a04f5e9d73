import InfixCalculator.Proofs.Binary32.Arithmetic

/-!
# Beyond the range of single precision

A float that is a number is finite or one of the two infinities, and an operation on such floats has
a number as its result in all but a few cases: here a finite float is added to a number
(`not_isNaN_add`), or multiplies one without being zero (`not_isNaN_mul`). What is confined to a
range is finite again (`within_clamp`).

Lower bounds are carried through sums and products of which it is not known whether they leave the
range (`AtLeast`).
-/

namespace InfixCalculator.Binary32

open Float.Model Float.Model.UnpackedFloat

variable {x y low high : Float32} {f g : UnpackedFloat} {q r : ℚ} {sign : Sign}

/-! ## Infinities -/

/-- The infinity with the given sign. -/
def IsInfinity (sign : Sign) (x : Float32) : Prop :=
  x.toModel.unpack = .infinity sign

/-- A number is finite, or it is one of the two infinities. -/
theorem isFinite_or_isInfinity (h : ¬x.isNaN) : x.isFinite ∨ ∃ sign, IsInfinity sign x := by
  have h : ¬x.toModel.unpack.isNaN := h
  change x.toModel.unpack.isFinite ∨ ∃ sign, x.toModel.unpack = .infinity sign
  cases hunpack : x.toModel.unpack with
  | notANumber => rw [hunpack] at h; exact absurd rfl h
  | infinity sign => exact .inr ⟨sign, rfl⟩
  | zero sign => exact .inl rfl
  | finite sign m e hm => exact .inl rfl

theorem not_isNaN_of_isFinite (h : x.isFinite) : ¬x.isNaN := by
  have h : x.toModel.unpack.isFinite := h
  change ¬x.toModel.unpack.isNaN
  cases hunpack : x.toModel.unpack with
  | notANumber => rw [hunpack] at h; cases h
  | _ => exact Bool.false_ne_true

theorem IsInfinity.not_isNaN (h : IsInfinity sign x) : ¬x.isNaN := by
  change ¬x.toModel.unpack.isNaN
  rw [h]
  exact Bool.false_ne_true

theorem isInfinity_pack (sign : Sign) :
    IsInfinity sign (Float32.ofModel (.pack (.infinity sign))) := by
  cases sign <;> rfl

/-- A result is finite, or too great for that. -/
theorem pack_cases (h : Denotes f r) :
    ((Float32.ofModel (.pack f)).isFinite ∧ toRat (Float32.ofModel (.pack f)) = r) ∨
      2 ^ 128 ≤ |r| ∧ ∃ sign, r = signed sign |r| ∧
        IsInfinity sign (Float32.ofModel (.pack f)) := by
  rcases h.unpack_pack with ⟨-, hunpack⟩ | hinfinity
  · have hunpack : Denotes (Float32.ofModel (.pack f)).toModel.unpack r := hunpack
    exact .inl ⟨isFinite_of_denotes hunpack, toRat_eq_of_denotes hunpack⟩
  · exact .inr hinfinity

/-- A result that denotes a number is packed as one, even if it is too great. -/
theorem not_isNaN_pack (h : Denotes f r) : ¬(Float32.ofModel (.pack f)).isNaN := by
  obtain ⟨hfinite, -⟩ | ⟨-, sign, -, hinfinity⟩ := pack_cases h
  · exact not_isNaN_of_isFinite hfinite
  · exact hinfinity.not_isNaN

/-! ## Sums and products of numbers -/

/-- A sum with an infinity is this infinity. -/
theorem Denotes.add_infinity (h : Denotes f r) (sign : Sign) :
    UnpackedFloat.add .binary32 f (.infinity sign) = .infinity sign := by
  obtain ⟨sign', rfl, -⟩ | ⟨sign', m, e, hm, rfl, -⟩ := h.zero_or_finite <;> rfl

theorem Denotes.infinity_add (h : Denotes f r) (sign : Sign) :
    UnpackedFloat.add .binary32 (.infinity sign) f = .infinity sign := by
  obtain ⟨sign', rfl, -⟩ | ⟨sign', m, e, hm, rfl, -⟩ := h.zero_or_finite <;> rfl

theorem Denotes.mul_infinity (h : Denotes f r) (hr : r ≠ 0) (sign : Sign) :
    ∃ sign', UnpackedFloat.mul .binary32 f (.infinity sign) = .infinity sign' := by
  obtain ⟨-, -, rfl⟩ | ⟨sign', m, e, hm, rfl, -⟩ := h.zero_or_finite
  · exact absurd rfl hr
  · exact ⟨sign' * sign, rfl⟩

/-- A finite float has a sum with every number, since only two infinities have none. -/
theorem not_isNaN_add (hx : x.isFinite) (hy : ¬y.isNaN) : ¬(x + y).isNaN := by
  rcases isFinite_or_isInfinity hy with hy | ⟨sign, hy⟩
  · exact not_isNaN_pack ((denotes_toRat hx).add (denotes_toRat hy))
  · change ¬(Float32.ofModel (.pack (.add .binary32 x.toModel.unpack y.toModel.unpack))).isNaN
    rw [hy, (denotes_toRat hx).add_infinity]
    exact (isInfinity_pack sign).not_isNaN

/-- Only a zero has no product with an infinity. -/
theorem not_isNaN_mul (hx : x.isFinite) (hne : toRat x ≠ 0) (hy : ¬y.isNaN) : ¬(x * y).isNaN := by
  rcases isFinite_or_isInfinity hy with hy | ⟨sign, hy⟩
  · exact not_isNaN_pack ((denotes_toRat hx).mul (denotes_toRat hy))
  · obtain ⟨sign', hmul⟩ := (denotes_toRat hx).mul_infinity hne sign
    change ¬(Float32.ofModel (.pack (.mul .binary32 x.toModel.unpack y.toModel.unpack))).isNaN
    rw [hy, hmul]
    exact (isInfinity_pack sign').not_isNaN

/-! ## Order -/

/-- The positive infinity is the greater one in both orders of comparison. -/
theorem compare_infinity_positive (hy : y.isFinite) :
    y.toModel.unpack.compare (.infinity .positive) = some .lt ∧
      (UnpackedFloat.infinity .positive).compare y.toModel.unpack = some .gt := by
  obtain ⟨sign, hunpack, -⟩ | ⟨sign, m, e, hm, hunpack, -⟩ := (denotes_toRat hy).zero_or_finite <;>
    rw [hunpack] <;> exact ⟨rfl, rfl⟩

theorem compare_infinity_negative (hy : y.isFinite) :
    y.toModel.unpack.compare (.infinity .negative) = some .gt ∧
      (UnpackedFloat.infinity .negative).compare y.toModel.unpack = some .lt := by
  obtain ⟨sign, hunpack, -⟩ | ⟨sign, m, e, hm, hunpack, -⟩ := (denotes_toRat hy).zero_or_finite <;>
    rw [hunpack] <;> exact ⟨rfl, rfl⟩

/-- The positive infinity is above every finite float. -/
theorem IsInfinity.lt_of_positive (hx : IsInfinity .positive x) (hy : y.isFinite) :
    y < x ∧ ¬x < y ∧ ¬x ≤ y := by
  obtain ⟨hlt, hgt⟩ := compare_infinity_positive hy
  rw [← hx] at hlt hgt
  simp [lt_iff_compare, le_iff_compare, hlt, hgt]

/-- The negative infinity is below every finite float. -/
theorem IsInfinity.lt_of_negative (hx : IsInfinity .negative x) (hy : y.isFinite) :
    x < y ∧ ¬y ≤ x := by
  obtain ⟨hgt, hlt⟩ := compare_infinity_negative hy
  rw [← hx] at hlt hgt
  simp [lt_iff_compare, le_iff_compare, hlt, hgt]

/-- A number in the range from `low` to `high`. -/
structure Within (low high x : Float32) : Prop where
  not_isNaN : ¬x.isNaN
  low_le : low ≤ x
  le_high : x ≤ high

/-- An infinity lies beyond every finite bound. -/
theorem Within.isFinite (h : Within low high x) (hlow : low.isFinite) (hhigh : high.isFinite) :
    x.isFinite := by
  obtain hx | ⟨sign, hx⟩ := isFinite_or_isInfinity h.not_isNaN
  · exact hx
  · cases sign with
    | negative => exact absurd h.low_le (hx.lt_of_negative hlow).2
    | positive => exact absurd h.le_high (hx.lt_of_positive hhigh).2.2

/-- What is confined to a range lies within it, if it is a number at all. -/
theorem within_clamp (hlow : low.isFinite) (hhigh : high.isFinite) (hle : low ≤ high)
    (hx : ¬x.isNaN) : Within low high (clamp low high x) := by
  have hlow_self : low ≤ low := (le_iff hlow hlow).mpr le_rfl
  have hhigh_self : high ≤ high := (le_iff hhigh hhigh).mpr le_rfl
  have hlow_within : Within low high low := ⟨not_isNaN_of_isFinite hlow, hlow_self, hle⟩
  have hhigh_within : Within low high high := ⟨not_isNaN_of_isFinite hhigh, hle, hhigh_self⟩
  obtain hfinite | ⟨sign, hinfinity⟩ := isFinite_or_isInfinity hx
  · rw [clamp]
    split_ifs with hbelow habove
    · exact hlow_within
    · exact hhigh_within
    · rw [lt_iff hfinite hlow, not_lt] at hbelow
      rw [lt_iff hhigh hfinite, not_lt] at habove
      exact ⟨hx, (le_iff hlow hfinite).mpr hbelow, (le_iff hfinite hhigh).mpr habove⟩
  · -- an infinity is confined to the end of the range on its side
    cases sign with
    | negative =>
      rw [clamp, if_pos (hinfinity.lt_of_negative hlow).1]
      exact hlow_within
    | positive =>
      rw [clamp, if_neg (hinfinity.lt_of_positive hlow).2.1,
        if_pos (hinfinity.lt_of_positive hhigh).1]
      exact hhigh_within

/-! ## Lower bounds -/

/-- The float is at least `q`, or it is the positive infinity. -/
def AtLeast (q : ℚ) (x : Float32) : Prop :=
  IsInfinity .positive x ∨ x.isFinite ∧ q ≤ toRat x

/-- A result that is too great for the range is packed as the positive infinity. -/
theorem atLeast_pack (h : Denotes f r) (hq : 0 ≤ q) (hr : q ≤ r) :
    AtLeast q (Float32.ofModel (.pack f)) := by
  obtain ⟨hfinite, hvalue⟩ | ⟨hgreat, sign, hsign, hinfinity⟩ := pack_cases h
  · exact .inr ⟨hfinite, hvalue ▸ hr⟩
  · cases sign with
    | positive => exact .inl hinfinity
    | negative =>
      -- a number that is not negative is not rounded to the negative infinity
      have : r = -|r| := hsign
      have : (0 : ℚ) < 2 ^ 128 := by positivity
      linarith

theorem AtLeast.mono (hx : AtLeast r x) (hq : q ≤ r) : AtLeast q x :=
  hx.imp_right fun ⟨hfinite, hr⟩ => ⟨hfinite, hq.trans hr⟩

/-- Rounding keeps the order, so a sum is at least the bounds added and rounded. -/
theorem AtLeast.add_left (hy : AtLeast q y) (hx : x.isFinite) (hsum : 0 ≤ toRat x + q) :
    AtLeast (rounded (toRat x + q)) (x + y) := by
  rcases hy with hy | ⟨hy, hq⟩
  · left
    change IsInfinity .positive (Float32.ofModel (.pack (.add .binary32 x.toModel.unpack _)))
    rw [hy, (denotes_toRat hx).add_infinity]
    exact isInfinity_pack .positive
  · exact atLeast_pack ((denotes_toRat hx).add (denotes_toRat hy)) (rounded_nonneg hsum)
      (rounded_mono (by linarith))

theorem AtLeast.add_right (hx : AtLeast q x) (hy : y.isFinite) (hsum : 0 ≤ q + toRat y) :
    AtLeast (rounded (q + toRat y)) (x + y) := by
  rcases hx with hx | ⟨hx, hq⟩
  · left
    change IsInfinity .positive (Float32.ofModel (.pack (.add .binary32 _ y.toModel.unpack)))
    rw [hx, (denotes_toRat hy).infinity_add]
    exact isInfinity_pack .positive
  · exact atLeast_pack ((denotes_toRat hx).add (denotes_toRat hy)) (rounded_nonneg hsum)
      (rounded_mono (by linarith))

/-- The same for products with a factor that is positive and finite. -/
theorem AtLeast.mul (hx : AtLeast q x) (hq : 0 ≤ q) (hy : y.isFinite) (hpos : 0 < toRat y) :
    AtLeast (rounded (q * toRat y)) (x * y) := by
  have hdenotes := denotes_toRat hy
  rcases hx with hx | ⟨hx, hqx⟩
  · left
    change IsInfinity .positive (Float32.ofModel (.pack (.mul .binary32 _ y.toModel.unpack)))
    rw [hx]
    obtain ⟨-, -, hzero⟩ | ⟨sign, m, e, hm, hunpack, -⟩ := hdenotes.zero_or_finite
    · exact absurd hzero hpos.ne'
    · rw [hunpack] at hdenotes ⊢
      -- the product has the sign of the finite factor
      cases sign with
      | negative => exact absurd (neg_of_negative hdenotes) hpos.not_gt
      | positive => exact isInfinity_pack .positive
  · refine atLeast_pack ((denotes_toRat hx).mul hdenotes) (rounded_nonneg (by positivity))
      (rounded_mono ?_)
    gcongr

/-- A great number is confined to the end of the range. -/
theorem AtLeast.clamp_eq (hx : AtLeast q x) (hlow : low.isFinite) (hhigh : high.isFinite)
    (hle : low ≤ high) (hq : toRat high < q) : clamp low high x = high := by
  rw [le_iff hlow hhigh] at hle
  rcases hx with hx | ⟨hx, hqx⟩
  · rw [clamp, if_neg (hx.lt_of_positive hlow).2.1, if_pos (hx.lt_of_positive hhigh).1]
  · rw [clamp, if_neg, if_pos]
    · rw [lt_iff hhigh hx]
      linarith
    · rw [lt_iff hx hlow]
      linarith

/-! ## Great natural numbers -/

/-- A decimal without an exponent is given 24 zeros and rounded. -/
theorem ofScientific_eq {m : ℕ} (hm : 0 < m) :
    UnpackedFloat.ofScientific .binary32 m 0 =
      roundWithAccuracy .binary32 .positive (m <<< 24 * 1) (-24) .exact := by
  have hbits : (2 : ℤ) ^ Format.binary32.exponentBits = 256 := by decide
  rw [UnpackedFloat.ofScientific, dif_neg hm.ne', if_neg (by rw [hbits]; norm_num),
    if_neg (by rw [hbits]; omega), if_pos le_rfl]
  rfl

/-- A natural number is read as itself, rounded once. -/
theorem denotes_ofScientific {m : ℕ} (hm : 0 < m) :
    Denotes (UnpackedFloat.ofScientific .binary32 m 0) (rounded m) := by
  have hmantissa : m <<< 24 * 1 = m * 2 ^ 24 := by rw [Nat.shiftLeft_eq, Nat.mul_one]
  have hdigits : 2 ^ 23 ≤ m * 2 ^ 24 := by omega
  have hvalue : signed .positive ((m * 2 ^ 24 : ℕ) * 2 ^ (-24 : ℤ)) = (m : ℚ) := by
    rw [signed, Nat.cast_mul, mul_assoc]
    norm_num
  rw [ofScientific_eq hm, hmantissa, ← hvalue]
  exact denotes_roundWithAccuracy (by positivity) (describes_exact _)
    (le_targetExponent_of_digits hdigits)

/-- A natural number is rounded however great it is. -/
theorem atLeast_ofNat (n : ℕ) : AtLeast (rounded n) (Float32.ofNat n) := by
  -- small numbers are read as words, great ones as decimals
  rcases Nat.lt_or_ge n (2 ^ 23) with hn | hn
  · obtain ⟨hfinite, hvalue⟩ := toRat_ofNat hn
    refine .inr ⟨hfinite, ?_⟩
    rw [hvalue, ← hvalue, rounded_toRat hfinite]
  · have hofNat : Float32.ofNat n =
        Float32.ofModel (.pack (UnpackedFloat.ofScientific .binary32 n 0)) := by
      change Float32.ofScientific n false 0 = _
      rw [Float32.ofScientific, dif_neg (by omega)]
      rfl
    rw [hofNat]
    exact atLeast_pack (denotes_ofScientific (by omega)) (rounded_nonneg n.cast_nonneg) le_rfl

/-! ## Natural numbers of 24 digits

Nothing is rounded in these lower bounds. -/

section

variable {k n : ℕ}

/-- A natural number added from the left. -/
theorem AtLeast.ofNat_add (hx : AtLeast n x) (hk : k < 2 ^ 23) (hsum : k + n < 2 ^ 24) :
    AtLeast (k + n : ℕ) (Float32.ofNat k + x) := by
  obtain ⟨hfinite, hvalue⟩ := toRat_ofNat hk
  have h := hx.add_left hfinite (by rw [hvalue]; positivity)
  rwa [hvalue, ← Nat.cast_add, rounded_natCast hsum] at h

theorem AtLeast.add_ofNat (hx : AtLeast n x) (hk : k < 2 ^ 23) (hsum : n + k < 2 ^ 24) :
    AtLeast (n + k : ℕ) (x + Float32.ofNat k) := by
  obtain ⟨hfinite, hvalue⟩ := toRat_ofNat hk
  have h := hx.add_right hfinite (by rw [hvalue]; positivity)
  rwa [hvalue, ← Nat.cast_add, rounded_natCast hsum] at h

/-- A product with a natural number; it is not zero, since an infinity has no product with zero. -/
theorem AtLeast.mul_ofNat (hx : AtLeast n x) (hpos : 0 < k) (hk : k < 2 ^ 23)
    (hmul : n * k < 2 ^ 24) : AtLeast (n * k : ℕ) (x * Float32.ofNat k) := by
  obtain ⟨hfinite, hvalue⟩ := toRat_ofNat hk
  have h := hx.mul n.cast_nonneg hfinite (by rw [hvalue]; exact_mod_cast hpos)
  rwa [hvalue, ← Nat.cast_mul, rounded_natCast hmul] at h

/-- A natural number is read as at least every smaller one. -/
theorem atLeast_ofNat_of_le (hn : n < 2 ^ 24) (hle : n ≤ k) : AtLeast n (Float32.ofNat k) := by
  refine (atLeast_ofNat k).mono ?_
  rw [← rounded_natCast hn]
  exact rounded_mono (Nat.cast_le.mpr hle)

end

end InfixCalculator.Binary32
