import InfixCalculator.Proofs.Binary32.Unpacked

/-!
# Operations on canonical numbers

The operations of the library's model of floats, applied to numbers in canonical form, denote the
exact result after rounding: addition and subtraction (by way of `normalize`), multiplication, and
division, whose rest tells the digits behind the quotient. A result that is not too large comes back
from its bits; any other one is packed as an infinity.
-/

namespace InfixCalculator.Binary32

open Float.Model Float.Model.UnpackedFloat

variable {f g : UnpackedFloat} {r s : ℚ} {sign : Sign} {m : ℕ} {e : ℤ}

theorem le_targetExponent_of_le_neg (he : e ≤ -149) :
    e ≤ Format.binary32.targetExponent (totalExponent m e) := by
  rw [targetExponent_eq]
  omega

/-- A mantissa with all its digits is not shifted to the left. -/
theorem le_targetExponent_of_digits (hm : 2 ^ 23 ≤ m) :
    e ≤ Format.binary32.targetExponent (totalExponent m e) := by
  have hlog : 23 ≤ m.log2 := (Nat.le_log2 (by omega)).mpr hm
  rw [targetExponent_eq, totalExponent]
  omega

/-- A mantissa from which nothing was dropped describes itself. -/
theorem describes_exact (m : ℕ) : Describes (.ofMantissaAndAccuracy m .exact) m :=
  rfl

/-- Decreasing the exponent appends zero digits. -/
theorem decreaseExponent_eq (m : ℕ) (e t : ℤ) :
    decreaseExponent m e t = (m * 2 ^ (e - t).toNat, e - (e - t).toNat) := by
  rw [decreaseExponent, Nat.shiftLeft_eq]

/-- What is rounded denotes the exact number rounded. -/
theorem denotes_round (hm : 0 < m) :
    Denotes (UnpackedFloat.round .binary32 sign m e) (rounded (signed sign (m * 2 ^ e))) := by
  rw [UnpackedFloat.round, decreaseExponent_eq]
  -- a short mantissa gets `k` zeros behind it first, so that it can be shifted to the right
  generalize hk : (e - Format.binary32.targetExponent (totalExponent m e)).toNat = k
  have htotal := totalExponent_zeros hm.ne' e k
  have hvalue : (m * 2 ^ e : ℚ) = (m * 2 ^ k : ℕ) * 2 ^ (e - k) := by
    have := two_zpow_add (e - k) k
    rw [sub_add_cancel] at this
    rw [this]
    push_cast
    ring
  rw [hvalue]
  exact denotes_roundWithAccuracy (by positivity) (describes_exact _) (by rw [htotal]; omega)

/-- The same for an integer as mantissa, whose sign is the sign of the number. -/
theorem denotes_normalize (n e : ℤ) (sign : Sign) :
    Denotes (UnpackedFloat.normalize .binary32 n e sign) (rounded (n * 2 ^ e)) := by
  unfold UnpackedFloat.normalize
  -- the sign of the integer becomes that of the float; a zero gets the given one
  rcases lt_trichotomy n 0 with hn | rfl | hn
  · have habs : ((-n).toNat : ℚ) = -n := by
      exact_mod_cast Int.toNat_of_nonneg (by omega : 0 ≤ -n)
    rw [show compare n 0 = .lt from Int.compare_eq_lt.mpr hn]
    have := @denotes_round .negative _ e (show 0 < (-n).toNat by omega)
    rwa [habs, signed, neg_mul, neg_neg] at this
  · rw [show compare (0 : ℤ) 0 = .eq from rfl, Int.cast_zero, zero_mul, rounded_zero]
    rfl
  · have habs : (n.toNat : ℚ) = n := by exact_mod_cast Int.toNat_of_nonneg hn.le
    rw [show compare n 0 = .gt from Int.compare_eq_gt.mpr hn]
    have := @denotes_round .positive _ e (show 0 < n.toNat by omega)
    rwa [habs] at this

/-- Digits that are added behind a mantissa do not change the number. -/
theorem apply_decreaseExponent {t : ℤ} (ht : t ≤ e) :
    (sign.apply (decreaseExponent m e t).1 : ℚ) * 2 ^ t = signed sign (m * 2 ^ e) := by
  obtain ⟨k, rfl⟩ := Int.le.dest ht
  rw [decreaseExponent_eq, add_sub_cancel_left, Int.toNat_natCast, two_zpow_add]
  cases sign <;> simp only [Sign.apply, signed] <;> push_cast <;> ring

/-- The sum is formed exactly, at the smaller of the two exponents, and rounded once. -/
theorem Denotes.add (hf : Denotes f r) (hg : Denotes g s) :
    Denotes (UnpackedFloat.add .binary32 f g) (rounded (r + s)) := by
  obtain ⟨sign, rfl, rfl⟩ | ⟨sign, m, e, hm, rfl, -, -, -, rfl⟩ := hf.zero_or_finite
  · rw [zero_add, hg.rounded_eq]
    obtain ⟨sign', rfl, rfl⟩ | ⟨sign', m', e', hm', rfl, -⟩ := hg.zero_or_finite
    · rw [UnpackedFloat.add]
      split <;> rfl
    · exact hg
  · obtain ⟨sign', rfl, rfl⟩ | ⟨sign', m', e', hm', rfl, -, -, -, rfl⟩ := hg.zero_or_finite
    · rw [add_zero, hf.rounded_eq]
      exact hf
    · -- both mantissas are brought to the lesser exponent and added there
      rw [← apply_decreaseExponent (min_le_left e e'), ← apply_decreaseExponent (min_le_right e e'),
        ← add_mul, ← Int.cast_add]
      exact denotes_normalize ..

theorem Denotes.neg (hf : Denotes f r) : Denotes f.neg (-r) := by
  obtain ⟨sign, rfl, rfl⟩ | ⟨sign, m, e, hm, rfl, hlt, he, hdigits, rfl⟩ := hf.zero_or_finite
  · exact neg_zero
  · refine ⟨hlt, he, hdigits, ?_⟩
    cases sign with
    | negative => exact neg_neg _
    | positive => rfl

/-- Subtracting is adding the negative. -/
theorem sub_eq_add (f g : UnpackedFloat) :
    UnpackedFloat.sub .binary32 f g = UnpackedFloat.add .binary32 f g.neg := by
  -- only finite numbers other than zero are computed with, all other cases are listed
  have happly (sign : Sign) (k : ℤ) : (-sign).apply k = -sign.apply k := by
    cases sign with
    | negative => exact (neg_neg k).symm
    | positive => rfl
  cases f with
  | notANumber => rfl
  | infinity sign => cases g <;> rfl
  | zero sign => cases g <;> rfl
  | finite sign m e hm =>
    cases g with
    | notANumber => rfl
    | infinity sign' => rfl
    | zero sign' => rfl
    | finite sign' m' e' hm' =>
      simp only [UnpackedFloat.sub, UnpackedFloat.add, UnpackedFloat.neg, happly, sub_eq_add_neg]

/-- A difference is the sum with the opposite. -/
theorem Denotes.sub (hf : Denotes f r) (hg : Denotes g s) :
    Denotes (UnpackedFloat.sub .binary32 f g) (rounded (r - s)) := by
  rw [sub_eq_add, sub_eq_add_neg]
  exact hf.add hg.neg

/-- Signs and magnitudes are multiplied apart from each other. -/
theorem signed_mul_signed (sign sign' : Sign) (q q' : ℚ) :
    signed sign q * signed sign' q' = signed (sign * sign') (q * q') := by
  cases sign <;> cases sign'
  · exact neg_mul_neg q q'
  · exact neg_mul q q'
  · exact mul_neg q q'
  · rfl

/-- The product of the mantissas is exact, and it is rounded once. -/
theorem Denotes.mul (hf : Denotes f r) (hg : Denotes g s) :
    Denotes (UnpackedFloat.mul .binary32 f g) (rounded (r * s)) := by
  obtain ⟨sign, rfl, rfl⟩ | ⟨sign, m, e, hm, rfl, -, he, hdigits, rfl⟩ := hf.zero_or_finite
  · rw [zero_mul, rounded_zero]
    obtain ⟨sign', rfl, -⟩ | ⟨sign', m', e', hm', rfl, -⟩ := hg.zero_or_finite
    · rfl
    · rfl
  obtain ⟨sign', rfl, rfl⟩ | ⟨sign', m', e', hm', rfl, -, he', hdigits', rfl⟩ := hg.zero_or_finite
  · rw [mul_zero, rounded_zero]
    rfl
  have hvalue : signed sign (m * 2 ^ e) * signed sign' (m' * 2 ^ e') =
      signed (sign * sign') ((m * m' : ℕ) * 2 ^ (e + e')) := by
    rw [signed_mul_signed, zpow_add₀ two_ne_zero]
    congr 1
    push_cast
    ring
  rw [hvalue]
  refine denotes_roundWithAccuracy (by positivity) (describes_exact _) ?_
  -- either a factor has all its digits, or both exponents are the least one
  rcases hdigits with rfl | hdigits
  · rcases hdigits' with rfl | hdigits'
    · exact le_targetExponent_of_le_neg (by norm_num)
    · exact le_targetExponent_of_digits (hdigits'.trans (Nat.le_mul_of_pos_left m' hm))
  · exact le_targetExponent_of_digits (hdigits.trans (Nat.le_mul_of_pos_right m hm'))

/-- The rest of a division tells the digits behind the quotient. -/
theorem describes_quotient (n : ℕ) {d : ℕ} (hd : 0 < d) :
    Describes (.ofMantissaAndAccuracy (n / d) (accuracyOfFraction (n % d) d)) (n / d : ℚ) := by
  have hd' : (0 : ℚ) < d := by exact_mod_cast hd
  have hlt : ((n % d : ℕ) : ℚ) < d := by exact_mod_cast Nat.mod_lt n hd
  have hquotient : (n / d : ℚ) = (n / d : ℕ) + (n % d : ℕ) / d := by
    rw [eq_comm, ← sub_eq_zero]
    field_simp
    have : (d * (n / d : ℕ) + (n % d : ℕ) : ℚ) = n := by exact_mod_cast Nat.div_add_mod n d
    linarith
  have hone : ((n % d : ℕ) : ℚ) / d < 1 := (div_lt_one hd').mpr hlt
  rw [hquotient, accuracyOfFraction]
  split_ifs with hzero
  · rw [hzero, Nat.cast_zero, zero_div, add_zero]
    rfl
  -- twice the rest is to the divisor as the fraction is to a half
  have hpos : (0 : ℚ) < (n % d : ℕ) / d := div_pos (by exact_mod_cast Nat.pos_of_ne_zero hzero) hd'
  rcases lt_trichotomy (2 * (n % d)) d with hhalf | hhalf | hhalf
  · have : ((n % d : ℕ) : ℚ) / d < 1 / 2 := by
      rw [div_lt_div_iff₀ hd' two_pos]
      exact_mod_cast (by omega : n % d * 2 < 1 * d)
    rw [Nat.compare_eq_lt.mpr hhalf]
    exact ⟨lt_add_of_pos_right _ hpos, (add_lt_add_iff_left _).mpr this⟩
  · have : ((n % d : ℕ) : ℚ) / d = 1 / 2 := by
      rw [div_eq_div_iff hd'.ne' two_ne_zero]
      exact_mod_cast (by omega : n % d * 2 = 1 * d)
    rw [Nat.compare_eq_eq.mpr hhalf, this]
    rfl
  · have : (1 : ℚ) / 2 < (n % d : ℕ) / d := by
      rw [div_lt_div_iff₀ two_pos hd']
      exact_mod_cast (by omega : 1 * d < n % d * 2)
    rw [Nat.compare_eq_gt.mpr hhalf]
    exact ⟨(add_lt_add_iff_left _).mpr this, (add_lt_add_iff_left _).mpr hone⟩

theorem signed_div_signed (sign sign' : Sign) (q q' : ℚ) :
    signed sign q / signed sign' q' = signed (sign / sign') (q / q') := by
  cases sign <;> cases sign'
  · exact neg_div_neg_eq q q'
  · exact neg_div q' q
  · exact div_neg q
  · rfl

/-- The quotient of the mantissas has more digits than are kept, and a remainder is not forgotten:
it is rounded once, like an exact quotient. -/
theorem Denotes.div (hf : Denotes f r) (hg : Denotes g s) (hs : s ≠ 0) :
    Denotes (UnpackedFloat.div .binary32 f g) (rounded (r / s)) := by
  obtain ⟨-, -, rfl⟩ | ⟨sign', m', e', hm', rfl, -, -, -, rfl⟩ := hg.zero_or_finite
  · exact absurd rfl hs
  obtain ⟨sign, rfl, rfl⟩ | ⟨sign, m, e, hm, rfl, -, -, -, rfl⟩ := hf.zero_or_finite
  · rw [zero_div, rounded_zero]
    rfl
  rw [UnpackedFloat.div, divCore]
  -- `k` zero digits are written behind the dividend
  generalize htarget : min (e - e')
    (Format.binary32.targetExponent (totalExponent m e - totalExponent m' e')) = t
  obtain ⟨k, hk⟩ := Int.le.dest (htarget ▸ min_le_left (e - e') _)
  have hshift : m <<< (e - e' - t).toNat = m * 2 ^ k := by
    rw [← hk, add_sub_cancel_left, Int.toNat_natCast, Nat.shiftLeft_eq]
  have hvalue : signed sign (m * 2 ^ e) / signed sign' (m' * 2 ^ e') =
      signed (sign / sign') ((m * 2 ^ k : ℕ) / m' * 2 ^ t) := by
    have hscale : (2 : ℚ) ^ e = 2 ^ e' * 2 ^ t * 2 ^ k := by
      rw [← zpow_add₀ two_ne_zero, ← two_zpow_add]
      congr 1
      omega
    have hm'' : (m' : ℚ) ≠ 0 := Nat.cast_ne_zero.mpr hm'.ne'
    have hpos := two_zpow_pos e'
    rw [signed_div_signed, hscale]
    congr 1
    push_cast
    field_simp
  rw [hvalue]
  simp only [hshift]
  refine denotes_roundWithAccuracy (by positivity) (describes_quotient _ hm') ?_
  rcases le_or_gt t (-149) with hleast | hdigits
  · exact le_targetExponent_of_le_neg hleast
  · -- the dividend has been given so many digits that the quotient has all of its own
    refine le_targetExponent_of_digits ((Nat.le_div_iff_mul_le hm').mpr ?_)
    have hk' : 24 + m'.log2 ≤ m.log2 + k := by
      rw [targetExponent_eq, totalExponent, totalExponent] at htarget
      omega
    calc 2 ^ 23 * m'
      _ ≤ 2 ^ 23 * 2 ^ (m'.log2 + 1) := by gcongr; exact Nat.lt_log2_self.le
      _ = 2 ^ (24 + m'.log2) := by rw [← pow_add]; congr 1; omega
      _ ≤ 2 ^ (m.log2 + k) := Nat.pow_le_pow_right two_pos hk'
      _ = 2 ^ m.log2 * 2 ^ k := pow_add ..
      _ ≤ m * 2 ^ k := by gcongr; exact Nat.log2_self_le hm.ne'

/-! ## Packing -/

/-- A subnormal number has the least exponent, and all its digits are among the bits. -/
theorem unpack_pack_subnormal {hm : 0 < m} (hsub : m < 2 ^ 23) :
    UnpackedFloat.unpack .binary32 (UnpackedFloat.pack .binary32 (.finite sign m (-149) hm)) =
      .finite sign m (-149) hm := by
  have hbias : (Format.binary32.exponentBias : ℤ) = 127 := by decide
  have hlog : m.log2 < 23 := (Nat.log2_lt hm.ne').mpr hsub
  have hbits : (BitVec.ofNat 23 m).toNat = m := by
    rw [BitVec.toNat_ofNat, Nat.mod_eq_of_lt hsub]
  have hne : BitVec.ofNat 23 m ≠ 0#23 := by
    rw [ne_eq, ← BitVec.toNat_inj, hbits]
    exact hm.ne'
  rw [UnpackedFloat.pack]
  simp only [hbias]
  rw [if_neg (by norm_num), if_neg (by change ¬ m.log2 + 1 = 24; omega),
    UnpackedFloat.unpack]
  simp [hne, hbits, hbias]

/-- The first digit of a normal number is left out of the bits. -/
theorem unpack_pack_normal {hm : 0 < m} (hnormal : 2 ^ 23 ≤ m) (hlt : m < 2 ^ 24)
    (hleast : -149 ≤ e) (he : e < 105) :
    UnpackedFloat.unpack .binary32 (UnpackedFloat.pack .binary32 (.finite sign m e hm)) =
      .finite sign m e hm := by
  have hbias : (Format.binary32.exponentBias : ℤ) = 127 := by decide
  have hlog : m.log2 < 24 := (Nat.log2_lt hm.ne').mpr hlt
  have hlog' : 23 ≤ m.log2 := (Nat.le_log2 hm.ne').mpr hnormal
  rw [UnpackedFloat.pack]
  simp only [hbias]
  rw [if_neg (by norm_num; omega), if_pos (by change m.log2 + 1 = 24; omega),
    UnpackedFloat.unpack]
  generalize hexponent : (e + 127 + (23 : ℕ)).toNat = biased
  have hbits : (BitVec.ofNat 23 m).toNat = m - 2 ^ 23 := by
    rw [BitVec.toNat_ofNat]
    omega
  have hbiased : (BitVec.ofNat 8 biased).toNat = biased := by
    rw [BitVec.toNat_ofNat]
    omega
  have hfirst : BitVec.ofNat 8 biased ≠ 0#8 := by
    rw [ne_eq, ← BitVec.toNat_inj, hbiased]
    change ¬ biased = 0
    omega
  have hlast : BitVec.ofNat 8 biased ≠ -1#8 := by
    rw [ne_eq, ← BitVec.toNat_inj, hbiased]
    change ¬ biased = 255
    omega
  simp only [unpackExponent_packComponents, unpackMantissa_packComponents,
    unpackSign_packComponents, Sign.ofBitVec_toBitVec, hfirst, hlast, if_false, hbiased, hbias,
    finite.injEq, true_and]
  constructor
  · rw [BitVec.toNat_append, ← Nat.shiftLeft_add_eq_or_of_lt (BitVec.isLt _), hbits]
    simp only [BitVec.toNat_ofNat, Nat.shiftLeft_eq]
    omega
  · push_cast
    omega

/-- A number whose exponent is not too large comes back from its bits. -/
theorem unpack_pack {hm : 0 < m} (h : Denotes (.finite sign m e hm) r) (he : e < 105) :
    UnpackedFloat.unpack .binary32 (UnpackedFloat.pack .binary32 (.finite sign m e hm)) =
      .finite sign m e hm := by
  obtain ⟨hlt, hleast, hdigits, -⟩ := h
  rcases Nat.lt_or_ge m (2 ^ 23) with hsub | hnormal
  · obtain rfl := hdigits.resolve_right hsub.not_ge
    exact unpack_pack_subnormal hsub
  · exact unpack_pack_normal hnormal hlt hleast he

/-- A number beyond the range is packed as an infinity. -/
theorem unpack_pack_infinity {hm : 0 < m} (he : 105 ≤ e) :
    UnpackedFloat.unpack .binary32 (UnpackedFloat.pack .binary32 (.finite sign m e hm)) =
      .infinity sign := by
  have hbias : (Format.binary32.exponentBias : ℤ) = 127 := by decide
  rw [UnpackedFloat.pack]
  simp only [hbias]
  rw [if_pos (by norm_num; omega), packedInfinity, UnpackedFloat.unpack]
  simp

/-- Without the sign, a finite float is its mantissa at its exponent. -/
theorem abs_eq_of_denotes {hm : 0 < m} (h : Denotes (.finite sign m e hm) r) : |r| = m * 2 ^ e := by
  obtain ⟨-, -, -, rfl⟩ := h
  rw [abs_signed, abs_of_pos (mul_pos (by exact_mod_cast hm) (two_zpow_pos e))]

/-- A canonical number comes back from its bits, unless it is so great that an infinity does. -/
theorem Denotes.unpack_pack (h : Denotes f r) :
    (|r| < 2 ^ 128 ∧
        Denotes (UnpackedFloat.unpack .binary32 (UnpackedFloat.pack .binary32 f)) r) ∨
      2 ^ 128 ≤ |r| ∧ ∃ sign, r = signed sign |r| ∧
        UnpackedFloat.unpack .binary32 (UnpackedFloat.pack .binary32 f) = .infinity sign := by
  obtain ⟨sign, rfl, rfl⟩ | ⟨sign, m, e, hm, rfl, hlt, -, hdigits, hvalue⟩ := h.zero_or_finite
  · have hunpack : UnpackedFloat.unpack .binary32 (UnpackedFloat.pack .binary32 (.zero sign)) =
        .zero sign := unpack_packedZero
    exact .inl ⟨by norm_num, by rw [hunpack]; rfl⟩
  have habs := abs_eq_of_denotes h
  have hpos := two_zpow_pos e
  rcases lt_or_ge e 105 with he | he
  -- 24 digits at such an exponent stay below the end of the range
  · refine .inl ⟨?_, by rw [Binary32.unpack_pack h he]; exact h⟩
    calc |r|
      _ < 2 ^ 24 * 2 ^ e := by
          rw [habs]
          gcongr
          exact_mod_cast hlt
      _ ≤ 2 ^ 24 * 2 ^ (104 : ℤ) := by
          gcongr
          · exact one_le_two
          · omega
      _ = 2 ^ 128 := by norm_num
  -- and all 24 of them at a greater one do not
  · have hdigits := hdigits.resolve_left (by omega)
    refine .inr ⟨?_, sign, by rw [habs, hvalue], unpack_pack_infinity he⟩
    calc (2 : ℚ) ^ 128
      _ = 2 ^ 23 * 2 ^ (105 : ℤ) := by norm_num
      _ ≤ m * 2 ^ e := by
          gcongr
          · exact_mod_cast hdigits
          · exact one_le_two
      _ = |r| := habs.symm

/-! ## Comparing -/

/-- The greater exponent belongs to the greater number, whose mantissa has all digits. -/
theorem lt_of_exponent_lt {m' : ℕ} {e' : ℤ} {hm : 0 < m} {hm' : 0 < m'}
    (hf : Denotes (.finite .positive m e hm) r) (hg : Denotes (.finite .positive m' e' hm') s)
    (h : e < e') : r < s := by
  obtain ⟨hlt, hleast, -, rfl⟩ := hf
  obtain ⟨-, -, hdigits, rfl⟩ := hg
  have hdigits := hdigits.resolve_left (by omega)
  have hpos := two_zpow_pos e
  calc (m * 2 ^ e : ℚ)
    _ < 2 ^ 24 * 2 ^ e := by
        gcongr
        exact_mod_cast hlt
    _ = 2 ^ 23 * 2 ^ (e + 1) := by
        rw [zpow_add₀ two_ne_zero]
        ring
    _ ≤ m' * 2 ^ e' := by
        gcongr
        · exact_mod_cast hdigits
        · exact one_le_two
        · omega

/-- Canonical numbers are compared by exponent, then by mantissa. -/
theorem compare_magnitude {m' : ℕ} {e' : ℤ} {hm : 0 < m} {hm' : 0 < m'}
    (hf : Denotes (.finite .positive m e hm) r) (hg : Denotes (.finite .positive m' e' hm') s) :
    (compare e e').then (compare m m') = compare r s := by
  rcases lt_trichotomy e e' with h | rfl | h
  · rw [compare_lt_iff_lt.mpr h, compare_lt_iff_lt.mpr (lt_of_exponent_lt hf hg h)]
    rfl
  -- at the same exponent the mantissas decide
  · have hpos := two_zpow_pos e
    obtain ⟨-, -, -, rfl⟩ := hf
    obtain ⟨-, -, -, rfl⟩ := hg
    rw [compare_eq_iff_eq.mpr rfl]
    rcases lt_trichotomy m m' with h | rfl | h
    · have : signed .positive (m * 2 ^ e) < signed .positive (m' * 2 ^ e) :=
        mul_lt_mul_of_pos_right (by exact_mod_cast h) hpos
      rw [compare_lt_iff_lt.mpr h, compare_lt_iff_lt.mpr this]
      rfl
    · rw [compare_eq_iff_eq.mpr rfl, compare_eq_iff_eq.mpr rfl]
      rfl
    · have : signed .positive (m' * 2 ^ e) < signed .positive (m * 2 ^ e) :=
        mul_lt_mul_of_pos_right (by exact_mod_cast h) hpos
      rw [compare_gt_iff_gt.mpr h, compare_gt_iff_gt.mpr this]
      rfl
  · rw [compare_gt_iff_gt.mpr h, compare_gt_iff_gt.mpr (lt_of_exponent_lt hg hf h)]
    rfl

theorem swap_compare_neg (r s : ℚ) : (compare (-r) (-s)).swap = compare r s := by
  rcases lt_trichotomy r s with h | rfl | h
  · rw [compare_lt_iff_lt.mpr h, compare_gt_iff_gt.mpr (neg_lt_neg h)]
    rfl
  · rw [compare_eq_iff_eq.mpr rfl, compare_eq_iff_eq.mpr rfl]
    rfl
  · rw [compare_gt_iff_gt.mpr h, compare_lt_iff_lt.mpr (neg_lt_neg h)]
    rfl

theorem pos_of_positive {hm : 0 < m} (h : Denotes (.finite .positive m e hm) r) : 0 < r := by
  rw [h.2.2.2]
  exact mul_pos (by exact_mod_cast hm) (two_zpow_pos e)

theorem neg_of_negative {hm : 0 < m} (h : Denotes (.finite .negative m e hm) r) : r < 0 :=
  neg_pos.mp (pos_of_positive h.neg)

/-- Signs come first; below zero the greater magnitude is the lesser number. -/
theorem compare_eq (hf : Denotes f r) (hg : Denotes g s) : f.compare g = some (compare r s) := by
  obtain ⟨sign, rfl, rfl⟩ | ⟨sign, m, e, hm, rfl, -⟩ := hf.zero_or_finite
  · obtain ⟨sign', rfl, rfl⟩ | ⟨sign', m', e', hm', rfl, -⟩ := hg.zero_or_finite
    · rfl
    cases sign' with
    | positive => rw [compare_lt_iff_lt.mpr (pos_of_positive hg)]; rfl
    | negative => rw [compare_gt_iff_gt.mpr (neg_of_negative hg)]; rfl
  · obtain ⟨sign', rfl, rfl⟩ | ⟨sign', m', e', hm', rfl, -⟩ := hg.zero_or_finite
    · cases sign with
      | positive => rw [compare_gt_iff_gt.mpr (pos_of_positive hf)]; rfl
      | negative => rw [compare_lt_iff_lt.mpr (neg_of_negative hf)]; rfl
    cases sign with
    | positive =>
      cases sign' with
      | positive => exact congrArg some (compare_magnitude hf hg)
      | negative =>
        rw [compare_gt_iff_gt.mpr ((neg_of_negative hg).trans (pos_of_positive hf))]; rfl
    | negative =>
      cases sign' with
      | positive =>
        rw [compare_lt_iff_lt.mpr ((neg_of_negative hf).trans (pos_of_positive hg))]; rfl
      -- both are negative: their opposites compare the other way round
      | negative =>
        rw [← swap_compare_neg, ← compare_magnitude hf.neg hg.neg]
        rfl

end InfixCalculator.Binary32
