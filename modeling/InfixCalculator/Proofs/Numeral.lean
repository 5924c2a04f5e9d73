import InfixCalculator.Proofs.Arithmetic
import InfixCalculator.Proofs.Decimal
import Mathlib.Tactic.FieldSimp

/-!
# What numerals denote

A numeral denotes a rational number, `Numeral.number`: a digit before the point makes ten times the
number of those before it and adds to it, and behind the point each place is worth a tenth of the
one before. The value of a numeral is this number rounded, however many digits it has:
`Numeral.value_nearest`.
-/

namespace InfixCalculator.Numeral

open Binary64

/-- The number that a digit is. -/
def digit (c : Char) : ℕ :=
  c.toNat - '0'.toNat

/-- The part of one that the digits behind a point are. -/
def part : List Char → ℚ
  | [] => 0
  | c :: rest => (digit c + part rest) / 10

/-- The number that a text denotes which follows the digits of another number. -/
def numberFrom (before : ℚ) : List Char → ℚ
  | [] => before
  | c :: rest => if c = '.' then before + part rest else numberFrom (10 * before + digit c) rest

/-- The number that a numeral denotes. -/
def number (text : List Char) : ℚ :=
  numberFrom 0 text

/-- The digits behind the point are a natural number divided by a power of ten. -/
theorem part_eq (text : List Char) :
    part text = Nat.ofDigitChars 10 text 0 / 10 ^ text.length := by
  induction text with
  | nil => simp [part]
  | cons c rest ih =>
    have hdigits : Nat.ofDigitChars 10 (c :: rest) 0 =
        10 ^ rest.length * digit c + Nat.ofDigitChars 10 rest 0 := by
      rw [Nat.ofDigitChars_cons, Nat.mul_zero, Nat.zero_add,
        Nat.ofDigitChars_eq_ofDigitChars_zero, digit]
    rw [part, ih, hdigits, List.length_cons, pow_succ]
    push_cast
    field_simp

/-- What stands before the point goes on from what was read earlier. -/
theorem numberFrom_eq (text : List Char) (before : ℕ) :
    numberFrom before text = Nat.ofDigitChars 10 (whole text) before + part (fraction text) := by
  induction text generalizing before with
  | nil => simp [numberFrom, whole, fraction, part]
  | cons c rest ih =>
    rw [numberFrom]
    by_cases hc : c = '.'
    · rw [if_pos hc, whole, fraction, hc]
      simp
    · -- a digit goes on with the number before the point
      have hstep := ih (10 * before + digit c)
      push_cast at hstep
      rw [if_neg hc, hstep, whole, whole, fraction, fraction, List.takeWhile_cons_of_pos (by simpa),
        List.dropWhile_cons_of_pos (by simpa), Nat.ofDigitChars_cons, digit]

/-- The digits before and behind the point, read as one natural number, and the place of the
last. -/
theorem toRat_decimal (text : List Char) : (decimal text).toRat = number text := by
  have hzero := numberFrom_eq text 0
  rw [Nat.cast_zero] at hzero
  rw [number, hzero, part_eq, Decimal.toRat, decimal, Nat.ofDigitChars_append,
    Nat.ofDigitChars_eq_ofDigitChars_zero]
  simp only [zpow_neg, zpow_natCast]
  push_cast
  field_simp

/-- A numeral denotes a number if it has a digit. -/
theorem denotes_iff {text : List Char} :
    denotes text ↔
      (∀ c ∈ text, c.isDigit ∨ c = '.') ∧ text.count '.' ≤ 1 ∧ ∃ c ∈ text, c.isDigit := by
  have hchars : (∀ c ∈ text, isNumeralChar c) ↔ ∀ c ∈ text, c.isDigit ∨ c = '.' := by
    simp only [isNumeralChar, Bool.or_eq_true, decide_eq_true_iff]
  rw [denotes, Bool.and_eq_true, isNumeral_iff, hchars, List.any_eq_true, and_assoc, and_assoc]
  refine and_iff_right_of_imp ?_
  rintro ⟨-, -, c, hc, -⟩
  exact List.ne_nil_of_mem hc

/-! ## Numerals with a point -/

section Point

variable {front back : List Char}

/-- The first point ends the part before it. -/
theorem whole_append_point (h : '.' ∉ front) (back : List Char) :
    whole (front ++ '.' :: back) = front := by
  have hne : ∀ c ∈ front, decide (c ≠ '.') := fun c hc =>
    decide_eq_true (ne_of_mem_of_not_mem hc h)
  rw [whole, List.takeWhile_append_of_pos hne, List.takeWhile_cons_of_neg (by simp),
    List.append_nil]

theorem fraction_append_point (h : '.' ∉ front) (back : List Char) :
    fraction (front ++ '.' :: back) = back := by
  have hne : ∀ c ∈ front, decide (c ≠ '.') := fun c hc =>
    decide_eq_true (ne_of_mem_of_not_mem hc h)
  rw [fraction, List.dropWhile_append_of_pos hne, List.dropWhile_cons_of_neg (by simp),
    List.drop_one, List.tail_cons]

theorem point_notMem (h : ∀ c ∈ front, c.isDigit) : '.' ∉ front :=
  fun hdot => absurd (h '.' hdot) (by decide)

/-- Digits before a point are enough. -/
theorem denotes_append_point (hfront : ∀ c ∈ front, c.isDigit) (hback : ∀ c ∈ back, c.isDigit)
    (hne : front ≠ []) : denotes (front ++ '.' :: back) := by
  obtain ⟨c, hc⟩ := List.exists_mem_of_ne_nil front hne
  refine denotes_iff.mpr ⟨?_, ?_, c, List.mem_append_left _ hc, hfront c hc⟩
  · intro c hc
    rcases List.mem_append.mp hc with hc | hc
    · exact .inl (hfront c hc)
    · exact (List.mem_cons.mp hc).symm.imp_left (hback c)
  · rw [List.count_append, List.count_cons_self, List.count_eq_zero.mpr (point_notMem hfront),
      List.count_eq_zero.mpr (point_notMem hback)]

end Point

/-! ## The value -/

/-- A text has a value if it denotes a number, and then the float of its decimal is the value. -/
theorem value_eq_ok_iff {text : String} {x : Float} :
    value text = .ok x ↔ denotes text.toList ∧ toFloat (decimal text.toList).magnitude = x := by
  unfold value
  split <;> simp [*]

/-- A text has a value if it consists of digits, one at least, and of no more than one point; it is
refused otherwise. The value is the number that the text denotes, rounded to the nearest float, and
has no negative sign: a number too small becomes the positive zero, and one too large the positive
infinity. -/
theorem value_nearest (text : String) :
    ((∃ x, value text = .ok x) ↔
        (∀ c ∈ text.toList, c.isDigit ∨ c = '.') ∧ text.toList.count '.' ≤ 1 ∧
          ∃ c ∈ text.toList, c.isDigit) ∧
      (∀ x, value text = .ok x → RoundsTo (number text.toList) x ∧ ¬ isNegative x) ∧
      ∀ error, value text = .error error → error = .invalidNumeral text := by
  refine ⟨?_, fun x hvalue => ?_, fun error hvalue => ?_⟩
  · simp only [value_eq_ok_iff, exists_and_left, exists_eq', and_true]
    exact denotes_iff
  · obtain ⟨-, rfl⟩ := value_eq_ok_iff.mp hvalue
    rw [← toRat_decimal]
    refine ⟨Decimal.roundsTo_toFloat _, ?_⟩
    rw [isNegative_toFloat (Decimal.isNearest_magnitude _).le]
    exact Bool.false_ne_true
  · exact (value_eq_error_iff.mp hvalue).2

/-- The numeral lies in the middle between two floats, and the even one is below. -/
theorem value_nearest_middle :
    value "9007199254740993." = .ok (toFloat 0x4340000000000000) ∧
      RoundsTo (number "9007199254740993.".toList) (toFloat 0x4340000000000000) ∧
        ¬ isNegative (toFloat 0x4340000000000000) := by
  have hvalue : value "9007199254740993." = .ok (toFloat 0x4340000000000000) := by decide +kernel
  exact ⟨hvalue, (value_nearest "9007199254740993.").2.1 _ hvalue⟩

end InfixCalculator.Numeral
