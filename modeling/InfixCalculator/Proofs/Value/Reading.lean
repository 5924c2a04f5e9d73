import InfixCalculator.Proofs.Calculation
import InfixCalculator.Proofs.Value.Display

/-!
# Results as expressions

The text of a result that is not below zero is a numeral, and as an expression it has that result:
`Value.display_reads_back`. A result below zero is displayed like its opposite, with a sign in
front, which no numeral has. So the text tells the results apart, but for the two zeros, and for
what is not a number.
-/

namespace InfixCalculator.Value

open Binary64

variable {x y : Float} {m : ℕ}

/-! ## Without a sign -/

theorem not_lt_zero_of_zero_le (h : x.isFinite) (hx : 0 ≤ x) : ¬ x < 0 := by
  rw [lt_zero_iff h]
  rintro ⟨hsign, hne⟩
  rcases (zero_le_iff h).mp hx with hpositive | hzero
  · exact Bool.false_ne_true (hpositive.symm.trans hsign)
  · exact hne hzero

/-- No sign is displayed of a number that is at least zero. -/
theorem display_of_zero_le (h : x.isFinite) (hx : 0 ≤ x) :
    display x = (displayed (magnitude x)).toPlain := by
  have htext := toList_display h
  rw [if_neg (not_lt_zero_of_zero_le h hx), List.nil_append] at htext
  exact String.toList_inj.mp htext

/-- The displayed decimal of a magnitude reads back as the magnitude, whether it is an integer or
the shortest decimal. -/
theorem value_displayed (hm : m < infinityMagnitude) :
    Numeral.value (displayed m).toPlain = .ok (toFloat m) := by
  rw [Decimal.value_toPlain (exponent_displayed_neg hm), magnitude_displayed hm]

/-- A finite float equals zero if it has no magnitude. -/
theorem beq_zero_iff_magnitude (h : x.isFinite) : x == 0 ↔ magnitude x = 0 := by
  rw [beq_zero_iff, ofFloat_of_isFinite h]
  simp

/-- A float that is not below zero has the bits of its magnitude, but for the sign of zero. -/
theorem toBits_toFloat_magnitude (h : x.isFinite) (hx : 0 ≤ x) :
    (toFloat (magnitude x)).toBits = if x == 0 then (0 : Float).toBits else x.toBits := by
  have hm := (isFinite_iff.mp h).le
  by_cases hzero : magnitude x = 0
  · rw [if_pos ((beq_zero_iff_magnitude h).mpr hzero), hzero]
    decide +kernel
  · have hsign := ((zero_le_iff h).mp hx).resolve_right hzero
    have hfloat : toFloat (magnitude x) = x :=
      eq_of_magnitude_eq ((isNegative_toFloat hm).trans hsign.symm) (magnitude_toFloat hm)
    rw [if_neg ((beq_zero_iff_magnitude h).not.mpr hzero), hfloat]

/-- A numeral as an expression. -/
theorem evaluate_numeral {text : String} {value : Float} (h : Numeral.value text = .ok value) :
    ∃ calculation, evaluate text = .ok calculation ∧ calculation.tree = .leaf text ∧
      calculation.value = value := by
  obtain ⟨hdenotes, -⟩ := Numeral.value_eq_ok_iff.mp h
  rw [Numeral.denotes, Bool.and_eq_true] at hdenotes
  have heval : (Tree.leaf text).eval = .ok value := by
    rw [Tree.eval_eq_fold]
    exact h
  have hprint := evaluate_print (.leaf hdenotes.1) heval
  rw [Tree.print_leaf] at hprint
  exact ⟨_, hprint, rfl, rfl⟩

/-! ## With a sign -/

/-- A negative number is displayed as its opposite with a minus sign. -/
theorem display_neg (h : x.isFinite) (hx : x < 0) : display x = "-" ++ display (-x) := by
  have hm := isFinite_iff.mp h
  have hopposite : -x = toFloat (magnitude x) := neg_eq_toFloat h ((lt_zero_iff h).mp hx).1
  have hfinite : (toFloat (magnitude x)).isFinite := by
    rwa [isFinite_iff, magnitude_toFloat hm.le]
  have hnonneg : 0 ≤ toFloat (magnitude x) :=
    (zero_le_iff hfinite).mpr (.inl (isNegative_toFloat hm.le))
  rw [hopposite, display_of_zero_le hfinite hnonneg, magnitude_toFloat hm.le, ← String.toList_inj,
    toList_display h, if_pos hx, String.toList_append]
  rfl

/-! ## Telling results apart -/

/-- A float is finite, infinite or not a number. -/
theorem display_cases (x : Float) :
    (x.isFinite ∧ '.' ∈ (display x).toList) ∨
      (magnitude x = infinityMagnitude ∧ display x = sign (isNegative x) ++ "Infinity") ∨
        (x.isNaN ∧ display x = "NaN") := by
  by_cases hfinite : x.isFinite
  · refine .inl ⟨hfinite, ?_⟩
    rw [toList_display hfinite,
      Decimal.toList_toPlain (exponent_displayed_neg (isFinite_iff.mp hfinite))]
    simp
  by_cases hnan : x.isNaN
  · refine .inr (.inr ⟨hnan, ?_⟩)
    rw [isFinite_iff] at hfinite
    rw [isNaN_iff] at hnan
    rw [display, ofFloat_eq, if_neg hfinite, if_neg hnan.ne']
  · rw [isFinite_iff] at hfinite
    rw [isNaN_iff] at hnan
    have hinfinity : magnitude x = infinityMagnitude := by omega
    refine .inr (.inl ⟨hinfinity, ?_⟩)
    rw [display, ofFloat_eq, if_neg hfinite, if_pos hinfinity]

/-- The minus sign tells negative numbers from all others. -/
theorem minus_mem_display_iff (h : x.isFinite) : '-' ∈ (display x).toList ↔ x < 0 := by
  have hnumeral : '-' ∉ (displayed (magnitude x)).toPlain.toList := by
    intro hmem
    have hdenotes := Decimal.denotes_toPlain (exponent_displayed_neg (isFinite_iff.mp h))
    exact absurd ((Numeral.denotes_iff.mp hdenotes).1 '-' hmem) (by decide)
  rw [toList_display h, List.mem_append, or_iff_left hnumeral]
  split
  · simp [*]
  · simp [*]

/-- The sign can be seen in the text, and the magnitude is read back from the rest; only the zeros
share their text. -/
theorem display_inj_of_isFinite (hx : x.isFinite) (hy : y.isFinite) (h : display x = display y) :
    x.toBits = y.toBits ∨ (x == 0 ∧ y == 0) := by
  have hsign : x < 0 ↔ y < 0 := by
    rw [← minus_mem_display_iff hx, ← minus_mem_display_iff hy, h]
  have htext : (displayed (magnitude x)).toPlain = (displayed (magnitude y)).toPlain := by
    have htexts := congrArg String.toList h
    rw [toList_display hx, toList_display hy, if_congr hsign rfl rfl] at htexts
    exact String.toList_inj.mp (List.append_cancel_left htexts)
  have hvalue : Except.ok (ε := CalcError) (toFloat (magnitude x)) =
      .ok (toFloat (magnitude y)) := by
    rw [← value_displayed (isFinite_iff.mp hx), htext, value_displayed (isFinite_iff.mp hy)]
  have hmagnitude : magnitude x = magnitude y := by
    rw [← magnitude_toFloat (isFinite_iff.mp hx).le, Except.ok.inj hvalue,
      magnitude_toFloat (isFinite_iff.mp hy).le]
  by_cases hzero : magnitude x = 0
  · exact .inr ⟨(beq_zero_iff_magnitude hx).mpr hzero,
      (beq_zero_iff_magnitude hy).mpr (hmagnitude ▸ hzero)⟩
  · rw [lt_zero_iff hx, lt_zero_iff hy, and_iff_left hzero, and_iff_left (hmagnitude ▸ hzero),
      ← Bool.eq_iff_iff] at hsign
    exact .inl (congrArg Float.toBits (eq_of_magnitude_eq hsign hmagnitude))

theorem point_notMem_infinity (negative : Bool) : '.' ∉ (sign negative ++ "Infinity").toList := by
  cases negative <;> decide

theorem infinity_ne_nan (negative : Bool) : sign negative ++ "Infinity" ≠ "NaN" := by
  cases negative <;> decide

theorem infinity_inj {negative negative' : Bool}
    (h : sign negative ++ "Infinity" = sign negative' ++ "Infinity") : negative = negative' := by
  revert negative negative'
  decide

/-- Only the two zeros share a text, and the floats that are not a number. -/
theorem display_inj (h : display x = display y) :
    x.toBits = y.toBits ∨ (x == 0 ∧ y == 0) ∨ (x.isNaN ∧ y.isNaN) := by
  rcases display_cases x with ⟨hx, hpoint⟩ | ⟨hx, hxtext⟩ | ⟨hx, hxtext⟩
  · -- only the texts of finite floats have a point
    rcases display_cases y with ⟨hy, -⟩ | ⟨-, hytext⟩ | ⟨-, hytext⟩
    · exact (display_inj_of_isFinite hx hy h).imp_right .inl
    · rw [h, hytext] at hpoint
      exact absurd hpoint (point_notMem_infinity _)
    · rw [h, hytext] at hpoint
      exact absurd hpoint (by decide)
  · rw [hxtext] at h
    rcases display_cases y with ⟨-, hpoint⟩ | ⟨hy, hytext⟩ | ⟨-, hytext⟩
    · rw [← h] at hpoint
      exact absurd hpoint (point_notMem_infinity _)
    · have hsign := infinity_inj (h.trans hytext)
      exact .inl (congrArg Float.toBits (eq_of_magnitude_eq hsign (hx.trans hy.symm)))
    · exact absurd (h.trans hytext) (infinity_ne_nan _)
  · rw [hxtext] at h
    rcases display_cases y with ⟨-, hpoint⟩ | ⟨-, hytext⟩ | ⟨hy, -⟩
    · rw [← h] at hpoint
      exact absurd hpoint (by decide)
    · exact absurd (h.trans hytext).symm (infinity_ne_nan _)
    · exact .inr (.inr ⟨hx, hy⟩)

/-- A result that is not below zero has a text that is read as one numeral with the very bits of the
result, zero having no sign; a result below zero is displayed like its opposite behind a minus sign.
Two results have one text only if they have the same bits, or both are zero, or both are not a
number. -/
theorem display_reads_back :
    (∀ x : Float, x.isFinite → 0 ≤ x →
        ∃ calculation, evaluate (display x) = .ok calculation ∧
          calculation.tree = .leaf (display x) ∧
          calculation.value.toBits = if x == 0 then (0 : Float).toBits else x.toBits) ∧
      (∀ x : Float, x.isFinite → x < 0 → display x = "-" ++ display (-x)) ∧
      ∀ x y : Float, display x = display y →
        x.toBits = y.toBits ∨ (x == 0 ∧ y == 0) ∨ (x.isNaN ∧ y.isNaN) := by
  refine ⟨fun x h hx => ?_, fun x h hx => display_neg h hx, fun x y h => display_inj h⟩
  have hvalue := value_displayed (isFinite_iff.mp h)
  rw [← display_of_zero_le h hx] at hvalue
  obtain ⟨calculation, hevaluate, htree, hcalculated⟩ := evaluate_numeral hvalue
  refine ⟨calculation, hevaluate, htree, ?_⟩
  rw [hcalculated]
  exact toBits_toFloat_magnitude h hx

/-- A float halfway between the two decimals nearest to it, of which the upper one is displayed. -/
theorem display_reads_back_halfway :
    let x := toFloat 0x430C6BF526340002
    x.isFinite ∧ 0 ≤ x ∧ display x = "1000000000000000.3" ∧
      ∃ calculation, evaluate (display x) = .ok calculation ∧
        calculation.tree = .leaf (display x) ∧
        calculation.value.toBits = if x == 0 then (0 : Float).toBits else x.toBits := by
  intro x
  have hfinite : x.isFinite := by decide +kernel
  have hnonneg : 0 ≤ x := by decide +kernel
  have htext : display x = "1000000000000000.3" := by decide +kernel
  exact ⟨hfinite, hnonneg, htext, display_reads_back.1 x hfinite hnonneg⟩

end InfixCalculator.Value
