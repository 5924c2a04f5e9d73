import InfixCalculator.Arithmetic
import InfixCalculator.Proofs.Binary64.Rational
import InfixCalculator.Proofs.Conversion
import InfixCalculator.Proofs.Tree.RoundTrip

/-!
# Trees without a value

A tree of numerals and the five operators fails to have a value for two reasons only: one of its
leaves is the point alone, or it divides by zero (`Tree.WellFormed.fold_eq_error`). Where every leaf
denotes a number the second one remains, and it applies exactly if some division in the tree has a
right operand with the value zero: `Tree.fold_eq_divisionByZero_iff`.
-/

namespace InfixCalculator

namespace Numeral

theorem value_eq_error_iff {text : String} {error : CalcError} :
    value text = .error error ↔ ¬ denotes text.toList ∧ error = .invalidNumeral text := by
  rw [value]
  split
  case isTrue h => simp [h]
  case isFalse h => simp [h, eq_comm]

/-- The point alone is the only numeral that denotes no number. -/
theorem eq_point_of_not_denotes {text : List Char} (h : isNumeral text) (hvalue : ¬ denotes text) :
    text = ['.'] := by
  obtain ⟨hne, hchars, hpoints⟩ := isNumeral_iff.mp h
  have hdigits : ∀ c ∈ text, ¬ c.isDigit := by simpa [denotes, h] using hvalue
  -- every character is a point, and there is only one
  have hall : ∀ c ∈ text, c = '.' := by
    intro c hc
    have hchar := hchars c hc
    have hdigit := hdigits c hc
    simpa [isNumeralChar, hdigit] using hchar
  obtain ⟨length, rfl⟩ : ∃ length, text = List.replicate length '.' :=
    ⟨text.length, List.eq_replicate_iff.mpr ⟨rfl, hall⟩⟩
  rw [List.count_replicate_self] at hpoints
  have hlength : length ≠ 0 := by
    rintro rfl
    exact hne rfl
  obtain rfl : length = 1 := by omega
  rfl

end Numeral

namespace Operator

variable {op : Operator} {x y : Float} {error : CalcError}

theorem apply_eq_error_iff :
    op.apply x y = .error error ↔ op = .divide ∧ y == 0 ∧ error = .divisionByZero := by
  cases op with
  | divide =>
    rw [apply]
    split
    case isTrue h => simp [h, eq_comm]
    case isFalse h => simp [h]
  | _ => simp [apply]

theorem operation_arithmetic (op : Operator) (x y : Float) :
    arithmetic.operation op.text x y = op.apply x y :=
  Fallible.bind_of_ok (ofText_text op) _

end Operator

namespace Tree

variable {α : Type} {meaning : Interpretation α} {symbol : String} {left right tree : Tree}
  {error : CalcError}

/-- The operands are evaluated before the operation, the left one first. -/
theorem fold_node_eq_error_iff :
    (node symbol left right).fold meaning = .error error ↔
      left.fold meaning = .error error ∨
        ∃ x, left.fold meaning = .ok x ∧
          (right.fold meaning = .error error ∨
            ∃ y, right.fold meaning = .ok y ∧ meaning.operation symbol x y = .error error) := by
  rw [fold, Fallible.bind_eq_error_iff]
  simp only [Fallible.bind_eq_error_iff]

theorem fold_node_eq_ok_iff {value : α} :
    (node symbol left right).fold meaning = .ok value ↔
      ∃ x, left.fold meaning = .ok x ∧ ∃ y, right.fold meaning = .ok y ∧
        meaning.operation symbol x y = .ok value := by
  rw [fold, Fallible.bind_eq_ok_iff]
  simp only [Fallible.bind_eq_ok_iff]

/-- A tree without a value has a leaf that denotes no number, or it divides by zero. -/
theorem WellFormed.fold_eq_error (h : tree.WellFormed)
    (herror : tree.fold arithmetic = .error error) :
    error = .divisionByZero ∨
      ∃ text, .number text ∈ tree.postorder ∧ ¬ Numeral.denotes text.toList ∧
        error = .invalidNumeral text := by
  induction h with
  | @leaf text _ =>
    obtain ⟨hvalue, rfl⟩ := Numeral.value_eq_error_iff.mp herror
    exact .inr ⟨text, by simp, hvalue, rfl⟩
  | node op _ _ ihl ihr =>
    rcases fold_node_eq_error_iff.mp herror with hleft | ⟨x, -, hright | ⟨y, -, hop⟩⟩
    · refine (ihl hleft).imp_right ?_
      rintro ⟨text, hmem, hvalue⟩
      exact ⟨text, by simp [hmem], hvalue⟩
    · refine (ihr hright).imp_right ?_
      rintro ⟨text, hmem, hvalue⟩
      exact ⟨text, by simp [hmem], hvalue⟩
    · rw [Operator.operation_arithmetic, Operator.apply_eq_error_iff] at hop
      exact .inl hop.2.2

/-! ## Division by zero -/

/-- The tree is the whole or one of its parts. -/
inductive Occurs (part : Tree) : Tree → Prop
  | whole : Occurs part part
  | left {symbol : String} {left right : Tree} :
      Occurs part left → Occurs part (node symbol left right)
  | right {symbol : String} {left right : Tree} :
      Occurs part right → Occurs part (node symbol left right)

/-- Every part of a tree with a value has a value. -/
theorem Occurs.exists_fold_eq_ok {part : Tree} {value : α} (h : Occurs part tree)
    (hvalue : tree.fold meaning = .ok value) : ∃ value', part.fold meaning = .ok value' := by
  induction h generalizing value with
  | whole => exact ⟨value, hvalue⟩
  | left _ ih =>
    obtain ⟨x, hx, -⟩ := fold_node_eq_ok_iff.mp hvalue
    exact ih hx
  | right _ ih =>
    obtain ⟨-, -, y, hy, -⟩ := fold_node_eq_ok_iff.mp hvalue
    exact ih hy

/-- Some division in the tree has a right operand whose value is a zero, of either sign. -/
def DividesByZero (tree : Tree) : Prop :=
  ∃ left right value negative, Occurs (node "/" left right) tree ∧
    right.fold arithmetic = .ok value ∧ Binary64.ofFloat value = .finite negative 0

theorem DividesByZero.of_left (h : DividesByZero left) :
    DividesByZero (node symbol left right) := by
  obtain ⟨left', right', value, negative, hoccurs, hzero⟩ := h
  exact ⟨left', right', value, negative, hoccurs.left, hzero⟩

theorem DividesByZero.of_right (h : DividesByZero right) :
    DividesByZero (node symbol left right) := by
  obtain ⟨left', right', value, negative, hoccurs, hzero⟩ := h
  exact ⟨left', right', value, negative, hoccurs.right, hzero⟩

/-- No tree that divides by zero has a value, whatever else it contains. -/
theorem DividesByZero.fold_ne_ok (h : DividesByZero tree) (value : Float) :
    tree.fold arithmetic ≠ .ok value := by
  intro hvalue
  obtain ⟨left, right, divisor, negative, hoccurs, hdivisor, hzero⟩ := h
  obtain ⟨quotient, hquotient⟩ := hoccurs.exists_fold_eq_ok hvalue
  obtain ⟨x, -, y, hy, hop⟩ := fold_node_eq_ok_iff.mp hquotient
  obtain rfl : divisor = y := Except.ok.inj (hdivisor.symm.trans hy)
  have hfails : Operator.divide.apply x divisor = .error .divisionByZero :=
    Operator.apply_eq_error_iff.mpr
      ⟨rfl, Binary64.beq_zero_iff.mpr ⟨negative, hzero⟩, rfl⟩
  rw [← Operator.operation_arithmetic] at hfails
  cases hfails.symm.trans hop

theorem dividesByZero_of_fold (h : tree.WellFormed)
    (herror : tree.fold arithmetic = .error .divisionByZero) : DividesByZero tree := by
  induction h with
  | leaf => cases (Numeral.value_eq_error_iff.mp herror).2
  | @node op left right _ _ ihl ihr =>
    rcases fold_node_eq_error_iff.mp herror with hleft | ⟨x, -, hright | ⟨y, hy, hop⟩⟩
    · exact (ihl hleft).of_left
    · exact (ihr hright).of_right
    · rw [Operator.operation_arithmetic, Operator.apply_eq_error_iff] at hop
      obtain ⟨rfl, hzero, -⟩ := hop
      obtain ⟨negative, hnegative⟩ := Binary64.beq_zero_iff.mp hzero
      exact ⟨left, right, y, negative, .whole, hy, hnegative⟩

/-- Where every leaf denotes a number, a tree has a value or fails with a division by zero. -/
theorem fold_eq_ok_or_divisionByZero (h : tree.WellFormed)
    (hleaves : ∀ text, .number text ∈ tree.postorder → Numeral.denotes text.toList) :
    (∃ value, tree.fold arithmetic = .ok value) ∨
      tree.fold arithmetic = .error .divisionByZero := by
  cases hfold : tree.fold arithmetic with
  | ok value => exact .inl ⟨value, rfl⟩
  | error error =>
    rcases h.fold_eq_error hfold with rfl | ⟨text, hmem, hvalue, -⟩
    · exact .inr rfl
    · exact absurd (hleaves text hmem) hvalue

/-- A division by zero anywhere in the tree is what the tree fails with, and nothing else is. -/
theorem fold_eq_divisionByZero_iff (h : tree.WellFormed)
    (hleaves : ∀ text, .number text ∈ tree.postorder → Numeral.denotes text.toList) :
    tree.fold arithmetic = .error .divisionByZero ↔ DividesByZero tree := by
  refine ⟨dividesByZero_of_fold h, fun hzero => ?_⟩
  rcases fold_eq_ok_or_divisionByZero h hleaves with ⟨value, hvalue⟩ | herror
  · exact absurd hvalue (hzero.fold_ne_ok value)
  · exact herror

end Tree

end InfixCalculator
