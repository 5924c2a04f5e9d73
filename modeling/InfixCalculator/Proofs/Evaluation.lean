import InfixCalculator.Proofs.Arithmetic

/-!
# The value of a tree by recursion

`Tree.value` says without any stack what a tree is worth: a leaf what its text denotes, an operation
what its symbol makes of the values of its two operands. Evaluating a tree comes to the same for all
trees, whatever stands at their leaves and operations (`Tree.eval_eq_value`): a value is the same,
and among several failures it is the same one that is reported. The two stacks of the evaluation
never run out of values, so the errors that would report it do not occur.
-/

namespace InfixCalculator.Tree

/-- The value of an operation with known operands, given its symbol. -/
def operationValue (symbol : String) (x y : Float) : Except CalcError Float :=
  match symbol with
  | "+" => .ok (x + y)
  | "-" => .ok (x - y)
  | "*" => .ok (x * y)
  | "/" =>
    match Binary64.ofFloat y with
    | .finite _ 0 => .error .divisionByZero
    | _ => .ok (x / y)
  | "^" => .ok (x.pow y)
  | _ => .error (.unknownOperator symbol)

/-- The value of a tree. The operands of an operation are evaluated from left to right, and only
then is its symbol looked at. -/
def value : Tree → Except CalcError Float
  | leaf text => Numeral.value text
  | node symbol left right => do
    let x ← left.value
    let y ← right.value
    operationValue symbol x y

variable {tree : Tree} {symbol : String} {x y : Float} {error : CalcError}

/-! ## Operations -/

/-- Zeros of both signs are found by comparing with zero. -/
theorem operationValue_divide (x y : Float) :
    operationValue "/" x y = if y == 0 then .error .divisionByZero else .ok (x / y) := by
  by_cases hzero : y == 0
  · obtain ⟨negative, hy⟩ := Binary64.beq_zero_iff.mp hzero
    simp only [operationValue, hy, if_pos hzero]
  · have hy : ∀ negative, Binary64.ofFloat y ≠ .finite negative 0 := fun negative h =>
      hzero (Binary64.beq_zero_iff.mpr ⟨negative, h⟩)
    simp only [operationValue, if_neg hzero]

theorem operationValue_text (op : Operator) (x y : Float) :
    operationValue op.text x y = op.apply x y := by
  cases op with
  | divide => exact operationValue_divide x y
  | _ => rfl

theorem operationValue_of_unknown (h : ∀ op : Operator, symbol ≠ op.text) :
    operationValue symbol x y = .error (.unknownOperator symbol) := by
  unfold operationValue
  split
  · exact absurd rfl (h .add)
  · exact absurd rfl (h .subtract)
  · exact absurd rfl (h .multiply)
  · exact absurd rfl (h .divide)
  · exact absurd rfl (h .power)
  · rfl

theorem operation_eq_operationValue (symbol : String) (x y : Float) :
    arithmetic.operation symbol x y = operationValue symbol x y := by
  by_cases hknown : ∃ op : Operator, symbol = op.text
  · obtain ⟨op, rfl⟩ := hknown
    rw [Operator.operation_arithmetic, operationValue_text]
  · have hunknown : ∀ op : Operator, symbol ≠ op.text := not_exists.mp hknown
    rw [operationValue_of_unknown hunknown]
    exact Fallible.bind_eq_error_iff.mpr (.inl (Operator.ofText_eq_error_iff.mpr ⟨hunknown, rfl⟩))

/-! ## Trees -/

theorem fold_arithmetic_eq_value (tree : Tree) : tree.fold arithmetic = tree.value := by
  induction tree with
  | leaf text => rfl
  | node symbol left right ihl ihr =>
    rw [fold, value, ihl, ihr]
    simp only [operation_eq_operationValue]

/-- What a tree without a value has instead: a text that denotes no number, an unknown symbol, or a
division by zero. -/
theorem of_value_eq_error (h : tree.value = .error error) :
    (∃ text, error = .invalidNumeral text) ∨ (∃ symbol, error = .unknownOperator symbol) ∨
      error = .divisionByZero := by
  induction tree with
  | leaf text => exact .inl ⟨text, (Numeral.value_eq_error_iff.mp h).2⟩
  | node symbol left right ihl ihr =>
    -- the first part to fail gives the error: the left operand, the right one, or the operation
    rcases Fallible.bind_eq_error_iff.mp h with hleft | ⟨x, -, h⟩
    · exact ihl hleft
    rcases Fallible.bind_eq_error_iff.mp h with hright | ⟨y, -, hop⟩
    · exact ihr hright
    rw [← operation_eq_operationValue] at hop
    rcases Fallible.bind_eq_error_iff.mp hop with hsymbol | ⟨op, -, happly⟩
    · exact .inr (.inl ⟨symbol, (Operator.ofText_eq_error_iff.mp hsymbol).2⟩)
    · exact .inr (.inr (Operator.apply_eq_error_iff.mp happly).2.2)

/-- Evaluating a tree gives what the recursion gives, a value or an error, and never runs out of
operands or of values. -/
theorem eval_eq_value (tree : Tree) :
    tree.eval = tree.value ∧
      tree.eval ≠ .error .missingOperands ∧ tree.eval ≠ .error .malformedExpression := by
  have heval : tree.eval = tree.value := by rw [eval_eq_fold, fold_arithmetic_eq_value]
  rw [heval]
  refine ⟨rfl, fun herror => ?_, fun herror => ?_⟩
  · rcases of_value_eq_error herror with ⟨_, h⟩ | ⟨_, h⟩ | h <;> cases h
  · rcases of_value_eq_error herror with ⟨_, h⟩ | ⟨_, h⟩ | h <;> cases h

/-- An operand without a value is reported before an unknown symbol above it. -/
example : (node "?" (leaf "1") (node "+" (leaf ".") (leaf "x"))).value =
    .error (.invalidNumeral ".") :=
  rfl

end InfixCalculator.Tree
