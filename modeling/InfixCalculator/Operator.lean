import InfixCalculator.Error

/-!
# The five binary operators

Addition and subtraction bind least, then multiplication and division, then the power, which alone
groups from the right. `Operator.bindsBefore` turns the two tables into the one question that the
reading of an expression asks: which of two neighbouring operators takes the operand between them.
-/

namespace InfixCalculator

/-- A binary operator of an expression. -/
inductive Operator where
  | add
  | subtract
  | multiply
  | divide
  | power
  deriving DecidableEq, Repr

namespace Operator

/-- The character by which an operator is written. -/
def symbol : Operator → Char
  | add => '+'
  | subtract => '-'
  | multiply => '*'
  | divide => '/'
  | power => '^'

/-- The operator that a character writes, if there is one. -/
def ofChar? : Char → Option Operator
  | '+' => some add
  | '-' => some subtract
  | '*' => some multiply
  | '/' => some divide
  | '^' => some power
  | _ => none

/-- Every operator is read back from its character. -/
@[simp]
theorem ofChar?_symbol (op : Operator) : ofChar? op.symbol = some op := by
  cases op <;> rfl

/-- A character is read as an operator only if it is that operator's symbol. -/
theorem ofChar?_eq_some_iff {c : Char} {op : Operator} : ofChar? c = some op ↔ c = op.symbol := by
  refine ⟨fun h => ?_, fun h => h ▸ ofChar?_symbol op⟩
  unfold ofChar? at h
  split at h <;> cases h <;> rfl

/-- The text of an operator: its symbol alone. -/
def text (op : Operator) : String :=
  op.symbol.toString

/-- The operator whose text is exactly `text`, or the complaint that there is none. -/
def ofText (text : String) : Except CalcError Operator :=
  match text.toList with
  | [c] =>
    match ofChar? c with
    | some op => .ok op
    | none => .error (.unknownOperator text)
  | _ => .error (.unknownOperator text)

/-- Every operator is read back from its text. -/
@[simp]
theorem ofText_text (op : Operator) : ofText op.text = .ok op := by
  cases op <;> rfl

/-- How tightly an operator holds its operands. -/
def precedence : Operator → Nat
  | add | subtract => 1
  | multiply | divide => 2
  | power => 3

/-- Whether a chain of this operator groups from the right. -/
def isRightAssociative : Operator → Bool
  | power => true
  | _ => false

/-- Whether `waiting`, written to the left of `next`, takes the operand between them. Among equals
the left one does, unless the operator groups from the right. -/
def bindsBefore (waiting next : Operator) : Bool :=
  if next.isRightAssociative then next.precedence < waiting.precedence
  else next.precedence ≤ waiting.precedence

end Operator

end InfixCalculator
