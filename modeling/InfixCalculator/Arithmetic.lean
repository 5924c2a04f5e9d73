import InfixCalculator.Decimal
import InfixCalculator.Tree.Postfix

/-!
# The values of numerals and trees

A numeral denotes a decimal, and its value is the double-precision number nearest to it, whatever
the number of digits: infinity if they are too many before the point, zero if the first that is not
zero comes too late behind it.

Operations are those of double-precision arithmetic. Only division checks its operands: by zero of
either sign it has no value. What is not a number, or infinite, is a value like any other.

A tree is evaluated with two stacks: the visits that are still to be made, and the values that wait
for an operator. `Tree.eval_eq_fold` says that this is the recursion over the tree.
-/

namespace InfixCalculator

/-! ## Numerals -/

namespace Numeral

/-- The digits before the point. -/
def whole (text : List Char) : List Char :=
  text.takeWhile (· ≠ '.')

/-- The digits behind the point, if there is one. -/
def fraction (text : List Char) : List Char :=
  (text.dropWhile (· ≠ '.')).drop 1

/-- The decimal that a numeral denotes. -/
def decimal (text : List Char) : Decimal where
  digits := Nat.ofDigitChars 10 (whole text ++ fraction text) 0
  exponent := -(fraction text).length

/-- The value of a numeral, or the complaint that the text is none. -/
def value (text : String) : Except CalcError Float :=
  if denotes text.toList then .ok (Binary64.toFloat (decimal text.toList).magnitude)
  else .error (.invalidNumeral text)

end Numeral

/-! ## Operations -/

/-- The value of an operation on two numbers. -/
def Operator.apply : Operator → Float → Float → Except CalcError Float
  | add, x, y => .ok (x + y)
  | subtract, x, y => .ok (x - y)
  | multiply, x, y => .ok (x * y)
  | divide, x, y => if y == 0 then .error .divisionByZero else .ok (x / y)
  | power, x, y => .ok (x.pow y)

/-- The meaning of numerals and operators as numbers and operations on them. -/
def arithmetic : Interpretation Float where
  number := Numeral.value
  operation symbol x y := do
    let op ← Operator.ofText symbol
    op.apply x y

/-! ## Trees -/

namespace Tree

/-- What is still to be done in the evaluation of a tree. -/
inductive Visit where
  /-- Evaluate a subtree. -/
  | enter (tree : Tree)
  /-- Apply an operator to its operands, which have been evaluated. -/
  | leave (symbol : String)

/-- A bound on the steps that making the visits takes. -/
def Visit.steps : List Visit → Nat
  | [] => 0
  | enter tree :: rest => 2 * tree.size + steps rest
  | leave _ :: rest => 1 + steps rest

/-- Make the visits one after the other, on a stack of values whose head is its top. -/
def visit : List Visit → List Float → Except CalcError (List Float)
  | [], values => .ok values
  | .enter (leaf text) :: rest, values => do
    let values ← Postfix.step arithmetic values (.number text)
    visit rest values
  | .enter (node symbol left right) :: rest, values =>
    visit (.enter left :: .enter right :: .leave symbol :: rest) values
  | .leave symbol :: rest, values => do
    let values ← Postfix.step arithmetic values (.operator symbol)
    visit rest values
termination_by visits => Visit.steps visits
decreasing_by all_goals simp only [Visit.steps, size]; omega

/-- The value of a tree: that of its left operand, then that of its right one, then the operation at
its root. -/
def eval (tree : Tree) : Except CalcError Float := do
  match ← visit [.enter tree] [] with
  | value :: _ => return value
  | [] => throw .malformedExpression

/-- A visit to a subtree puts its value on the stack before the other visits are made. -/
theorem visit_enter (tree : Tree) (rest : List Visit) (values : List Float) :
    visit (.enter tree :: rest) values = (do
      let value ← tree.fold arithmetic
      visit rest (value :: values)) := by
  induction tree generalizing rest values with
  | leaf text =>
    rw [visit]
    simp only [Postfix.step, fold, bind_assoc, pure_bind]
  | node symbol left right ihl ihr =>
    -- the operator waits below both operands, and finds their values when it is left
    rw [visit, ihl]
    simp only [ihr, visit, Postfix.step, fold, bind_assoc, pure_bind]

/-- The value of a tree is its meaning in arithmetic. -/
theorem eval_eq_fold (tree : Tree) : tree.eval = tree.fold arithmetic := by
  rw [eval, visit_enter]
  simp only [visit, bind_assoc]
  exact bind_pure _

end Tree

end InfixCalculator
