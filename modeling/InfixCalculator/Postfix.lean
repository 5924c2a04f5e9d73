import InfixCalculator.Token

/-!
# Postfix notation

A list of tokens without parentheses is a program for a stack: a numeral puts a value on it, an
operator replaces the two topmost values by one. What the values are is left to an
`Interpretation`, so that building a tree and computing a number are two runs of one machine.

A program is made from tokens in infix order, which are read from left to right. A numeral is
written at once, and an operator waits for its right operand: it is written as soon as an operator
that binds no tighter is read, or its group of parentheses ends. The waiting operators of each open
group form a stack of their own.
-/

namespace InfixCalculator

/-! ## Programs -/

/-- A meaning for numerals and operators in the type `α`. -/
structure Interpretation (α : Type) where
  /-- The meaning of a numeral, given its text. -/
  number : String → Except CalcError α
  /-- The meaning of an operator, given its symbol and its left and right operands. -/
  operation : String → α → α → Except CalcError α

namespace Postfix

variable {α : Type}

/-- Execute one token on a stack whose head is its top. -/
def step (meaning : Interpretation α) (stack : List α) : Token → Except CalcError (List α)
  | .number text => do
    let value ← meaning.number text
    return value :: stack
  | .operator symbol =>
    match stack with
    | right :: left :: rest => do
      let value ← meaning.operation symbol left right
      return value :: rest
    | _ => .error .missingOperands
  | .leftParen | .rightParen => .error .unbalancedParentheses

/-- Execute a program on an empty stack; it must leave exactly one value. -/
def run (meaning : Interpretation α) (program : List Token) : Except CalcError α := do
  match ← program.foldlM (step meaning) [] with
  | [value] => return value
  | _ => throw .malformedExpression

end Postfix

/-! ## From infix to postfix notation -/

/-- How far an expression has been converted. -/
structure Conversion where
  /-- The tokens written so far, the latest first. -/
  written : List Token := []
  /-- The operators that wait in the innermost open group, the latest first. -/
  waiting : List Operator := []
  /-- The operators that wait in the groups around it, one list for each open parenthesis, the
  innermost first. -/
  enclosing : List (List Operator) := []
  deriving DecidableEq

namespace Conversion

/-- Write operators in the given order. -/
def write (state : Conversion) (operators : List Operator) : Conversion :=
  { state with written := (operators.map Token.ofOperator).reverse ++ state.written }

/-- Read one token. -/
def read (state : Conversion) : Token → Except CalcError Conversion
  | .number text => .ok { state with written := .number text :: state.written }
  | .leftParen => .ok { state with waiting := [], enclosing := state.waiting :: state.enclosing }
  | .rightParen =>
    match state.enclosing with
    | [] => .error .unbalancedParentheses
    | outer :: enclosing => .ok { state.write state.waiting with waiting := outer, enclosing }
  | .operator symbol => do
    let next ← Operator.ofText symbol
    -- a waiting operator that binds before the new one has its right operand now
    return { state.write (state.waiting.takeWhile (·.bindsBefore next)) with
      waiting := next :: state.waiting.dropWhile (·.bindsBefore next) }

/-- Write what still waits, provided that no parenthesis is open. -/
def finish (state : Conversion) : Except CalcError (List Token) :=
  match state.enclosing with
  | [] => .ok (state.write state.waiting).written.reverse
  | _ :: _ => .error .unbalancedParentheses

end Conversion

/-- The postfix form of tokens in infix order. Only operators and parentheses are checked: whether
each operator finds its operands shows when the result is run. -/
def Postfix.ofInfix (tokens : List Token) : Except CalcError (List Token) := do
  let state ← tokens.foldlM Conversion.read {}
  state.finish

/-- A product is complete before the sum that it belongs to. -/
example :
    Postfix.ofInfix [.number "1", .operator "+", .number "2", .operator "*", .number "3"]
      = .ok [.number "1", .number "2", .number "3", .operator "*", .operator "+"] := rfl

/-- Powers group from the right. -/
example :
    Postfix.ofInfix [.number "2", .operator "^", .number "3", .operator "^", .number "2"]
      = .ok [.number "2", .number "3", .number "2", .operator "^", .operator "^"] := rfl

end InfixCalculator
