/-!
# Errors of a calculation

A calculation stops at its first error and keeps nothing of what was computed before it. This
module lists the causes, the stable label by which a journal names each of them, and the sentence
that is shown to the user.
-/

namespace InfixCalculator

/-- Why a calculation has no value. -/
inductive CalcError where
  /-- The expression has no character at all. -/
  | emptyExpression
  /-- The character belongs to no token. -/
  | invalidCharacter (char : Char)
  /-- A parenthesis has no partner. -/
  | unbalancedParentheses
  /-- An operator comes before it has two operands. -/
  | missingOperands
  /-- The operators do not join all operands into one value. -/
  | malformedExpression
  /-- The text of a numeral denotes no number. -/
  | invalidNumeral (text : String)
  /-- The right operand of a division is zero. -/
  | divisionByZero
  /-- The text of an operator is none of the five symbols. -/
  | unknownOperator (symbol : String)
  deriving DecidableEq, Repr

namespace CalcError

/-- The label that stays the same whatever the wording of the message. -/
def label : CalcError → String
  | emptyExpression => "EmptyExpression"
  | invalidCharacter _ => "InvalidCharacter"
  | unbalancedParentheses => "UnbalancedParentheses"
  | missingOperands => "InsufficientOperands"
  | malformedExpression => "MalformedExpression"
  | invalidNumeral _ => "InvalidNumericLiteral"
  | divisionByZero => "DivisionByZero"
  | unknownOperator _ => "UnknownOperator"

/-- The sentence for the user, with the offending text as it was written. -/
def message : CalcError → String
  | emptyExpression => "l’expression est vide"
  | invalidCharacter char => "caractère invalide : '" ++ char.toString ++ "'"
  | unbalancedParentheses => "parenthèses déséquilibrées"
  | missingOperands => "expression invalide : opérandes insuffisants"
  | malformedExpression => "expression invalide"
  | invalidNumeral text => "valeur invalide : " ++ text
  | divisionByZero => "division par zéro"
  | unknownOperator symbol => "opérateur inconnu : " ++ symbol

end CalcError

end InfixCalculator
