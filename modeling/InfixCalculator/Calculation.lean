import InfixCalculator.Arithmetic
import InfixCalculator.Journal
import InfixCalculator.Postfix
import InfixCalculator.Token
import InfixCalculator.Tree.Printer

/-!
# Calculations

The evaluation of an expression: its tokens, their postfix order, the tree that they build, and the
value of the tree. The first step that fails ends it. `evaluate_eq` states the same without the
journal.
-/

namespace InfixCalculator

/-- The texts that show how an expression was understood. -/
structure Working where
  tokens : String := ""
  /-- The tokens in postfix order. -/
  rpn : String := ""
  deriving DecidableEq, Repr

/-- The texts of the tokens of an expression and of their postfix order. -/
def Working.ofTokens (tokens rpn : List Token) : Working where
  tokens := Token.render tokens
  rpn := Token.render rpn

/-- A calculation that has succeeded. -/
structure Calculation where
  /-- How the operations of the expression are nested. -/
  tree : Tree
  value : Float
  working : Working

/-- Two calculations are equal if their parts are, the values as numbers: the two zeros are equal,
and what is not a number differs from itself. -/
instance : BEq Calculation where
  beq a b := a.tree == b.tree && a.value == b.value && a.working == b.working

namespace Calculation

/-- Evaluate an expression step by step. -/
def steps (expression : String) : Journaled Calculation :=
  if expression = "" then .ofExcept (.error .emptyExpression)
  else do
    let tokens ← .ofExcept (Token.scan expression)
    .note (.tokens (Token.render tokens))
    let rpn ← .ofExcept (Postfix.ofInfix tokens)
    .note (.rpn (Token.render rpn))
    let tree ← .ofExcept (Tree.ofPostfix rpn)
    let value ← .ofExcept tree.eval
    .note (.value value)
    return { tree, value, working := .ofTokens tokens rpn }

end Calculation

/-- Evaluate an expression and note the beginning, every step that succeeds, and the failure, if
there is one. -/
def journal (expression : String) : Journaled Calculation :=
  let steps := Calculation.steps expression
  let ending : List Event :=
    match steps.outcome with
    | .ok _ => []
    | .error error => [.failure error]
  { steps with events := .begun :: steps.events ++ ending }

/-- The calculation of an expression, or the first error met in it. Only a text without any
character counts as empty. -/
def evaluate (expression : String) : Except CalcError Calculation :=
  (journal expression).outcome

/-- The calculation of an expression that is not empty, step by step. -/
theorem evaluate_eq {expression : String} (h : expression ≠ "") :
    evaluate expression = (do
      let tokens ← Token.scan expression
      let rpn ← Postfix.ofInfix tokens
      let tree ← Tree.ofPostfix rpn
      let value ← tree.eval
      return { tree, value, working := .ofTokens tokens rpn }) := by
  simp only [evaluate, journal, Calculation.steps, h, if_false, Journaled.outcome_bind,
    Journaled.outcome_ofExcept, Journaled.outcome_note, Journaled.outcome_pure]
  rfl

/-- An expression without any character is refused. -/
@[simp]
theorem evaluate_empty : evaluate "" = .error .emptyExpression := rfl

/-- Whether two evaluations come to the same: equal calculations, or the same error. -/
def sameOutcome : (first second : Except CalcError Calculation) → Bool
  | .ok calculation, .ok calculation' => calculation == calculation'
  | .error error, .error error' => error = error'
  | _, _ => false

/-- Evaluate the printed tree of a calculation. -/
def Calculation.reread (calculation : Calculation) : Except CalcError Calculation :=
  evaluate calculation.tree.print

end InfixCalculator
