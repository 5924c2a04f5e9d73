import InfixCalculator.Tree

/-!
# Printed trees

A tree is printed in infix notation with a pair of parentheses around every operation, for example
`(1 + (2 * 3))`, so that its shape can be read off without knowing how tightly operators bind.
-/

namespace InfixCalculator

namespace Tree

/-- A part of a text that is being printed: ready text, or a tree still to print. -/
inductive Piece where
  | text (content : String)
  | subtree (content : Tree)

/-- A bound on the steps that printing the pieces takes. -/
def Piece.steps : List Piece → Nat
  | [] => 0
  | text _ :: rest => steps rest + 1
  | subtree tree :: rest => steps rest + 6 * tree.size

/-- Print the pieces behind `printed`. -/
def printOnto : List Piece → String → String
  | [], printed => printed
  | .text content :: rest, printed => printOnto rest (printed ++ content)
  | .subtree (leaf text) :: rest, printed => printOnto rest (printed ++ text)
  | .subtree (node symbol left right) :: rest, printed =>
    printOnto (.text "(" :: .subtree left :: .text " " :: .text symbol :: .text " " ::
      .subtree right :: .text ")" :: rest) printed
termination_by pieces => Piece.steps pieces
decreasing_by all_goals simp only [Piece.steps, size]; omega

/-- A tree in infix notation, every operation in parentheses. -/
def print (tree : Tree) : String :=
  printOnto [.subtree tree] ""

/-- The text of one piece. -/
def Piece.print : Piece → String
  | text content => content
  | subtree content => content.print

/-- A tree is printed behind what has been printed. -/
private theorem printOnto_subtree (tree : Tree) : ∀ (rest : List Piece) (printed : String),
    printOnto (.subtree tree :: rest) printed = printOnto rest (printed ++ tree.print) := by
  induction tree with
  | leaf text => intro rest printed; simp [print, printOnto]
  | node symbol left right ihl ihr =>
    intro rest printed
    have h : (node symbol left right).print
        = "(" ++ left.print ++ " " ++ symbol ++ " " ++ right.print ++ ")" := by
      rw [print]
      simp [printOnto, ihl, ihr]
    rw [h]
    simp [printOnto, ihl, ihr, String.append_assoc]

/-- The pieces are printed one after the other. -/
theorem printOnto_eq (pieces : List Piece) (printed : String) :
    printOnto pieces printed = printed ++ String.join (pieces.map Piece.print) := by
  induction pieces generalizing printed with
  | nil => simp [printOnto]
  | cons piece rest ih =>
    cases piece with
    | text content => simp [printOnto, ih, Piece.print, String.append_assoc]
    | subtree content => simp [printOnto_subtree, ih, Piece.print, String.append_assoc]

/-- A leaf is printed as it was written. -/
@[simp]
theorem print_leaf (text : String) : (leaf text).print = text := by
  simp [print, printOnto]

/-- An operation is printed between its operands, in parentheses. -/
@[simp]
theorem print_node (symbol : String) (left right : Tree) :
    (node symbol left right).print
      = "(" ++ left.print ++ " " ++ symbol ++ " " ++ right.print ++ ")" := by
  rw [print, printOnto, printOnto_eq]
  simp [Piece.print, String.append_assoc]

end Tree

end InfixCalculator
