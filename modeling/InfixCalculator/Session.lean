import InfixCalculator.Calculation
import InfixCalculator.Geometry

/-!
# A session with the calculator

The expression being written, what the last calculation left to show, and how its tree is looked at.
A new result shows its tree in the initial view; an error leaves nothing of earlier results. Editing
in the field withdraws the result or error, while the keypad only changes the expression.
-/

namespace InfixCalculator

/-- The state of a session. -/
structure Session where
  expression : String := ""
  /-- The displayed result; empty if there is none. -/
  result : String := ""
  /-- The displayed error; empty if there is none. -/
  error : String := ""
  /-- The tree of the last calculation, if it succeeded. -/
  tree : Option Tree := none
  /-- How the last expression was understood. -/
  working : Working := {}
  treeShown : Bool := false
  zoom : Float32 := 1
  /-- How far the tree has been moved. -/
  offset : Point := ⟨0, 0⟩

namespace Session

/-- The least magnification. -/
def minZoom : Float32 := 0.5

/-- The greatest magnification. -/
def maxZoom : Float32 := 3

/-- The bound of the displacement in each direction. -/
def maxOffset : Float32 := 500

/-! ## The expression -/

/-- Write behind the expression. -/
def insert (session : Session) (text : String) : Session :=
  { session with expression := session.expression ++ text }

/-- Replace the expression in the field. A result or error no longer belongs to it. -/
def edit (session : Session) (expression : String) : Session :=
  { session with expression, result := "", error := "" }

/-- Remove the last character of the expression. -/
def deleteLast (session : Session) : Session :=
  { session with expression := String.ofList session.expression.toList.dropLast }

/-- Remove the expression and nothing else. -/
def clearExpression (session : Session) : Session :=
  { session with expression := "" }

/-- Remove all texts and hide the tree, which can still be shown again. -/
def clear (session : Session) : Session :=
  { session with expression := "", result := "", error := "", working := {}, treeShown := false }

/-! ## Results -/

/-- Show a calculation, with its tree in the initial view. -/
def accept (session : Session) (calculation : Calculation) : Session :=
  { session with
    result := Value.display calculation.value
    error := ""
    tree := some calculation.tree
    working := calculation.working
    treeShown := true
    zoom := 1
    offset := ⟨0, 0⟩ }

/-- The text that shows an error. -/
def errorText (error : CalcError) : String :=
  "Erreur : " ++ error.message

/-- Show an error, and nothing of earlier results. -/
def reject (session : Session) (error : CalcError) : Session :=
  { session with
    result := ""
    error := errorText error
    tree := none
    working := {}
    treeShown := false }

/-- Evaluate the expression and show what comes of it. -/
def calculate (session : Session) : Session :=
  match evaluate session.expression with
  | .ok calculation => session.accept calculation
  | .error error => session.reject error

/-! ## The tree -/

/-- Show the tree or hide it, if there is one. -/
def toggleTree (session : Session) : Session :=
  if session.tree.isSome then { session with treeShown := !session.treeShown } else session

/-- Multiply the magnification, within its bounds. -/
def zoomBy (session : Session) (factor : Float32) : Session :=
  { session with zoom := clamp minZoom maxZoom (session.zoom * factor) }

/-- Move the tree, within bounds in each direction. -/
def moveBy (session : Session) (delta : Point) : Session :=
  { session with
    offset :=
      ⟨clamp (-maxOffset) maxOffset (session.offset.x + delta.x),
       clamp (-maxOffset) maxOffset (session.offset.y + delta.y)⟩ }

/-- The tree that is visible, if there is one. -/
def visibleTree? (session : Session) : Option Tree :=
  if session.treeShown then session.tree else none

/-! ## Runs -/

/-- What can be done in a session. -/
inductive Action where
  | insert (text : String)
  | edit (expression : String)
  | deleteLast
  | clearExpression
  | clear
  | toggleTree
  | calculate
  | zoomBy (factor : Float32)
  | moveBy (delta : Point)

/-- Do one thing. -/
def perform (session : Session) : Action → Session
  | .insert text => session.insert text
  | .edit expression => session.edit expression
  | .deleteLast => session.deleteLast
  | .clearExpression => session.clearExpression
  | .clear => session.clear
  | .toggleTree => session.toggleTree
  | .calculate => session.calculate
  | .zoomBy factor => session.zoomBy factor
  | .moveBy delta => session.moveBy delta

end Session

end InfixCalculator
