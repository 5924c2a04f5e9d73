import InfixCalculator.Session

/-!
# The controls of a session

A session is operated through a field for the expression and the buttons around it, a keypad, and
the drawing of its tree. The controls are asked in passes, each of them once in a pass and always in
the same order. An `Input` is what one pass finds; `Session.update` is what it does to the session.
A control sees the session as the controls above it have left it.
-/

namespace InfixCalculator

/-- A key of the keypad: it writes a symbol, deletes the last character, or clears the session. -/
inductive Key where
  | write (symbol : String)
  | delete
  | clear
  deriving DecidableEq, Repr

namespace Key

/-- The text on a key. -/
def caption : Key → String
  | write symbol => symbol
  | delete => "DEL"
  | clear => "C"

/-- The keys, row by row. -/
def pad : List (List Key) :=
  [[write "(", write ")", write "^", delete],
   [write "7", write "8", write "9", write "/"],
   [write "4", write "5", write "6", write "*"],
   [write "1", write "2", write "3", write "-"],
   [write "0", write ".", clear, write "+"]]

end Key

/-- What is found in one pass over the controls. By default nothing has happened. -/
structure Input where
  escapePressed : Bool := false
  /-- What has been typed, at the end of the field. -/
  typed : String := ""
  enterPressed : Bool := false
  /-- Whether the field has lost the focus, as it does by Enter. -/
  focusLost : Bool := false
  crossClicked : Bool := false
  calculateClicked : Bool := false
  toggleClicked : Bool := false
  /-- The keys that have been clicked, in the order of the keypad. -/
  keysClicked : List Key := []
  workingClicked : Bool := false
  /-- How far the drawing has been dragged, if it has. -/
  drag? : Option Point := none
  /-- Whether the pointer is over the drawing. -/
  hovering : Bool := false
  /-- The factor of a zoom gesture; one if there was none. -/
  zoom : Float32 := 1

namespace Session

/-- Click on a key. -/
def press (session : Session) : Key → Session
  | .write symbol => session.insert symbol
  | .delete => session.deleteLast
  | .clear => session.clear

/-- The field of the expression and the cross behind it. -/
def updateField (session : Session) (input : Input) : Session :=
  let session :=
    if input.typed = "" then session else session.edit (session.expression ++ input.typed)
  let session :=
    if input.focusLost && input.enterPressed then session.calculate else session
  if input.crossClicked then session.clearExpression else session

/-- The button that evaluates the expression, and the one that shows or hides the tree. -/
def updateButtons (session : Session) (input : Input) : Session :=
  let session := if input.calculateClicked then session.calculate else session
  -- without a tree the second button is disabled, and a click on it is lost
  if session.tree.isSome && input.toggleClicked then session.toggleTree else session

/-- The keypad. -/
def updateKeypad (session : Session) (input : Input) : Session :=
  input.keysClicked.foldl press session

/-- The drawing, which is there only if the tree is visible. -/
def updateDrawing (session : Session) (input : Input) : Session :=
  if session.visibleTree?.isSome then
    let session := (input.drag?.map session.moveBy).getD session
    if input.hovering && input.zoom != 1 then session.zoomBy input.zoom else session
  else session

/-- One pass over all controls. -/
def update (session : Session) (input : Input) : Session :=
  let session := if input.escapePressed then session.clear else session
  session.updateField input |>.updateButtons input |>.updateKeypad input |>.updateDrawing input

end Session

end InfixCalculator
