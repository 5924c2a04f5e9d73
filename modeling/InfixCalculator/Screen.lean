import InfixCalculator.Controls
import InfixCalculator.Drawing

/-!
# The screen

A session behind its controls, with what is to be read there. A `Gesture` is one thing that the user
does, and reaches the controls as the input of one pass. `Screen.texts` lists the texts of the
screen from top to bottom, and `Session.drawing` what is painted where the tree is visible.
-/

namespace InfixCalculator

/-- What the user can do. The cross stands beside the field, and typing is at its end. -/
inductive Gesture where
  | press (key : Key)
  | clickCalculate
  | clickToggle
  | clickCross
  | clickWorking
  | type (text : String)
  /-- Enter, in the field or elsewhere. -/
  | enter (inField : Bool)
  | escape
  | drag (delta : Point)
  | zoom (factor : Float32)

/-- What a pass over the controls finds after a gesture. -/
def Gesture.input : Gesture → Input
  | press key => { keysClicked := [key] }
  | clickCalculate => { calculateClicked := true }
  | clickToggle => { toggleClicked := true }
  | clickCross => { crossClicked := true }
  | clickWorking => { workingClicked := true }
  | type text => { typed := text }
  | enter inField => { enterPressed := true, focusLost := inField }
  | escape => { escapePressed := true }
  | drag delta => { drag? := some delta, hovering := true }
  | zoom factor => { hovering := true, zoom := factor }

namespace Session

/-! ## Texts -/

/-- The hint in an empty field. -/
def hint : String := "Ex: (2+3)*4, 2^3^2, 1.5/3"

/-- The caption of the button that shows or hides the tree. -/
def toggleCaption (session : Session) : String :=
  if session.treeShown then "Masquer l’arbre" else "Afficher l’arbre"

/-- The heading, the field of the expression, and the buttons around it. -/
def entryTexts (session : Session) : List String :=
  ["Calculatrice d’expressions", "Expression :",
   if session.expression = "" then hint else session.expression,
   "×", "Calculer", session.toggleCaption]

/-- The line of the error, if there is one. -/
def errorLine? (session : Session) : Option String :=
  if session.error = "" then none else some session.error

/-- The line of the result, if there is one. -/
def resultLine? (session : Session) : Option String :=
  if session.result = "" then none else some ("Résultat : " ++ session.result)

/-- The working behind its header, which folds it. -/
def workingTexts (session : Session) (unfolded : Bool) : List String :=
  "Démarche" ::
    if unfolded then ["Jetons :", session.working.tokens, "RPN :", session.working.rpn] else []

/-- The labels in the drawing of the tree. -/
def treeTexts (session : Session) : List String :=
  match session.visibleTree? with
  | some tree => tree.labels
  | none => []

/-- The drawing of the visible tree, in a zone with the given upper left corner and width. -/
def drawing (session : Session) (corner : Point) (width : Float32) : List Shape :=
  match session.visibleTree? with
  | some tree =>
    tree.drawing { zone := tree.zone corner width, zoom := session.zoom, offset := session.offset }
  | none => []

end Session

/-- A session and the state of the controls around it. -/
structure Screen where
  session : Session := {}
  /-- Whether the working is unfolded. -/
  workingOpen : Bool := false

namespace Screen

/-- One pass over the controls. The header of the working folds and unfolds it. -/
def update (screen : Screen) (input : Input) : Screen where
  session := screen.session.update input
  workingOpen := screen.workingOpen ^^ input.workingClicked

/-- What a gesture does to the screen. -/
def perform (screen : Screen) (gesture : Gesture) : Screen :=
  screen.update gesture.input

/-- All texts on the screen in the order in which they are painted; an empty one leaves no trace. -/
def texts (screen : Screen) : List String :=
  let session := screen.session
  (session.entryTexts ++ Key.pad.flatten.map Key.caption ++ session.errorLine?.toList ++
    session.resultLine?.toList ++ session.workingTexts screen.workingOpen ++
    session.treeTexts).filter (· ≠ "")

end Screen

end InfixCalculator
