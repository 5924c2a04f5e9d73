import InfixCalculator.Proofs.Session.Coherence
import InfixCalculator.Screen

/-!
# Gestures as actions

Behind its controls, a session goes through the states that it goes through when every gesture is
replaced by an action, or by none (`Gesture.action?`): `Screen.map_session_scanl_perform`.

The controls are more careful than the actions. The button of the tree is disabled without a tree, a
zoom by one is not passed on, and there is a drawing only where the tree is visible. For a coherent
session it makes no difference: such a button would do nothing, and to zoom by one is to confine the
magnification to bounds within which it lies already (`Session.Coherent.zoomBy_one`).
-/

namespace InfixCalculator

/-- The action that a gesture stands for, if any. -/
def Gesture.action? (session : Session) : Gesture → Option Session.Action
  | press (.write symbol) => some (.insert symbol)
  | press .delete => some .deleteLast
  | press .clear => some .clear
  | clickCalculate => some .calculate
  | clickToggle => some .toggleTree
  | clickCross => some .clearExpression
  | clickWorking => none
  | type text => if text = "" then none else some (.edit (session.expression ++ text))
  | enter inField => if inField then some .calculate else none
  | escape => some .clear
  | drag delta =>
    if session.treeShown ∧ session.tree.isSome then some (.moveBy delta) else none
  | zoom factor =>
    if session.treeShown ∧ session.tree.isSome then some (.zoomBy factor) else none

namespace Session

/-- Do what a gesture stands for. -/
def follow (session : Session) (gesture : Gesture) : Session :=
  ((gesture.action? session).map session.perform).getD session

variable {session : Session}

theorem toggleTree_eq_ite (session : Session) :
    (if session.tree.isSome then session.toggleTree else session) = session.toggleTree := by
  unfold toggleTree
  split <;> rfl

/-- A zoom by one changes nothing. -/
theorem Coherent.zoomBy_one (h : session.Coherent) : session.zoomBy 1 = session := by
  rw [Session.zoomBy, Binary32.mul_one, h.clamp_zoom]

/-! ## One pass -/

/-- What a pass does that finds one gesture. -/
theorem update_input (session : Session) (gesture : Gesture) :
    session.update gesture.input =
      match gesture with
      | .press key => session.press key
      | .clickCalculate => session.calculate
      | .clickToggle => if session.tree.isSome then session.toggleTree else session
      | .clickCross => session.clearExpression
      | .clickWorking => session
      | .type text => if text = "" then session else session.edit (session.expression ++ text)
      | .enter inField => if inField then session.calculate else session
      | .escape => session.clear
      | .drag delta => if session.visibleTree?.isSome then session.moveBy delta else session
      | .zoom factor =>
        if session.visibleTree?.isSome ∧ factor != 1 then session.zoomBy factor else session := by
  -- a drag comes with a zoom by one, which is not passed on because one equals itself
  have hone : (1 : Float32) ≠ .nan := by decide +kernel
  cases gesture <;>
    simp [update, updateField, updateButtons, updateKeypad, updateDrawing, Gesture.input, hone,
      ite_and]

/-- For a coherent session, a pass that finds one gesture does what the gesture stands for. -/
theorem Coherent.update_input (h : session.Coherent) (gesture : Gesture) :
    session.update gesture.input = session.follow gesture := by
  rw [Session.update_input, follow]
  cases gesture with
  | press key => cases key <;> rfl
  | clickToggle => exact session.toggleTree_eq_ite
  | type text => by_cases htext : text = "" <;> simp only [Gesture.action?, htext] <;> rfl
  | enter inField => cases inField <;> rfl
  | drag delta =>
    simp only [Gesture.action?, ← isSome_visibleTree?]
    split <;> rfl
  | zoom factor =>
    simp only [Gesture.action?, ← isSome_visibleTree?]
    by_cases hvisible : session.visibleTree?.isSome
    · by_cases hfactor : factor == 1
      · -- the controls pass nothing on, and the action changes nothing
        have hone : factor = 1 := Binary32.eq_one_of_beq hfactor
        simp [hvisible, hone, Session.perform, h.zoomBy_one]
      · simp [hvisible, bne, hfactor, Session.perform]
    · simp [hvisible]
  | _ => rfl

end Session

namespace Screen

/-- Along any gestures, the screen shows the sessions that the actions lead to. -/
theorem map_session_scanl_perform (gestures : List Gesture) :
    (gestures.scanl perform {}).map session = gestures.scanl Session.follow {} := by
  -- along the gestures the screen stays coherent, so the induction is over all coherent screens
  suffices h : ∀ screen : Screen, screen.session.Coherent →
      (gestures.scanl perform screen).map session =
        gestures.scanl Session.follow screen.session from
    h {} Session.coherent_empty
  induction gestures with
  | nil => simp
  | cons gesture gestures ih =>
    intro screen hscreen
    have hstep : (screen.perform gesture).session = screen.session.follow gesture :=
      hscreen.update_input gesture
    have hnext : (screen.perform gesture).session.Coherent := hscreen.update gesture.input
    rw [List.scanl_cons, List.scanl_cons, List.map_cons, ih _ hnext, hstep]

end Screen

end InfixCalculator
