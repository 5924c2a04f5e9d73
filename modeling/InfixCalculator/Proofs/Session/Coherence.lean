import InfixCalculator.Controls
import InfixCalculator.Proofs.Binary32
import InfixCalculator.Proofs.Calculation

/-!
# What every session keeps

The parts of a session are set apart from each other, but not every combination of them occurs:
`Session.Coherent` holds at the beginning and is kept by every action (`Coherent.perform`), hence by
every pass over the controls, whatever is found in it (`Coherent.update`). In particular a tree is
shown only if there is one, and an error is shown alone.
-/

namespace InfixCalculator

namespace Session

/-- What the parts of a session have to do with each other, whatever has been done. -/
structure Coherent (session : Session) : Prop where
  /-- The magnification lies within its bounds, or it is not a number. -/
  clamp_zoom : clamp minZoom maxZoom session.zoom = session.zoom
  isSome_tree : session.treeShown → session.tree.isSome
  wellFormed_tree : ∀ tree, session.tree = some tree → tree.WellFormed
  /-- Nothing of a calculation stands beside an error. -/
  of_error : session.error ≠ "" → session.result = "" ∧ session.tree = none ∧ session.working = {}

variable {session session' : Session}

/-- A tree is visible if it is to be shown and there is one. -/
theorem isSome_visibleTree? :
    session.visibleTree?.isSome ↔ session.treeShown ∧ session.tree.isSome := by
  unfold visibleTree?
  split <;> simp [*]

/-! ## Actions -/

/-- Nothing has been calculated yet, so there is neither a tree nor an error. -/
theorem coherent_empty : Coherent {} where
  clamp_zoom := by decide +kernel
  isSome_tree := nofun
  wellFormed_tree := nofun
  of_error h := absurd rfl h

/-- A calculation that succeeds brings its tree along and removes the error. -/
theorem coherent_accept (session : Session) {calculation : Calculation}
    (h : calculation.tree.WellFormed) : (session.accept calculation).Coherent where
  clamp_zoom := by
    change clamp minZoom maxZoom 1 = 1
    decide +kernel
  isSome_tree _ := rfl
  wellFormed_tree tree htree := Option.some.inj htree ▸ h
  of_error h := absurd rfl h

/-- An error replaces everything that was calculated before. -/
theorem Coherent.reject (h : session.Coherent) (error : CalcError) :
    (session.reject error).Coherent where
  clamp_zoom := h.clamp_zoom
  isSome_tree := nofun
  wellFormed_tree := nofun
  of_error _ := ⟨rfl, rfl, rfl⟩

/-- A calculation leads to an accepted result or to an error; its tree is well-formed because it was
read from an expression. -/
theorem Coherent.calculate (h : session.Coherent) : session.calculate.Coherent := by
  rw [Session.calculate]
  cases hvalue : evaluate session.expression with
  | ok calculation => exact coherent_accept session (wellFormed_tree_of_evaluate hvalue)
  | error error => exact h.reject error

/-- A tree is not shown before there is one. -/
theorem Coherent.toggleTree (h : session.Coherent) : session.toggleTree.Coherent := by
  rw [Session.toggleTree]
  split
  case isTrue htree => exact { h with isSome_tree := fun _ => htree }
  case isFalse => exact h

/-- The magnification is confined after every gesture, and confining it again changes nothing. -/
theorem Coherent.zoomBy (h : session.Coherent) (factor : Float32) :
    (session.zoomBy factor).Coherent :=
  { h with clamp_zoom := Binary32.clamp_clamp (by decide +kernel) (session.zoom * factor) }

/-- Every action keeps a session coherent. -/
theorem Coherent.perform (h : session.Coherent) (action : Action) :
    (session.perform action).Coherent := by
  cases action with
  | insert text | deleteLast | clearExpression | moveBy delta => exact { h with }
  | edit expression => exact { h with of_error := fun herror => absurd rfl herror }
  | clear =>
    exact { h with
      isSome_tree := nofun
      of_error := fun herror => absurd rfl herror }
  | toggleTree => exact h.toggleTree
  | calculate => exact h.calculate
  | zoomBy factor => exact h.zoomBy factor

/-! ## Controls -/

theorem Coherent.ite (p : Prop) [Decidable p] (h : session.Coherent) (h' : session'.Coherent) :
    (if p then session else session').Coherent := by
  split <;> assumption

/-- Each key stands for an action. -/
theorem Coherent.press (h : session.Coherent) (key : Key) : (session.press key).Coherent := by
  cases key with
  | write symbol => exact h.perform (.insert symbol)
  | delete => exact h.perform .deleteLast
  | clear => exact h.perform .clear

/-- The entry field types, calculates and clears, each of them on the session that the control
before it has left. -/
theorem Coherent.updateField (h : session.Coherent) (input : Input) :
    (session.updateField input).Coherent := by
  -- every control takes over the session from the one above it
  have htyped := ite (input.typed = "") h (h.perform (.edit (session.expression ++ input.typed)))
  have hentered :=
    ite (input.focusLost && input.enterPressed) (htyped.perform .calculate) htyped
  exact ite input.crossClicked (hentered.perform .clearExpression) hentered

theorem Coherent.updateButtons (h : session.Coherent) (input : Input) :
    (session.updateButtons input).Coherent := by
  have hcalculated := ite input.calculateClicked (h.perform .calculate) h
  exact ite _ (hcalculated.perform .toggleTree) hcalculated

/-- The keys that are found pressed act one after the other. -/
theorem Coherent.updateKeypad (h : session.Coherent) (input : Input) :
    (session.updateKeypad input).Coherent :=
  List.foldlRecOn _ _ h fun _ h key _ => h.press key

theorem Coherent.updateDrawing (h : session.Coherent) (input : Input) :
    (session.updateDrawing input).Coherent := by
  have hdragged : ((input.drag?.map session.moveBy).getD session).Coherent := by
    cases input.drag? with
    | none => exact h
    | some delta => exact h.perform (.moveBy delta)
  exact ite _ (ite _ (hdragged.perform (.zoomBy input.zoom)) hdragged) h

/-- Every pass over the controls keeps a session coherent. -/
theorem Coherent.update (h : session.Coherent) (input : Input) :
    (session.update input).Coherent := by
  have hescaped := ite input.escapePressed (h.perform .clear) h
  exact hescaped.updateField input |>.updateButtons input |>.updateKeypad input
    |>.updateDrawing input

end Session

end InfixCalculator
