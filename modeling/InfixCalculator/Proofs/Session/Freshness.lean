import InfixCalculator.Proofs.Session.History

/-!
# Fresh outputs

A result or an error is shown without the expression that it was computed from. It belongs to the
expression that stands in the field as long as this is only changed by actions that withdraw both:
editing in the field, and clearing everything. `Session.run_fresh` says so of every run, by an
invariant that each of the other actions keeps as well (`Session.Fresh.perform`).
-/

namespace InfixCalculator

namespace Session

/-- Whether the action changes the expression without withdrawing what was computed from it. -/
def Action.isSilentEdit : Action → Bool
  | insert _ | deleteLast | clearExpression => true
  | _ => false

/-- What is shown belongs to the expression as it is now. -/
structure Fresh (session : Session) : Prop where
  of_result : session.result ≠ "" →
    ∃ calculation, evaluate session.expression = .ok calculation ∧
      session.result = Value.display calculation.value ∧
      session.tree = some calculation.tree ∧
      session.working = calculation.working
  of_error : session.error ≠ "" →
    ∃ error, evaluate session.expression = .error error ∧
      session.error = "Erreur : " ++ error.message

variable {session : Session} {action : Action}

/-- Where nothing is shown, nothing is out of date. -/
theorem fresh_of_empty (hresult : session.result = "") (herror : session.error = "") :
    session.Fresh where
  of_result h := absurd hresult h
  of_error h := absurd herror h

/-- A calculation makes everything fresh. -/
theorem fresh_calculate (session : Session) : session.calculate.Fresh := by
  rw [calculate]
  cases hvalue : evaluate session.expression with
  | ok calculation =>
    exact
      { of_result := fun _ => ⟨calculation, hvalue, rfl, rfl, rfl⟩
        of_error := absurd rfl }
  | error error =>
    exact
      { of_result := absurd rfl
        of_error := fun _ => ⟨error, hvalue, rfl⟩ }

theorem Fresh.perform (h : session.Fresh) (haction : ¬ action.isSilentEdit) :
    (session.perform action).Fresh := by
  cases action with
  | insert text | deleteLast | clearExpression => exact absurd rfl haction
  | edit expression | clear => exact fresh_of_empty rfl rfl
  | calculate => exact fresh_calculate session
  | toggleTree =>
    rw [Session.perform, toggleTree]
    split
    · exact { h with }
    · exact h
  | zoomBy factor | moveBy delta => exact { h with }

/-- In a run without silent edits, every state shows what belongs to its expression. -/
theorem run_fresh (actions : List Action) (h : ∀ action ∈ actions, ¬ action.isSilentEdit) :
    (run actions).Fresh :=
  List.foldlRecOn actions perform (fresh_of_empty rfl rfl) fun _ hfresh action hmem =>
    hfresh.perform (h action hmem)

/-- The sum is fresh while its tree is hidden and magnified. The error is fresh although there was a
result before the expression was edited. -/
theorem run_fresh_hidden_tree :
    (run [.edit "2+3*4", .calculate, .toggleTree, .zoomBy 2]).result = "14.0" ∧
      (run [.edit "2+3*4", .calculate, .toggleTree, .zoomBy 2]).Fresh ∧
      (run [.edit "1/2", .calculate, .edit "1/0", .calculate]).error =
        "Erreur : division par zéro" ∧
      (run [.edit "1/2", .calculate, .edit "1/0", .calculate]).Fresh := by
  exact ⟨by decide +kernel, run_fresh _ (by decide), by decide +kernel, run_fresh _ (by decide)⟩

end Session

end InfixCalculator
