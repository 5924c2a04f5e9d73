import InfixCalculator.Session
import Mathlib.Data.List.DropRight
import Mathlib.Logic.Function.Iterate

/-!
# What a session shows, read off its history

After any run of actions, the tree, the texts and the visibility of the tree are determined by the
last calculation of the run and by what was done since. Writing, deleting, zooming and moving do not
matter to them; editing withdraws the result and the error; clearing also withdraws the working and
hides the tree, but keeps it.

- `Session.Outputs.since` is the rule: what is shown, given how the last calculation came out and
  the actions behind it;
- `Session.outputs_calculate` and `Session.outputs_perform` are the steps, `Outputs.since_concat`
  says that the rule takes the same steps;
- `Session.run_outputs`: every run shows what the rule says.
-/

namespace InfixCalculator

namespace Session

/-- The session after a run of actions from the beginning. -/
def run (actions : List Action) : Session :=
  actions.foldl perform {}

theorem run_concat (actions : List Action) (action : Action) :
    run (actions ++ [action]) = (run actions).perform action := by
  rw [run, List.foldl_append]
  rfl

/-- What a session shows of its calculations. -/
structure Outputs where
  tree : Option Tree := none
  result : String := ""
  error : String := ""
  working : Working := {}
  treeShown : Bool := false

/-- The outputs of a session as they are. -/
def outputs (session : Session) : Outputs where
  tree := session.tree
  result := session.result
  error := session.error
  working := session.working
  treeShown := session.treeShown

/-! ## The rule -/

/-- Whether the action clears everything. -/
def Action.isClear : Action → Bool
  | clear => true
  | _ => false

/-- Whether the action shows or hides the tree. -/
def Action.isToggle : Action → Bool
  | toggleTree => true
  | _ => false

/-- Whether the action withdraws the result and the error. -/
def Action.isWithdrawal : Action → Bool
  | clear | edit _ => true
  | _ => false

/-- How often the tree was shown or hidden since the session was last cleared. -/
def toggles (actions : List Action) : Nat :=
  (actions.rtakeWhile (!·.isClear)).countP Action.isToggle

/-- What is shown when the last calculation came to `outcome` and `actions` were done since. An
error leaves nothing else to show. The tree of a calculation stays, the other texts until they are
withdrawn; it is hidden by clearing, and every toggle shows or hides it. -/
def Outputs.since (outcome : Except CalcError Calculation) (actions : List Action) : Outputs :=
  match outcome with
  | .error error =>
    { error := if actions.any Action.isWithdrawal then "" else "Erreur : " ++ error.message }
  | .ok calculation =>
    { tree := some calculation.tree
      result := if actions.any Action.isWithdrawal then "" else Value.display calculation.value
      working := if actions.any Action.isClear then {} else calculation.working
      treeShown := not^[toggles actions] (!actions.any Action.isClear) }

/-! ## Steps -/

variable {action : Action}

/-- A calculation sets all outputs, whatever they were. -/
theorem outputs_calculate (session : Session) :
    session.calculate.outputs = .since (evaluate session.expression) [] := by
  rw [calculate]
  cases evaluate session.expression <;> rfl

/-- What an action that evaluates nothing leaves to show. -/
def Outputs.after (outputs : Outputs) : Action → Outputs
  | .edit _ => { outputs with result := "", error := "" }
  | .clear => { outputs with result := "", error := "", working := {}, treeShown := false }
  | .toggleTree => { outputs with treeShown := outputs.treeShown ^^ outputs.tree.isSome }
  | _ => outputs

/-- Every other action changes the outputs without regard to the rest of the session. -/
theorem outputs_perform (session : Session) (haction : action ≠ .calculate) :
    (session.perform action).outputs = session.outputs.after action := by
  cases action with
  | calculate => exact absurd rfl haction
  | toggleTree =>
    -- without a tree the toggle does nothing
    obtain ⟨_, _, _, tree, _, treeShown, _, _⟩ := session
    cases tree <;> cases treeShown <;> rfl
  | _ => rfl

theorem toggles_concat (actions : List Action) (action : Action) :
    toggles (actions ++ [action]) =
      if action.isClear then 0 else toggles actions + if action.isToggle then 1 else 0 := by
  unfold toggles
  split
  case isTrue hclear =>
    rw [List.rtakeWhile_concat_neg _ _ _ (by simp [hclear]), List.countP_nil]
  case isFalse hclear =>
    rw [List.rtakeWhile_concat_pos _ _ _ (by simp [hclear]), List.countP_append,
      List.countP_singleton]

namespace Outputs

/-- Where nothing is shown, there is nothing to withdraw and no tree to toggle. -/
theorem after_empty (action : Action) : after {} action = {} := by
  cases action <;> rfl

theorem since_concat (outcome : Except CalcError Calculation) (actions : List Action)
    (action : Action) :
    since outcome (actions ++ [action]) = (since outcome actions).after action := by
  cases outcome with
  | error error => cases action <;> simp [since, after, Action.isWithdrawal]
  | ok calculation =>
    cases action <;>
      simp [since, after, toggles_concat, Action.isWithdrawal, Action.isClear, Action.isToggle,
        Function.iterate_succ_apply']

end Outputs

/-! ## Runs -/

/-- In every run, either there was no calculation yet and nothing is shown, or what is shown follows
from the last calculation, of the expression as it was then, and from the actions since. -/
theorem run_outputs (actions : List Action) :
    (.calculate ∉ actions ∧ (run actions).outputs = {}) ∨
      ∃ before after, actions = before ++ .calculate :: after ∧ .calculate ∉ after ∧
        (run actions).outputs = .since (evaluate (run before).expression) after := by
  induction actions using List.reverseRecOn with
  | nil => exact .inl ⟨List.not_mem_nil, rfl⟩
  | append_singleton actions action ih =>
    rw [run_concat]
    by_cases haction : action = .calculate
    · subst haction
      exact .inr ⟨actions, [], rfl, List.not_mem_nil, outputs_calculate (run actions)⟩
    · have hlast : .calculate ∉ [action] := fun hmem => haction (List.mem_singleton.mp hmem).symm
      rw [outputs_perform (run actions) haction]
      rcases ih with ⟨hnone, hempty⟩ | ⟨before, after, rfl, hafter, hsince⟩
      · refine .inl ⟨List.not_mem_append hnone hlast, ?_⟩
        rw [hempty, Outputs.after_empty]
      · refine .inr ⟨before, after ++ [action], ?_, List.not_mem_append hafter hlast, ?_⟩
        · rw [List.append_assoc, List.cons_append]
        · rw [hsince, Outputs.since_concat]

end Session

end InfixCalculator
