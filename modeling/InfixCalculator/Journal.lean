import InfixCalculator.Error
import InfixCalculator.Value

/-!
# The journal of an evaluation

An evaluation notes what it has reached while it runs. `Journaled` is a computation that may fail
and keeps its notes either way: those made before a failure stay, and nothing is noted after it.
-/

namespace InfixCalculator

/-- A note in the journal of an evaluation. -/
inductive Event where
  | begun
  /-- The expression has been read; the text of its tokens. -/
  | tokens (text : String)
  /-- The tokens have been put into postfix order; their text. -/
  | rpn (text : String)
  | value (x : Float)
  | failure (error : CalcError)

namespace Event

/-- The severity of a note. -/
def level : Event → String
  | begun => "INFO"
  | tokens _ | rpn _ | value _ => "DEBUG"
  | failure _ => "WARN"

/-- The text of a note. -/
def message : Event → String
  | begun => "eval_expression"
  | tokens text => "jetons = " ++ text
  | rpn text => "rpn = " ++ text
  | value x => "valeur = " ++ Value.plain x
  | failure error => "échec : " ++ error.message

/-- The label of the error that a note reports. -/
def errorLabel? : Event → Option String
  | failure error => some error.label
  | _ => none

end Event

/-- A computation with its notes, in the order in which they were made. -/
structure Journaled (α : Type) where
  events : List Event
  /-- The value of the computation, or the error that ended it. -/
  outcome : Except CalcError α

namespace Journaled

variable {α β : Type}

/-- A computation that notes nothing. -/
def ofExcept (outcome : Except CalcError α) : Journaled α :=
  ⟨[], outcome⟩

/-- A computation that makes one note and nothing else. -/
def note (event : Event) : Journaled Unit :=
  ⟨[event], .ok ()⟩

/-- Go on with the value of a computation, unless it failed. -/
def andThen (first : Journaled α) (next : α → Journaled β) : Journaled β :=
  match first.outcome with
  | .ok value =>
    let second := next value
    ⟨first.events ++ second.events, second.outcome⟩
  | .error error => ⟨first.events, .error error⟩

instance : Monad Journaled where
  pure value := ofExcept (.ok value)
  bind := andThen

/-- The outcome of computations in a row does not depend on what they note. -/
@[simp]
theorem outcome_bind (first : Journaled α) (next : α → Journaled β) :
    (first >>= next).outcome = first.outcome >>= fun value => (next value).outcome := by
  simp only [bind, andThen]
  cases first.outcome <;> rfl

@[simp]
theorem outcome_pure (value : α) : (pure value : Journaled α).outcome = .ok value := rfl

/-- A computation without notes has the outcome it is made from. -/
@[simp]
theorem outcome_ofExcept (outcome : Except CalcError α) :
    (ofExcept outcome).outcome = outcome := rfl

@[simp]
theorem outcome_note (event : Event) : (note event).outcome = .ok () := rfl

end Journaled

end InfixCalculator
