import InfixCalculator.Proofs.Failure

/-!
# What a journal tells

An evaluation notes every stage that succeeds, and stops at the first that fails. Each error belongs
to one stage, or to the last two, so which notes are made is determined by how the evaluation comes
out: `Entry.trail` is the rule, and `entries_journal` says that every evaluation follows it.
-/

namespace InfixCalculator

namespace Journaled

variable {α β : Type}

/-- A step that succeeds notes nothing by itself. -/
@[simp]
theorem ofExcept_ok_bind (value : α) (next : α → Journaled β) :
    ofExcept (.ok value) >>= next = next value := rfl

/-- What is noted comes before everything that is noted later. -/
@[simp]
theorem events_note_bind (event : Event) (next : Unit → Journaled β) :
    (note event >>= next).events = event :: (next ()).events := rfl

end Journaled

/-! ## Entries -/

/-- What is written down for a note. -/
structure Entry where
  level : String
  message : String
  label? : Option String := none

/-- The entry that an event is written as. -/
def Event.entry (event : Event) : Entry where
  level := event.level
  message := event.message
  label? := event.errorLabel?

/-- The texts of the tokens of an expression and of their postfix form, where there are any. -/
def Working.ofExpression (expression : String) : Working :=
  match Token.scan expression with
  | .error _ => {}
  | .ok tokens =>
    match Postfix.ofInfix tokens with
    | .error _ => { tokens := Token.render tokens }
    | .ok rpn => .ofTokens tokens rpn

/-- The entries behind the beginning of an evaluation that comes to `outcome`. -/
def Entry.trail (working : Working) (outcome : Except CalcError Calculation) : List Entry :=
  let tokens : Entry := { level := "DEBUG", message := "jetons = " ++ working.tokens }
  let rpn : Entry := { level := "DEBUG", message := "rpn = " ++ working.rpn }
  let value (x : Float) : Entry := { level := "DEBUG", message := "valeur = " ++ Value.plain x }
  let failure (error : CalcError) : Entry :=
    { level := "WARN", message := "échec : " ++ error.message, label? := some error.label }
  match outcome with
  | .ok calculation => [tokens, rpn, value calculation.value]
  | .error error =>
    match error with
    | .emptyExpression | .invalidCharacter _ => [failure error]
    | .unbalancedParentheses => [tokens, failure error]
    | _ => [tokens, rpn, failure error]

/-! ## Stages -/

variable {expression : String} {tokens rpn : List Token}

/-- Between the beginning and the failure, if there is one, stand the events of the steps. -/
theorem events_journal (expression : String) :
    (journal expression).events =
      .begun :: (Calculation.steps expression).events ++
        match evaluate expression with
        | .ok _ => []
        | .error error => [.failure error] := rfl

/-- Without tokens nothing is noted. -/
theorem events_steps_of_scan_eq_error {error : CalcError} (hne : expression ≠ "")
    (h : Token.scan expression = .error error) : (Calculation.steps expression).events = [] := by
  rw [Calculation.steps, if_neg hne, h]
  rfl

theorem events_steps_of_ofInfix_eq_error {error : CalcError} (hne : expression ≠ "")
    (hscan : Token.scan expression = .ok tokens) (h : Postfix.ofInfix tokens = .error error) :
    (Calculation.steps expression).events = [.tokens (Token.render tokens)] := by
  rw [Calculation.steps, if_neg hne, hscan, Journaled.ofExcept_ok_bind, h]
  rfl

/-- With a postfix form both lists of tokens are noted, and then the value, if there is one. -/
theorem events_steps_of_ofInfix_eq_ok (hne : expression ≠ "")
    (hscan : Token.scan expression = .ok tokens) (h : Postfix.ofInfix tokens = .ok rpn) :
    (Calculation.steps expression).events =
      .tokens (Token.render tokens) :: .rpn (Token.render rpn) ::
        match evaluate expression with
        | .ok calculation => [.value calculation.value]
        | .error _ => [] := by
  rw [evaluate_eq hne, Fallible.bind_of_ok hscan, Fallible.bind_of_ok h]
  rw [Calculation.steps, if_neg hne, hscan, Journaled.ofExcept_ok_bind, h]
  simp only [Journaled.ofExcept_ok_bind, Journaled.events_note_bind]
  -- the tree itself is not noted, so the two last stages show in the value alone
  cases Tree.ofPostfix rpn with
  | error error => rfl
  | ok tree =>
    rw [Journaled.ofExcept_ok_bind, Fallible.bind_of_ok rfl]
    cases tree.eval <;> rfl

/-! ## Every expression -/

/-- The entries of every evaluation follow the rule, and on success the texts among them are those
of its working. -/
theorem entries_journal (expression : String) :
    (journal expression).events.map Event.entry =
        { level := "INFO", message := "eval_expression" } ::
          Entry.trail (.ofExpression expression) (evaluate expression) ∧
      (∀ calculation, evaluate expression = .ok calculation →
        calculation.working = .ofExpression expression) ∧
      ∀ symbol, evaluate expression ≠ .error (.unknownOperator symbol) := by
  rw [events_journal]
  by_cases hne : expression = ""
  · subst hne
    exact ⟨rfl, nofun, nofun⟩
  cases hscan : Token.scan expression with
  | error error =>
    obtain ⟨c, -, herror⟩ := evaluate_of_scan_eq_error hne hscan
    rw [events_steps_of_scan_eq_error hne hscan, herror]
    exact ⟨rfl, nofun, nofun⟩
  | ok tokens =>
    cases hrpn : Postfix.ofInfix tokens with
    | error error =>
      obtain ⟨herror, -⟩ := evaluate_of_ofInfix_eq_error hne hscan hrpn
      rw [events_steps_of_ofInfix_eq_error hne hscan hrpn, herror, Working.ofExpression, hscan]
      simp only [hrpn]
      exact ⟨rfl, nofun, nofun⟩
    | ok rpn =>
      have hworking : Working.ofExpression expression = .ofTokens tokens rpn := by
        rw [Working.ofExpression, hscan]
        simp only [hrpn]
      rw [events_steps_of_ofInfix_eq_ok hne hscan hrpn, hworking]
      cases hevaluate : evaluate expression with
      | error error =>
        -- whichever of the last two stages has failed, it has noted nothing
        have hmem := mem_of_evaluate_eq_error hne hscan hrpn hevaluate
        simp only [List.mem_cons, List.not_mem_nil, or_false] at hmem
        rcases hmem with rfl | rfl | rfl | rfl <;> exact ⟨rfl, nofun, nofun⟩
      | ok calculation =>
        refine ⟨rfl, ?_, nofun⟩
        rintro _ ⟨⟩
        obtain ⟨-, tokens', hscan', hrpn', -, hworking'⟩ := evaluate_eq_ok_iff.mp hevaluate
        obtain rfl : tokens = tokens' := Except.ok.inj (hscan.symm.trans hscan')
        rw [hworking', Except.ok.inj (hrpn.symm.trans hrpn')]

end InfixCalculator
