import InfixCalculator.Proofs.Conversion
import InfixCalculator.Proofs.Parentheses

/-!
# Which tokens cannot be converted, and why

Any tokens may be given to the conversion, with any texts. It fails over the first operator that is
unknown or the first closing parenthesis that has nothing to close, whichever comes first, and if
there is neither it fails over a parenthesis that stays open. All other lists of tokens have a
postfix form: `Postfix.ofInfix_outcome`.
-/

namespace InfixCalculator

theorem Operator.exists_eq_text_iff {text : String} :
    (∃ op : Operator, text = op.text) ↔ text ∈ ["+", "-", "*", "/", "^"] := by
  constructor
  · rintro ⟨op, rfl⟩
    cases op <;> decide
  · intro h
    simp only [List.mem_cons, List.not_mem_nil, or_false] at h
    rcases h with rfl | rfl | rfl | rfl | rfl
    · exact ⟨.add, rfl⟩
    · exact ⟨.subtract, rfl⟩
    · exact ⟨.multiply, rfl⟩
    · exact ⟨.divide, rfl⟩
    · exact ⟨.power, rfl⟩

namespace Conversion

/-- Why a token cannot be read behind the given ones, if it cannot. -/
def fault? (before : List Token) : Token → Option CalcError
  | .operator symbol =>
    if symbol ∈ ["+", "-", "*", "/", "^"] then none else some (.unknownOperator symbol)
  | .rightParen =>
    if before.count .leftParen ≤ before.count .rightParen then some .unbalancedParentheses
    else none
  | .number _ | .leftParen => none

/-- A conversion stops at a token exactly if this is a fault behind the tokens before it. -/
theorem read_eq_error_iff_fault? (before : List Token) (token : Token) (state : Conversion)
    (error : CalcError) (h : before.foldlM read {} = .ok state) :
    state.read token = .error error ↔ fault? before token = some error := by
  -- a parenthesis can be closed if more have been opened than closed
  have hcount := count_of_foldlM_read h
  have hopen : state.enclosing = [] ↔ before.count .leftParen ≤ before.count .rightParen := by
    rw [← List.length_eq_zero_iff]
    omega
  rw [read_eq_error_iff]
  constructor
  · rintro (hunknown | hclosed)
    · exact if_neg fun hmem => absurd (Operator.exists_eq_text_iff.mpr hmem)
        (not_exists.mpr hunknown)
    · exact if_pos (hopen.mp hclosed)
  · intro hfault
    cases token with
    | number text => cases hfault
    | leftParen => cases hfault
    | operator symbol =>
      obtain ⟨hunknown, herror⟩ := Option.ite_none_left_eq_some.mp hfault
      refine Option.some.inj herror ▸ .operator (not_exists.mp fun hknown => hunknown ?_)
      exact Operator.exists_eq_text_iff.mp hknown
    | rightParen =>
      obtain ⟨hclosed, herror⟩ := Option.ite_none_right_eq_some.mp hfault
      exact Option.some.inj herror ▸ .rightParen (hopen.mpr hclosed)

end Conversion

namespace Postfix

open Conversion

/-- A conversion fails with the first fault of its tokens, or without any because a parenthesis
stays open. It succeeds if there is no fault and every parenthesis is closed. Only the token that is
read can be an unknown operator: looking up those on the stack again never fails. -/
theorem ofInfix_outcome (tokens : List Token) :
    (∀ error, ofInfix tokens = .error error ↔
        firstFault? fault? tokens = some error ∨
          (firstFault? fault? tokens = none ∧
            tokens.count .rightParen < tokens.count .leftParen ∧
            error = .unbalancedParentheses)) ∧
      ((∃ program, ofInfix tokens = .ok program) ↔
        firstFault? fault? tokens = none ∧
          tokens.count .leftParen ≤ tokens.count .rightParen) ∧
      ∀ (state : Conversion) (next : Operator),
        ∃ after below, state.read (.ofOperator next) = .ok after ∧
          release next state.stack state.written = .ok (below, after.written) ∧
          after.stack = .ofOperator next :: below := by
  refine ⟨fun error => ?_, ?_, exists_read_ofOperator⟩
  · rw [ofInfix_eq_error_iff, Fallible.foldlM_eq_error_iff_firstFault? read_eq_error_iff_fault?,
      ← Fallible.exists_foldlM_eq_ok_iff_firstFault? read_eq_error_iff_fault?, exists_and_right]
  · rw [exists_ofInfix_eq_ok_iff,
      Fallible.exists_foldlM_eq_ok_iff_firstFault? read_eq_error_iff_fault?]

/-- The text `**` is no operator, which is found before the parenthesis. -/
example :
    firstFault? fault? [.number "2", .operator "**", .rightParen] =
      some (.unknownOperator "**") := by
  decide

end Postfix

end InfixCalculator
