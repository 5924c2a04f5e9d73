import InfixCalculator.Proofs.Postfix

/-!
# Which programs build no tree, and why

The height of a program is the number of trees that it leaves on the stack: every numeral puts one
there, every operator makes one out of two. A program fails over the first parenthesis in it, or the
first operator that comes at a height below two, and if there is neither it fails because its height
is not one. All other programs are the postorder of a tree (`Tree.ofPostfix_outcome`).
-/

namespace InfixCalculator

/-- By how much a token changes the number of trees on the stack. -/
def Token.rise : Token → Int
  | number _ => 1
  | operator _ => -1
  | leftParen | rightParen => 0

namespace Postfix

/-- The number of trees on the stack behind a program. -/
def height : List Token → Int
  | [] => 0
  | token :: program => token.rise + height program

/-- Why a token cannot be executed behind the given ones, if it cannot. -/
def fault? (before : List Token) : Token → Option CalcError
  | .number _ => none
  | .operator _ => if height before < 2 then some .missingOperands else none
  | .leftParen | .rightParen => some .unbalancedParentheses

variable {program : List Token} {stack final : List Tree} {token : Token}

/-! ## Heights -/

theorem length_step_builder {next : List Tree} (h : step Tree.builder stack token = .ok next) :
    (next.length : Int) = stack.length + token.rise := by
  cases token with
  | number text =>
    obtain rfl := Except.ok.inj h
    rw [List.length_cons, Token.rise]
    omega
  | operator symbol =>
    -- an operator needs two trees, so it does not succeed on shorter stacks
    rcases stack with _ | ⟨right, _ | ⟨left, rest⟩⟩
    · cases h
    · cases h
    · obtain rfl := Except.ok.inj h
      rw [List.length_cons, List.length_cons, List.length_cons, Token.rise]
      omega
  | leftParen => cases h
  | rightParen => cases h

theorem length_foldlM_step_builder (h : program.foldlM (step Tree.builder) stack = .ok final) :
    (final.length : Int) = stack.length + height program := by
  induction program generalizing stack with
  | nil =>
    rw [Except.ok.inj h, height]
    omega
  | cons token rest ih =>
    obtain ⟨next, hnext, hrest⟩ := Fallible.foldlM_cons_eq_ok_iff.mp h
    have hstep := length_step_builder hnext
    have hlength := ih hrest
    rw [height]
    omega

/-- The height of a program is the number of trees that it leaves. -/
theorem length_eq_height (h : program.foldlM (step Tree.builder) [] = .ok stack) :
    (stack.length : Int) = height program := by
  have hlength := length_foldlM_step_builder h
  rwa [List.length_nil, Int.natCast_zero, Int.zero_add] at hlength

/-! ## Faults -/

/-- A program stops at a token exactly if this is a fault behind the tokens before it. -/
theorem step_builder_eq_error_iff_fault? (before : List Token) (token : Token) (stack : List Tree)
    (error : CalcError) (h : before.foldlM (step Tree.builder) [] = .ok stack) :
    step Tree.builder stack token = .error error ↔ fault? before token = some error := by
  have hheight := length_eq_height h
  rw [step_builder_eq_error_iff]
  constructor
  · rintro (hlength | - | -)
    · exact if_pos (by omega)
    · rfl
    · rfl
  · intro hfault
    cases token with
    | number text => cases hfault
    | operator symbol =>
      obtain ⟨hlow, herror⟩ := Option.ite_none_right_eq_some.mp hfault
      exact Option.some.inj herror ▸ .operator (by omega)
    | leftParen => exact Option.some.inj hfault ▸ .leftParen
    | rightParen => exact Option.some.inj hfault ▸ .rightParen

end Postfix

namespace Tree

open Postfix

/-- A program builds a tree exactly if it is the postorder of this tree. It fails with its first
fault, or without any because its height is not one. -/
theorem ofPostfix_outcome (program : List Token) :
    (∀ tree, ofPostfix program = .ok tree ↔ program = tree.postorder) ∧
      ∀ error, ofPostfix program = .error error ↔
        firstFault? fault? program = some error ∨
          (firstFault? fault? program = none ∧ height program ≠ 1 ∧
            error = .malformedExpression) := by
  refine ⟨fun tree => ofPostfix_eq_ok_iff, fun error => ?_⟩
  rw [ofPostfix_eq_error_iff,
    Fallible.foldlM_eq_error_iff_firstFault? step_builder_eq_error_iff_fault?,
    ← Fallible.exists_foldlM_eq_ok_iff_firstFault? step_builder_eq_error_iff_fault?]
  -- where no token is a fault there is a stack, and only its length can be wrong
  refine or_congr_right ⟨?_, ?_⟩
  · rintro ⟨stack, hstack, hlength, rfl⟩
    have hheight := length_eq_height hstack
    exact ⟨⟨stack, hstack⟩, by omega, rfl⟩
  · rintro ⟨⟨stack, hstack⟩, hone, rfl⟩
    have hheight := length_eq_height hstack
    exact ⟨stack, hstack, by omega, rfl⟩

/-- The operator lacks an operand, and the parenthesis behind it comes too late to matter. -/
example :
    firstFault? fault? [.number "1", .operator "+", .leftParen] = some .missingOperands := by
  decide

end Tree

end InfixCalculator
