import InfixCalculator.Proofs.Fallible
import InfixCalculator.Tree.Postfix

/-!
# Programs that build trees

A program builds at most one tree, and it is the postorder of that tree: `Tree.ofPostfix` and
`Tree.postorder` are inverse to each other. While a program runs, the trees on the stack spell the
tokens that have been executed (`Postfix.step_builder`).
-/

namespace InfixCalculator

namespace Postfix

/-- The programs of the trees on a stack, from the bottom to the top. -/
def spell (stack : List Tree) : List Token :=
  (stack.reverse.map Tree.postorder).flatten

theorem spell_cons (tree : Tree) (stack : List Tree) :
    spell (tree :: stack) = spell stack ++ tree.postorder := by
  simp [spell]

/-- Executing a token adds it to what the stack spells. -/
theorem step_builder {stack next : List Tree} {token : Token}
    (h : step Tree.builder stack token = .ok next) : spell next = spell stack ++ [token] := by
  cases token with
  | number text =>
    obtain rfl := Except.ok.inj h
    rw [spell_cons, Tree.postorder_leaf]
  | operator symbol =>
    -- the two topmost trees become one, whose program ends with the operator
    rcases stack with _ | ⟨right, _ | ⟨left, rest⟩⟩
    · cases h
    · cases h
    · obtain rfl := Except.ok.inj h
      rw [spell_cons, spell_cons, spell_cons, Tree.postorder_node]
      simp only [List.append_assoc]
  | leftParen => cases h
  | rightParen => cases h

/-- Executing a token fails over too few operands, or over a parenthesis. -/
inductive Rejects (stack : List Tree) : Token → CalcError → Prop
  | operator {symbol : String} (h : stack.length < 2) :
      Rejects stack (.operator symbol) .missingOperands
  | leftParen : Rejects stack .leftParen .unbalancedParentheses
  | rightParen : Rejects stack .rightParen .unbalancedParentheses

theorem step_builder_eq_error_iff {stack : List Tree} {token : Token} {error : CalcError} :
    step Tree.builder stack token = .error error ↔ Rejects stack token error := by
  constructor
  · intro h
    cases token with
    | number text => cases h
    | leftParen => exact Except.error.inj h ▸ .leftParen
    | rightParen => exact Except.error.inj h ▸ .rightParen
    | operator symbol =>
      rcases stack with _ | ⟨right, _ | ⟨left, rest⟩⟩
      · exact Except.error.inj h ▸ .operator (by simp)
      · exact Except.error.inj h ▸ .operator (by simp)
      · cases h
  · rintro (h | - | -)
    · rcases stack with _ | ⟨right, _ | ⟨left, rest⟩⟩
      · rfl
      · rfl
      · rw [List.length_cons, List.length_cons] at h
        omega
    · rfl
    · rfl

theorem foldlM_step_builder {program : List Token} {stack final : List Tree}
    (h : program.foldlM (step Tree.builder) stack = .ok final) :
    spell final = spell stack ++ program := by
  induction program generalizing stack with
  | nil => rw [Except.ok.inj h, List.append_nil]
  | cons token rest ih =>
    obtain ⟨mid, hmid, hrest⟩ := Fallible.foldlM_cons_eq_ok_iff.mp h
    rw [ih hrest, step_builder hmid, List.append_assoc, List.singleton_append]

end Postfix

/-- The postorder of a tree is the only program that builds it. -/
theorem Tree.ofPostfix_eq_ok_iff {program : List Token} {tree : Tree} :
    ofPostfix program = .ok tree ↔ program = tree.postorder := by
  refine ⟨fun h => ?_, fun h => h ▸ ofPostfix_postorder tree⟩
  obtain ⟨stack, hrun, hend⟩ := Fallible.bind_eq_ok_iff.mp h
  split at hend
  case h_2 => cases hend
  case h_1 root =>
    obtain rfl := Except.ok.inj hend
    -- the program is what the stack spells at the end, and there is one tree on it
    have hspell := Postfix.foldlM_step_builder hrun
    rw [Postfix.spell_cons] at hspell
    simpa [Postfix.spell] using hspell.symm

/-- A program fails on its way, or because it does not leave one tree. -/
theorem Tree.ofPostfix_eq_error_iff {program : List Token} {error : CalcError} :
    ofPostfix program = .error error ↔
      program.foldlM (Postfix.step builder) [] = .error error ∨
        ∃ stack, program.foldlM (Postfix.step builder) [] = .ok stack ∧ stack.length ≠ 1 ∧
          error = .malformedExpression := by
  rw [ofPostfix, Postfix.run, Fallible.bind_eq_error_iff]
  refine or_congr_right (exists_congr fun stack => and_congr_right fun _ => ?_)
  split
  case h_1 tree =>
    refine iff_of_false (fun h => ?_) fun h => h.1 rfl
    cases h
  case h_2 hone =>
    have hlength : stack.length ≠ 1 := by
      intro hlength
      obtain ⟨tree, rfl⟩ := List.length_eq_one_iff.mp hlength
      exact hone tree rfl
    exact ⟨fun h => ⟨hlength, (Except.error.inj h).symm⟩, fun h => h.2 ▸ rfl⟩

/-- Without parentheses, a program that builds no tree lacks operands or leaves too many. -/
theorem Tree.ofPostfix_eq_error {program : List Token} {error : CalcError}
    (h : ofPostfix program = .error error) (hleft : .leftParen ∉ program)
    (hright : .rightParen ∉ program) : error = .missingOperands ∨ error = .malformedExpression := by
  rcases ofPostfix_eq_error_iff.mp h with hrun | ⟨stack, -, -, herror⟩
  · obtain ⟨front, token, back, mid, rfl, -, hreject⟩ := Fallible.foldlM_eq_error_iff.mp hrun
    cases Postfix.step_builder_eq_error_iff.mp hreject with
    | operator => exact .inl rfl
    | leftParen => exact absurd (by simp) hleft
    | rightParen => exact absurd (by simp) hright
  · exact .inr herror

end InfixCalculator
