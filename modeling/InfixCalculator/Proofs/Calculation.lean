import InfixCalculator.Calculation
import InfixCalculator.Proofs.Postfix
import InfixCalculator.Proofs.Tree.RoundTrip

/-!
# Evaluating again

A calculation succeeds if each of its stages does (`evaluate_eq_ok_iff`). Only well-formed tokens
reach its tree, whether or not the expression is a sentence of the grammar, so the printed tree is
an expression with the same tree and the same value.
-/

namespace InfixCalculator

variable {expression : String} {calculation : Calculation} {tokens program : List Token}
  {tree : Tree}

/-- A calculation succeeds if the expression has a character and every stage succeeds. -/
theorem evaluate_eq_ok_iff :
    evaluate expression = .ok calculation ↔
      expression ≠ "" ∧ ∃ tokens, Token.scan expression = .ok tokens ∧
        Postfix.ofInfix tokens = .ok calculation.tree.postorder ∧
        calculation.tree.eval = .ok calculation.value ∧
        calculation.working = .ofTokens tokens calculation.tree.postorder := by
  constructor
  · intro h
    have hne : expression ≠ "" := by
      rintro rfl
      cases h
    rw [evaluate_eq hne] at h
    obtain ⟨tokens, hscan, h⟩ := Fallible.bind_eq_ok_iff.mp h
    obtain ⟨program, hprogram, h⟩ := Fallible.bind_eq_ok_iff.mp h
    obtain ⟨tree, htree, h⟩ := Fallible.bind_eq_ok_iff.mp h
    obtain ⟨value, hvalue, h⟩ := Fallible.bind_eq_ok_iff.mp h
    obtain rfl := Except.ok.inj h
    obtain rfl := Tree.ofPostfix_eq_ok_iff.mp htree
    exact ⟨hne, tokens, hscan, hprogram, hvalue, rfl⟩
  · rintro ⟨hne, tokens, hscan, hprogram, hvalue, hworking⟩
    rw [evaluate_eq hne, Fallible.bind_of_ok hscan, Fallible.bind_of_ok hprogram,
      Fallible.bind_of_ok (Tree.ofPostfix_postorder _), Fallible.bind_of_ok hvalue, ← hworking]
    rfl

/-- Once the tokens are converted to the postorder of a tree, only its value can be missing. -/
theorem evaluate_eq_of_postorder (hne : expression ≠ "")
    (hscan : Token.scan expression = .ok tokens)
    (hprogram : Postfix.ofInfix tokens = .ok tree.postorder) :
    evaluate expression = (do
      let value ← tree.fold arithmetic
      return { tree, value, working := .ofTokens tokens tree.postorder }) := by
  rw [evaluate_eq hne, Fallible.bind_of_ok hscan, Fallible.bind_of_ok hprogram,
    Fallible.bind_of_ok (Tree.ofPostfix_postorder tree), Tree.eval_eq_fold]

/-- The postfix form of tokens that were read is well-formed. -/
theorem wellFormed_of_ofInfix (hscan : Token.scan expression = .ok tokens)
    (hprogram : Postfix.ofInfix tokens = .ok program) :
    ∀ token ∈ program, token.WellFormed := by
  intro token htoken
  rcases Postfix.forall_mem_of_ofInfix hprogram token htoken with ⟨op, rfl⟩ | ⟨-, -, hmem⟩
  · exact Token.wellFormed_ofOperator op
  · exact Token.wellFormed_of_scan hscan token hmem

/-- The tree of a calculation has only numerals and the five operators. -/
theorem wellFormed_tree_of_evaluate (h : evaluate expression = .ok calculation) :
    calculation.tree.WellFormed := by
  obtain ⟨-, tokens, hscan, hprogram, -, -⟩ := evaluate_eq_ok_iff.mp h
  exact Tree.wellFormed_of_forall_mem_postorder (wellFormed_of_ofInfix hscan hprogram)

/-- A printed tree has the value of the tree. -/
theorem evaluate_print {value : Float} (h : tree.WellFormed)
    (hvalue : tree.eval = .ok value) :
    evaluate tree.print =
      .ok { tree, value, working := .ofTokens tree.parenthesized tree.postorder } := by
  -- no tokens are read from the empty text, but a tree is printed with at least one
  have hne : tree.print ≠ "" := by
    intro hempty
    have hscan := Tree.scan_print h
    rw [hempty] at hscan
    cases h <;> cases hscan
  exact evaluate_eq_ok_iff.mpr
    ⟨hne, tree.parenthesized, Tree.scan_print h, Tree.ofInfix_parenthesized h, hvalue, rfl⟩

/-- The printed tree of a calculation is an expression with the same tree, value and postfix form,
and its own printed tree is the text that was read. -/
theorem evaluate_print_of_evaluate (h : evaluate expression = .ok calculation) :
    ∃ again, evaluate calculation.tree.print = .ok again ∧
      again.tree = calculation.tree ∧
      Value.same again.value calculation.value ∧
      again.working.rpn = calculation.working.rpn ∧
      again.tree.print = calculation.tree.print := by
  obtain ⟨-, tokens, -, -, hvalue, hworking⟩ := evaluate_eq_ok_iff.mp h
  refine ⟨_, evaluate_print (wellFormed_tree_of_evaluate h) hvalue, rfl, ?_, ?_, rfl⟩
  · simp [Value.same]
  · rw [hworking, Working.ofTokens, Working.ofTokens]

/-- An expression in postfix notation, which is no sentence, has a value and can be read again in
infix notation. -/
theorem evaluate_print_postfix_notation :
    ∃ calculation again, evaluate "1 (2.50 +) 4 -" = .ok calculation ∧
      calculation.tree.print = "((1 + 2.50) - 4)" ∧
      evaluate calculation.tree.print = .ok again ∧
      again.tree = calculation.tree ∧
      Value.same again.value calculation.value ∧
      again.working.rpn = calculation.working.rpn ∧
      again.tree.print = calculation.tree.print := by
  let tree : Tree := .node "-" (.node "+" (.leaf "1") (.leaf "2.50")) (.leaf "4")
  -- which number the value is does not matter here
  obtain ⟨value, hvalue⟩ : ∃ value, tree.eval = .ok value := by
    rw [Tree.eval_eq_fold]
    exact ⟨_, rfl⟩
  let tokens : List Token :=
    [.number "1", .leftParen, .number "2.50", .operator "+", .rightParen, .number "4",
      .operator "-"]
  have hprogram : Postfix.ofInfix tokens = .ok tree.postorder := by
    simp only [tree, Tree.postorder_node, Tree.postorder_leaf]
    rfl
  have h : evaluate "1 (2.50 +) 4 -" =
      .ok { tree, value, working := .ofTokens tokens tree.postorder } :=
    evaluate_eq_ok_iff.mpr ⟨by decide, tokens, rfl, hprogram, hvalue, rfl⟩
  obtain ⟨again, hagain⟩ := evaluate_print_of_evaluate h
  have hprint : tree.print = "((1 + 2.50) - 4)" := by
    simp only [tree, Tree.print_node, Tree.print_leaf]
    rfl
  exact ⟨_, again, h, hprint, hagain⟩

/-! ## The working -/

/-- The working of a calculation is faithful: its postfix text is read as the postorder of the tree,
and its other text is an expression with this very calculation. -/
theorem working_reads_back (h : evaluate expression = .ok calculation) :
    Token.scan calculation.working.rpn = .ok calculation.tree.postorder ∧
      Tree.ofPostfix calculation.tree.postorder = .ok calculation.tree ∧
      evaluate calculation.working.tokens = .ok calculation := by
  obtain ⟨-, tokens, hscan, hprogram, hvalue, hworking⟩ := evaluate_eq_ok_iff.mp h
  have htokens : Token.scan (Token.render tokens) = .ok tokens :=
    Token.scan_render (Token.wellFormed_of_scan hscan)
  have hrpn : Token.scan (Token.render calculation.tree.postorder) =
      .ok calculation.tree.postorder :=
    Token.scan_render (wellFormed_of_ofInfix hscan hprogram)
  -- an empty text has no tokens, and without tokens there is no tree
  have hne : Token.render tokens ≠ "" := by
    intro hempty
    rw [hempty] at htokens
    obtain rfl : [] = tokens := Except.ok.inj htokens
    have hpostorder : [] = calculation.tree.postorder := Except.ok.inj hprogram
    have htree : Tree.ofPostfix [] = .ok calculation.tree := Tree.ofPostfix_eq_ok_iff.mpr hpostorder
    cases htree
  refine ⟨?_, Tree.ofPostfix_postorder calculation.tree, ?_⟩
  · rw [hworking]
    exact hrpn
  · rw [hworking]
    exact evaluate_eq_ok_iff.mpr ⟨hne, tokens, htokens, hprogram, hvalue, hworking⟩

/-- The numerals of `1.2.3-^(7.)`, which is no sentence, stay apart in both texts. -/
theorem working_reads_back_points :
    ∃ calculation, evaluate "1.2.3-^(7.)" = .ok calculation ∧
      calculation.working.tokens = "1.2 .3 - ^ ( 7. )" ∧
      calculation.working.rpn = "1.2 .3 7. ^ -" ∧
      Token.scan calculation.working.rpn = .ok calculation.tree.postorder ∧
      Tree.ofPostfix calculation.tree.postorder = .ok calculation.tree ∧
      evaluate calculation.working.tokens = .ok calculation := by
  let tree : Tree := .node "-" (.leaf "1.2") (.node "^" (.leaf ".3") (.leaf "7."))
  obtain ⟨value, hvalue⟩ : ∃ value, tree.eval = .ok value := by
    rw [Tree.eval_eq_fold]
    exact ⟨_, rfl⟩
  let tokens : List Token :=
    [.number "1.2", .number ".3", .operator "-", .operator "^", .leftParen, .number "7.",
      .rightParen]
  have hpostorder : tree.postorder =
      [.number "1.2", .number ".3", .number "7.", .operator "^", .operator "-"] := by
    simp [tree]
  have hprogram : Postfix.ofInfix tokens = .ok tree.postorder := by
    rw [hpostorder]
    rfl
  have h : evaluate "1.2.3-^(7.)" =
      .ok { tree, value, working := .ofTokens tokens tree.postorder } :=
    evaluate_eq_ok_iff.mpr ⟨by decide, tokens, rfl, hprogram, hvalue, rfl⟩
  refine ⟨_, h, rfl, ?_, working_reads_back h⟩
  rw [hpostorder]
  rfl

end InfixCalculator
