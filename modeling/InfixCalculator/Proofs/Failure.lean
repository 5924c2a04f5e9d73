import InfixCalculator.Proofs.Arithmetic
import InfixCalculator.Proofs.Calculation
import InfixCalculator.Proofs.Parentheses

/-!
# How an evaluation fails

The stages of an evaluation check one thing each, and the first that fails decides: characters that
are foreign to expressions, then parentheses, then the number of operands, then the values.
`evaluate_cases` sorts all expressions by the first two checks, and `evaluate_failures` says of each
error which expressions it is given for. An unknown operator is never met, because only the five
symbols are read as operators.

An expression of the grammar whose numerals all have a digit can only fail by a division by zero
(`Grammar.Derives.evaluate_value_or_divisionByZero`).
-/

namespace InfixCalculator

variable {expression : String} {tokens program : List Token} {tree : Tree} {error : CalcError}

/-- An evaluation fails with the error of the first stage that fails. -/
theorem evaluate_eq_error_iff (hne : expression ≠ "") :
    evaluate expression = .error error ↔
      Token.scan expression = .error error ∨
        ∃ tokens, Token.scan expression = .ok tokens ∧
          (Postfix.ofInfix tokens = .error error ∨
            ∃ program, Postfix.ofInfix tokens = .ok program ∧
              (Tree.ofPostfix program = .error error ∨
                ∃ tree, Tree.ofPostfix program = .ok tree ∧ tree.eval = .error error)) := by
  have hreturn (value : Float) (tokens program : List Token) (tree : Tree) :
      (pure { tree, value, working := .ofTokens tokens program } :
        Except CalcError Calculation) ≠ .error error := nofun
  rw [evaluate_eq hne]
  simp only [Fallible.bind_eq_error_iff, hreturn, and_false, exists_false, or_false]

/-! ## Stages -/

/-- Tokens that were read can be converted unless their parentheses are not balanced. -/
theorem not_balanced_of_ofInfix_scan (hscan : Token.scan expression = .ok tokens)
    (h : Postfix.ofInfix tokens = .error error) :
    error = .unbalancedParentheses ∧ ¬ Balanced '(' ')' expression.toList := by
  rw [← Token.balanced_of_scan_iff hscan]
  exact Postfix.not_balanced_of_ofInfix_eq_error h
    fun _ hmem => Token.wellFormed_of_scan hscan _ hmem

theorem evaluate_of_scan_eq_error (hne : expression ≠ "")
    (h : Token.scan expression = .error error) :
    ∃ c, expression.toList.find? Token.isForeign = some c ∧
      evaluate expression = .error (.invalidCharacter c) := by
  obtain ⟨c, hfind, rfl⟩ := Token.scan_eq_error_iff.mp h
  exact ⟨c, hfind, (evaluate_eq_error_iff hne).mpr (.inl h)⟩

theorem evaluate_of_ofInfix_eq_error (hne : expression ≠ "")
    (hscan : Token.scan expression = .ok tokens) (h : Postfix.ofInfix tokens = .error error) :
    evaluate expression = .error .unbalancedParentheses ∧ ¬ Balanced '(' ')' expression.toList := by
  obtain ⟨rfl, hbalanced⟩ := not_balanced_of_ofInfix_scan hscan h
  exact ⟨(evaluate_eq_error_iff hne).mpr (.inr ⟨tokens, hscan, .inl h⟩), hbalanced⟩

/-- Behind the conversion an evaluation only fails in one of four ways. -/
theorem mem_of_ofPostfix_or_eval (hscan : Token.scan expression = .ok tokens)
    (hprogram : Postfix.ofInfix tokens = .ok program)
    (h : Tree.ofPostfix program = .error error ∨
      ∃ tree, Tree.ofPostfix program = .ok tree ∧ tree.eval = .error error) :
    error ∈ [.missingOperands, .malformedExpression, .invalidNumeral ".", .divisionByZero] := by
  have hwellFormed := wellFormed_of_ofInfix hscan hprogram
  have hmem := Postfix.forall_mem_of_ofInfix hprogram
  rcases h with hbuild | ⟨tree, htree, hvalue⟩
  · -- a postfix form has no parentheses
    have hparen {paren : Token} (h : paren = .leftParen ∨ paren = .rightParen) :
        paren ∉ program := by
      intro hparen
      rcases hmem paren hparen with ⟨op, rfl⟩ | ⟨text, rfl, -⟩ <;> simp [Token.ofOperator] at h
    rcases Tree.ofPostfix_eq_error hbuild (hparen (.inl rfl)) (hparen (.inr rfl)) with rfl | rfl <;>
      simp
  · obtain rfl := Tree.ofPostfix_eq_ok_iff.mp htree
    rw [Tree.eval_eq_fold] at hvalue
    rcases (Tree.wellFormed_of_forall_mem_postorder hwellFormed).fold_eq_error hvalue with
      rfl | ⟨text, htext, hnone, rfl⟩
    · simp
    · -- a numeral without a value is the point alone
      have hpoint := Numeral.eq_point_of_not_denotes (hwellFormed _ htext) hnone
      obtain rfl : text = "." := String.toList_inj.mp hpoint
      simp

/-- Once its tokens are converted, an evaluation only fails in one of these ways. -/
theorem mem_of_evaluate_eq_error (hne : expression ≠ "")
    (hscan : Token.scan expression = .ok tokens)
    (hprogram : Postfix.ofInfix tokens = .ok program) (h : evaluate expression = .error error) :
    error ∈ [.missingOperands, .malformedExpression, .invalidNumeral ".", .divisionByZero] := by
  have hlater := (evaluate_eq_error_iff hne).mp h
  simp only [hscan, hprogram, reduceCtorEq, false_or, Except.ok.injEq, exists_eq_left'] at hlater
  exact mem_of_ofPostfix_or_eval hscan hprogram hlater

/-! ## Every expression -/

/-- Every expression is empty, or has a foreign character, or parentheses that are not balanced, or
can only fail in the later stages. The stages are asked in this order. -/
theorem evaluate_cases (expression : String) :
    expression = "" ∧ evaluate expression = .error .emptyExpression ∨
      (∃ c, expression.toList.find? Token.isForeign = some c ∧
        evaluate expression = .error (.invalidCharacter c)) ∨
      (expression.toList.find? Token.isForeign = none ∧ ¬ Balanced '(' ')' expression.toList ∧
        evaluate expression = .error .unbalancedParentheses) ∨
      (expression ≠ "" ∧ expression.toList.find? Token.isForeign = none ∧
        Balanced '(' ')' expression.toList ∧
        ∀ error, evaluate expression = .error error → error ∈
          [.missingOperands, .malformedExpression, .invalidNumeral ".", .divisionByZero]) := by
  by_cases hne : expression = ""
  · subst hne
    exact .inl ⟨rfl, evaluate_empty⟩
  refine .inr ?_
  cases hscan : Token.scan expression with
  | error error => exact .inl (evaluate_of_scan_eq_error hne hscan)
  | ok tokens =>
    refine .inr ?_
    have hfind : expression.toList.find? Token.isForeign = none := by
      cases hfind : expression.toList.find? Token.isForeign with
      | none => rfl
      | some c => cases hscan.symm.trans (Token.scan_eq_error_iff.mpr ⟨c, hfind, rfl⟩)
    cases hprogram : Postfix.ofInfix tokens with
    | error error =>
      obtain ⟨herror, hbalanced⟩ := evaluate_of_ofInfix_eq_error hne hscan hprogram
      exact .inl ⟨hfind, hbalanced, herror⟩
    | ok program =>
      have hbalanced := (Token.balanced_of_scan_iff hscan).mp (Postfix.balanced_of_ofInfix hprogram)
      exact .inr ⟨hne, hfind, hbalanced, fun _ => mem_of_evaluate_eq_error hne hscan hprogram⟩

/-- Which expressions each error is given for: characters come before parentheses, and parentheses
before everything else. -/
theorem evaluate_failures (expression : String) :
    (evaluate expression = .error .emptyExpression ↔ expression = "") ∧
    (∀ c, evaluate expression = .error (.invalidCharacter c) ↔
      expression.toList.find? Token.isForeign = some c) ∧
    (evaluate expression = .error .unbalancedParentheses ↔
      expression.toList.find? Token.isForeign = none ∧ ¬ Balanced '(' ')' expression.toList) ∧
    (expression ≠ "" → expression.toList.find? Token.isForeign = none →
      Balanced '(' ')' expression.toList → ∀ error, evaluate expression = .error error → error ∈
        [.missingOperands, .malformedExpression, .invalidNumeral ".", .divisionByZero]) ∧
    ∀ symbol, evaluate expression ≠ .error (.unknownOperator symbol) := by
  have hempty : Balanced '(' ')' ([] : List Char) := by decide
  rcases evaluate_cases expression with
    ⟨rfl, herror⟩ | ⟨c, hfind, herror⟩ | ⟨hfind, hbalanced, herror⟩ | ⟨hne, hfind, hbalanced, hrest⟩
  · simp [herror, hempty]
  · have hne : expression ≠ "" := by
      rintro rfl
      cases hfind
    simp [herror, hfind, hne]
  · have hne : expression ≠ "" := by
      rintro rfl
      exact hbalanced hempty
    simp [herror, hfind, hbalanced, hne]
  · -- every other error than the last four is excluded
    have hother {error : CalcError} (h : error ∉
        [.missingOperands, .malformedExpression, .invalidNumeral ".", .divisionByZero]) :
        evaluate expression ≠ .error error := fun herror => h (hrest error herror)
    refine ⟨?_, fun c => ?_, ?_, fun _ _ _ => hrest, fun symbol => hother (by simp)⟩
    · exact iff_of_false (hother (by simp)) hne
    · exact iff_of_false (hother (by simp)) (by simp [hfind])
    · exact iff_of_false (hother (by simp)) fun h => h.2 hbalanced

/-- In `1 / (. - 2)` the characters and the parentheses are in order, and the point alone is no
number. In `)1 é (` neither are, and the character comes first. -/
theorem evaluate_failures_point :
    (∃ error, evaluate "1 / (. - 2)" = .error error ∧ error ∈
      [.missingOperands, .malformedExpression, .invalidNumeral ".", .divisionByZero]) ∧
    evaluate ")1 é (" = .error (.invalidCharacter 'é') := by
  have hfails : evaluate "1 / (. - 2)" = .error (.invalidNumeral ".") := by
    let tree : Tree := .node "/" (.leaf "1") (.node "-" (.leaf ".") (.leaf "2"))
    have hprogram : Postfix.ofInfix
        [.number "1", .operator "/", .leftParen, .number ".", .operator "-", .number "2",
          .rightParen] = .ok tree.postorder := by
      simp only [tree, Tree.postorder_node, Tree.postorder_leaf]
      rfl
    rw [evaluate_eq_of_postorder (by decide) rfl hprogram]
    rfl
  refine ⟨⟨_, hfails, ?_⟩, ?_⟩
  · exact (evaluate_failures _).2.2.2.1 (by decide) (by decide) (by decide) _ hfails
  · exact ((evaluate_failures _).2.1 'é').mpr (by decide)

/-! ## Sentences of the grammar -/

open Grammar

/-- A sentence whose numerals have digits has its syntax tree and the value of this tree, or it
fails with a division by zero; and it fails exactly if its tree divides by zero. -/
theorem Grammar.Derives.evaluate_value_or_divisionByZero (h : Derives .expr tokens tree)
    (hscan : Token.scan expression = .ok tokens)
    (hdigit : ∀ text, .number text ∈ tokens → ∃ c ∈ text.toList, c.isDigit) :
    ((∃ calculation, evaluate expression = .ok calculation ∧ calculation.tree = tree ∧
        tree.fold arithmetic = .ok calculation.value) ∨
      evaluate expression = .error .divisionByZero) ∧
    (evaluate expression = .error .divisionByZero ↔ tree.DividesByZero) := by
  have hprogram := Postfix.ofInfix_of_derives h
  -- no tokens are read from the empty text, but no sentence is empty
  have hne : expression ≠ "" := by
    rintro rfl
    obtain rfl : [] = tokens := Except.ok.inj hscan
    exact absurd h.alternates (by decide)
  have hwellFormed : tree.WellFormed :=
    Tree.wellFormed_of_forall_mem_postorder (wellFormed_of_ofInfix hscan hprogram)
  have hleaves : ∀ text, .number text ∈ tree.postorder → Numeral.denotes text.toList := by
    intro text htext
    obtain ⟨op, hop⟩ | ⟨-, -, hmem⟩ := Postfix.forall_mem_of_ofInfix hprogram _ htext
    · cases hop
    · have hnumeral : Numeral.isNumeral text.toList := Token.wellFormed_of_scan hscan _ hmem
      simpa [Numeral.denotes, hnumeral] using hdigit text hmem
  have hevaluate := evaluate_eq_of_postorder hne hscan hprogram
  have herror : evaluate expression = .error .divisionByZero ↔
      tree.fold arithmetic = .error .divisionByZero := by
    rw [hevaluate, Fallible.bind_eq_error_iff]
    refine or_iff_left ?_
    rintro ⟨value, -, hreturn⟩
    cases hreturn
  rw [herror]
  refine ⟨?_, Tree.fold_eq_divisionByZero_iff hwellFormed hleaves⟩
  refine (Tree.fold_eq_ok_or_divisionByZero hwellFormed hleaves).imp_left ?_
  rintro ⟨value, hvalue⟩
  refine ⟨{ tree, value, working := .ofTokens tokens tree.postorder }, ?_, rfl, hvalue⟩
  rw [hevaluate, hvalue]
  rfl

/-- The divisor in `1 - 6 / (.5 * 2 - 1)` is zero. -/
theorem evaluate_divisionByZero_divisor :
    ∃ tokens tree, Token.scan "1 - 6 / (.5 * 2 - 1)" = .ok tokens ∧ Derives .expr tokens tree ∧
      tree.DividesByZero ∧ evaluate "1 - 6 / (.5 * 2 - 1)" = .error .divisionByZero := by
  let divisor : Tree := .node "-" (.node "*" (.leaf ".5") (.leaf "2")) (.leaf "1")
  have number (text : String) : Derives .factor [.number text] (.leaf text) :=
    (Derives.number text).ofUnary
  have hdivisor := Derives.sum (.inr rfl)
    (Derives.product (.inl rfl) (number ".5").ofFactor (number "2")).ofTerm (number "1").ofFactor
  have h := Derives.sum (.inr rfl) (number "1").ofFactor.ofTerm
    (.product (.inr rfl) (number "6").ofFactor hdivisor.group.ofUnary)
  have hzero : ∃ value, divisor.fold arithmetic = .ok value ∧
      Binary64.ofFloat value = .finite false 0 := by
    refine ⟨_, rfl, ?_⟩
    decide +kernel
  obtain ⟨value, hvalue, hzero⟩ := hzero
  have hdivides : Tree.DividesByZero (.node "-" (.leaf "1") (.node "/" (.leaf "6") divisor)) :=
    ⟨.leaf "6", divisor, value, false, .right .whole, hvalue, hzero⟩
  refine ⟨_, _, rfl, h, hdivides, (h.evaluate_value_or_divisionByZero rfl ?_).2.mpr hdivides⟩
  intro text htext
  simp only [Token.ofOperator, List.mem_append, List.mem_cons, List.not_mem_nil, Token.number.injEq,
    reduceCtorEq, or_false, false_or] at htext
  rcases htext with rfl | rfl | (rfl | rfl) | rfl <;> exact List.any_eq_true.mp (by decide)

end InfixCalculator
