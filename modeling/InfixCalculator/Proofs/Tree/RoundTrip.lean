import InfixCalculator.Proofs.Grammar.Postfix
import InfixCalculator.Proofs.Lexer
import InfixCalculator.Tree.Printer

/-!
# Printing a tree and reading it again

To print a tree, a list is kept of the pieces that are still to be printed. What comes of it is what
a recursion over the tree gives: `Tree.print_by_recursion`.

A printed tree is a sentence of the grammar, and its syntax tree is the tree that was printed. Since
every operation is printed in parentheses, no precedence is needed to read it; what has to be seen
is that no numeral runs into its neighbours (`Tree.scan_print`).

This holds of the trees whose leaves are numerals and whose operations are the five operators
(`Tree.WellFormed`), and on these trees printing is injective (`Tree.print_inj`).
-/

namespace InfixCalculator

open Grammar

namespace Tree

/-! ## Printing by recursion -/

/-- The text in infix notation by recursion. -/
def formula : Tree → String
  | leaf text => text
  | node symbol left right => "(" ++ left.formula ++ " " ++ symbol ++ " " ++ right.formula ++ ")"

theorem formula_eq_print (tree : Tree) : tree.formula = tree.print := by
  induction tree with
  | leaf text => rw [formula, print_leaf]
  | node symbol left right ihl ihr => rw [formula, print_node, ihl, ihr]

/-- A tree is printed as the recursion says, whatever the texts at its nodes are. The pieces that
are still pending when its turn comes do not matter: they are printed behind it. -/
theorem print_by_recursion (tree : Tree) :
    tree.print = tree.formula ∧
      ∀ (pending : List Piece) (printed : String),
        printOnto (.subtree tree :: pending) printed =
          printOnto pending (printed ++ tree.formula) := by
  refine ⟨tree.formula_eq_print.symm, fun pending printed => ?_⟩
  rw [formula_eq_print, printOnto_eq, printOnto_eq, List.map_cons, String.join_cons, Piece.print,
    String.append_assoc]

/-! ## Reading what was printed -/

/-- The leaves are numerals, and the operations are additions, subtractions, multiplications,
divisions and powers. -/
inductive WellFormed : Tree → Prop
  | leaf {text : String} (h : Numeral.isNumeral text.toList) : WellFormed (.leaf text)
  | node (op : Operator) {left right : Tree} :
      WellFormed left → WellFormed right → WellFormed (.node op.text left right)

/-- A tree is well-formed if every token of its postfix form is. -/
theorem wellFormed_of_forall_mem_postorder {tree : Tree}
    (h : ∀ token ∈ tree.postorder, token.WellFormed) : tree.WellFormed := by
  induction tree with
  | leaf text => exact .leaf (h (.number text) (by simp))
  | node symbol left right ihl ihr =>
    rw [postorder_node] at h
    obtain ⟨op, rfl⟩ := h (.operator symbol) (by simp)
    refine .node op (ihl fun token htoken => ?_) (ihr fun token htoken => ?_)
    · exact h token (by simp [htoken])
    · exact h token (by simp [htoken])

/-- The tokens of a printed tree. -/
def parenthesized : Tree → List Token
  | leaf text => [.number text]
  | node symbol left right =>
    .leftParen :: (left.parenthesized ++ .operator symbol :: right.parenthesized) ++ [.rightParen]

/-- A printed tree is an operand of the grammar, and the tree is its syntax tree. -/
theorem derives_parenthesized {tree : Tree} (h : tree.WellFormed) :
    Derives .unary tree.parenthesized tree := by
  induction h with
  | leaf => exact .number _
  | node op _ _ ihl ihr => exact (ihl.operation op ihr).group

/-- Every boundary between the parts of a printed operation ends or begins with a character of no
numeral, so that its parts are read one after the other. -/
theorem scan_print {tree : Tree} (h : tree.WellFormed) :
    Token.scan tree.print = .ok tree.parenthesized := by
  induction h with
  | leaf h =>
    rw [print_leaf]
    exact Token.scan_number h
  | @node op left right _ _ ihl ihr =>
    -- a parenthesis belongs to no numeral, and neither does a space around the operator
    have hbegins : Token.Separated "(" left.print :=
      Token.separated_of_getLast? (c := '(') rfl (by decide) left.print
    have hends (front : String) : Token.Separated front ")" :=
      Token.separated_of_head? (c := ')') rfl (by decide) front
    have hopen : Token.scan ("(" ++ left.print) = .ok ([.leftParen] ++ left.parenthesized) :=
      Token.scan_append_of_ok hbegins rfl ihl
    have hinside := Token.scan_append_space
      (Token.scan_append_space hopen (Token.scan_operator op)) ihr
    have hclose : Token.scan ")" = .ok [.rightParen] := rfl
    rw [print_node, Token.scan_append_of_ok (hends _) hinside hclose, parenthesized]
    simp [Token.ofOperator]

/-- The postfix form of a printed tree is its postorder. -/
theorem ofInfix_parenthesized {tree : Tree} (h : tree.WellFormed) :
    Postfix.ofInfix tree.parenthesized = .ok tree.postorder :=
  Postfix.ofInfix_of_derives (derives_parenthesized h).expr_of_unary

theorem print_inj {tree tree' : Tree} (h : tree.WellFormed) (h' : tree'.WellFormed) :
    tree.print = tree'.print ↔ tree = tree' := by
  refine ⟨fun hprint => ?_, fun htree => htree ▸ rfl⟩
  -- equal texts have equal tokens, equal tokens equal postfix forms, and these the same tree
  have hscan : Except.ok (ε := CalcError) tree.parenthesized = .ok tree'.parenthesized := by
    rw [← scan_print h, hprint, scan_print h']
  have hpostfix : Except.ok (ε := CalcError) tree.postorder = .ok tree'.postorder := by
    rw [← ofInfix_parenthesized h, Except.ok.inj hscan, ofInfix_parenthesized h']
  exact postorder_inj.mp (Except.ok.inj hpostfix)

/-- A printed tree is read back as this tree, and no other well-formed tree is printed alike. -/
theorem WellFormed.print_reads_back {tree : Tree} (h : tree.WellFormed) :
    (∃ tokens, Token.scan tree.print = .ok tokens ∧
      Postfix.ofInfix tokens = .ok tree.postorder ∧ ofPostfix tree.postorder = .ok tree) ∧
    ∀ other : Tree, other.WellFormed → other.print = tree.print → other = tree := by
  refine ⟨⟨tree.parenthesized, scan_print h, ofInfix_parenthesized h, ofPostfix_postorder tree⟩, ?_⟩
  intro other hother hprint
  exact (print_inj hother h).mp hprint

/-- The leaves of `((. ^ 1.) - (.5 / (0 * 2.50)))` are read back character for character. -/
theorem print_reads_back_points :
    let tree : Tree :=
      .node "-" (.node "^" (.leaf ".") (.leaf "1."))
        (.node "/" (.leaf ".5") (.node "*" (.leaf "0") (.leaf "2.50")))
    tree.WellFormed ∧
      (∃ tokens, Token.scan tree.print = .ok tokens ∧
        Postfix.ofInfix tokens = .ok tree.postorder ∧ ofPostfix tree.postorder = .ok tree) ∧
      ∀ other : Tree, other.WellFormed → other.print = tree.print → other = tree := by
  intro tree
  have h : tree.WellFormed :=
    .node .subtract (.node .power (.leaf (by decide)) (.leaf (by decide)))
      (.node .divide (.leaf (by decide)) (.node .multiply (.leaf (by decide)) (.leaf (by decide))))
  exact ⟨h, h.print_reads_back⟩

end Tree

end InfixCalculator
