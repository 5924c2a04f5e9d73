import InfixCalculator.Proofs.Conversion
import InfixCalculator.Proofs.Grammar
import InfixCalculator.Tree.Postfix

/-!
# The postfix form of a sentence

Converting a sentence of the grammar gives the postorder of its syntax tree, so that running the
result builds exactly this tree. The invariant is `Conversion.HasRead`: behind a phrase, the tokens
written so far and the operators of the phrase that still wait make up the postorder of its tree,
and none of these operators lies below the level of the phrase.

Conversely, a list of tokens that is converted at all is a sentence as soon as operands and
operators alternate in it. The conversion alone does not see to that.
-/

namespace InfixCalculator

open Grammar

namespace Operator

variable {op next : Operator}

/-- An addition or subtraction ends every operand on its left. -/
theorem bindsBefore_sum (hop : op = .add ∨ op = .subtract) (o : Operator) : o.bindsBefore op := by
  rcases hop with rfl | rfl <;> cases o <;> rfl

/-- An addition or subtraction waits while its right operand is at the level of terms. -/
theorem not_sum_bindsBefore (hop : op = .add ∨ op = .subtract)
    (hnext : Category.term.level ≤ next.precedence) : ¬ op.bindsBefore next := by
  revert hnext
  rcases hop with rfl | rfl <;> cases next <;> decide

/-- A multiplication or division ends every term on its left. -/
theorem bindsBefore_product (hop : op = .multiply ∨ op = .divide) {o : Operator}
    (ho : Category.term.level ≤ o.precedence) : o.bindsBefore op := by
  revert ho
  rcases hop with rfl | rfl <;> cases o <;> decide

/-- A multiplication or division waits while its right operand is at the level of factors. -/
theorem not_product_bindsBefore (hop : op = .multiply ∨ op = .divide)
    (hnext : Category.factor.level ≤ next.precedence) : ¬ op.bindsBefore next := by
  revert hnext
  rcases hop with rfl | rfl <;> cases next <;> decide

/-- Every operator waits while a power is read. -/
theorem not_bindsBefore_power (o : Operator) : ¬ o.bindsBefore .power := by
  cases o <;> decide

end Operator

namespace Conversion

/-- No waiting operator is written when an operator at the level of the category is read. -/
def Admits (state : Conversion) (category : Category) : Prop :=
  ∀ next : Operator, category.level ≤ next.precedence →
    state.waiting.takeWhile (·.bindsBefore next) = []

/-- From `state` a phrase of the category with the given syntax tree has been read. Its operators
that still wait are at the level of the category; writing them completes the postorder of the
tree. -/
def HasRead (state : Conversion) (category : Category) (tree : Tree) (final : Conversion) : Prop :=
  ∃ pending written,
    final = { state with written, waiting := pending ++ state.waiting } ∧
      (∀ op ∈ pending, category.level ≤ op.precedence) ∧
      (pending.map Token.ofOperator).reverse ++ written = tree.postorder.reverse ++ state.written

/-- The left operand of an operator has been read and written, and the operator waits. -/
def await (state : Conversion) (left : Tree) (op : Operator) : Conversion :=
  { state with
    written := left.postorder.reverse ++ state.written
    waiting := op :: state.waiting }

/-- Where nothing waits, every operator may be read. -/
theorem admits_of_waiting_eq_nil {state : Conversion} (h : state.waiting = [])
    (category : Category) : state.Admits category := by
  intro next _
  rw [h, List.takeWhile_nil]

/-- What may be read at some level may be read at every higher one. -/
theorem Admits.mono {state : Conversion} {category higher : Category} (h : state.Admits category)
    (hle : category.level ≤ higher.level) : state.Admits higher :=
  fun next hnext => h next (Nat.le_trans hle hnext)

/-- A phrase of some level is read as one of every lower level. -/
theorem HasRead.mono {state final : Conversion} {category lower : Category} {tree : Tree}
    (h : state.HasRead category tree final) (hle : lower.level ≤ category.level) :
    state.HasRead lower tree final := by
  obtain ⟨pending, written, hfinal, hlevel, hwritten⟩ := h
  exact ⟨pending, written, hfinal, fun op hop => Nat.le_trans hle (hlevel op hop), hwritten⟩

/-- Behind an operator, its right operand may be read at every level at which the operator waits. -/
theorem admits_await {state : Conversion} {category : Category} {left : Tree} {op : Operator}
    (h : ∀ {next : Operator}, category.level ≤ next.precedence → ¬ op.bindsBefore next) :
    (state.await left op).Admits category := by
  intro next hnext
  exact List.takeWhile_cons_of_neg (h hnext)

/-- An operator has its left operand once it writes all operators of that operand, and only
those. -/
theorem HasRead.read_operator {state mid : Conversion} {category : Category} {left : Tree}
    {op : Operator} (h : state.HasRead category left mid)
    (hleft : ∀ o : Operator, category.level ≤ o.precedence → o.bindsBefore op)
    (hstate : state.waiting.takeWhile (·.bindsBefore op) = []) :
    mid.read (.ofOperator op) = .ok (state.await left op) := by
  obtain ⟨pending, written, rfl, hlevel, hwritten⟩ := h
  have hbinds : ∀ o ∈ pending, o.bindsBefore op := fun o ho => hleft o (hlevel o ho)
  -- the operators of the left operand are written, and the first one before them stops the writing
  have htake : (pending ++ state.waiting).takeWhile (·.bindsBefore op) = pending := by
    rw [List.takeWhile_append_of_pos hbinds, hstate, List.append_nil]
  have hdrop : (pending ++ state.waiting).dropWhile (·.bindsBefore op) = state.waiting := by
    have hsplit := List.takeWhile_append_dropWhile (p := (·.bindsBefore op)) (l := state.waiting)
    rw [hstate, List.nil_append] at hsplit
    rw [List.dropWhile_append_of_pos hbinds, hsplit]
  rw [read_eq_ok_iff.mpr (.operator op)]
  simp only [wait, write, await, htake, hdrop, hwritten]

/-- An operation has been read once the right operand of its waiting operator has. -/
theorem HasRead.node {state final : Conversion} {category tighter : Category} {left right : Tree}
    {op : Operator} (h : (state.await left op).HasRead tighter right final)
    (hop : category.level ≤ op.precedence) (hle : category.level ≤ tighter.level) :
    state.HasRead category (.node op.text left right) final := by
  obtain ⟨pending, written, rfl, hlevel, hwritten⟩ := h
  refine ⟨pending ++ [op], written, ?_, ?_, ?_⟩
  · simp [await]
  · intro o ho
    rcases List.mem_append.mp ho with ho | ho
    · exact Nat.le_trans hle (hlevel o ho)
    · rwa [List.mem_singleton.mp ho]
  · simpa [await, Token.ofOperator] using hwritten

/-- A closing parenthesis writes what waits in its group. -/
theorem HasRead.read_rightParen {state inner : Conversion} {category : Category} {tree : Tree}
    (h : state.enter.HasRead category tree inner) :
    inner.read .rightParen =
      .ok { state with written := tree.postorder.reverse ++ state.written } := by
  obtain ⟨pending, written, rfl, _, hwritten⟩ := h
  rw [read_eq_ok_iff.mpr (.rightParen rfl)]
  simp only [leave, write, enter, List.append_nil] at hwritten ⊢
  rw [hwritten]

/-- An operation is read by reading its left operand, its operator and its right operand, if the
operator writes what waits in the left operand and nothing before it. -/
theorem HasRead.operation {state mid final : Conversion} {category leftmost tighter : Category}
    {left right : List Token} {a b : Tree} {op : Operator} (hstate : state.Admits category)
    (hop : category.level ≤ op.precedence) (hle : category.level ≤ tighter.level)
    (hbinds : ∀ o : Operator, leftmost.level ≤ o.precedence → o.bindsBefore op)
    (hleft : left.foldlM read state = .ok mid) (ha : state.HasRead leftmost a mid)
    (hright : right.foldlM read (state.await a op) = .ok final)
    (hb : (state.await a op).HasRead tighter b final) :
    (left ++ .ofOperator op :: right).foldlM read state = .ok final ∧
      state.HasRead category (.node op.text a b) final := by
  refine ⟨?_, hb.node hop hle⟩
  rw [Fallible.foldlM_append_of_ok hleft,
    Fallible.foldlM_cons_of_ok (ha.read_operator hbinds (hstate op hop)), hright]

/-- A phrase is read wherever its operators leave those that already wait alone. -/
theorem exists_hasRead_of_derives {category : Category} {tokens : List Token} {tree : Tree}
    (h : Derives category tokens tree) (state : Conversion) (hstate : state.Admits category) :
    ∃ final, tokens.foldlM read state = .ok final ∧ state.HasRead category tree final := by
  -- a right operand is read behind its operator and a group behind its parenthesis, hence the
  -- induction over all states
  induction h generalizing state with
  | @sum op left right a b hop _ _ iha ihb =>
    obtain ⟨mid, hleft, ha⟩ := iha state hstate
    obtain ⟨final, hright, hb⟩ :=
      ihb (state.await a op) (admits_await (Operator.not_sum_bindsBefore hop))
    exact ⟨final, HasRead.operation hstate (Category.expr_le op) (by decide)
      (fun o _ => Operator.bindsBefore_sum hop o) hleft ha hright hb⟩
  | @product op left right a b hop _ _ iha ihb =>
    obtain ⟨mid, hleft, ha⟩ := iha state hstate
    obtain ⟨final, hright, hb⟩ :=
      ihb (state.await a op) (admits_await (Operator.not_product_bindsBefore hop))
    have hlevel : Category.term.level ≤ op.precedence := by
      rcases hop with rfl | rfl <;> decide
    exact ⟨final, HasRead.operation hstate hlevel (by decide)
      (fun _ ho => Operator.bindsBefore_product hop ho) hleft ha hright hb⟩
  | @power left right a b _ _ iha ihb =>
    obtain ⟨mid, hleft, ha⟩ := iha state (hstate.mono (by decide))
    obtain ⟨final, hright, hb⟩ :=
      ihb (state.await a .power) (admits_await fun hnext =>
        Category.eq_power_of_factor_le hnext ▸ Operator.not_bindsBefore_power .power)
    -- no operator of an operand waits behind it
    exact ⟨final, HasRead.operation hstate (by decide) (by decide)
      (fun o ho => absurd ho (Category.not_unary_le o)) hleft ha hright hb⟩
  | ofTerm _ ih =>
    obtain ⟨final, hread, h⟩ := ih state (hstate.mono (by decide))
    exact ⟨final, hread, h.mono (by decide)⟩
  | ofFactor _ ih =>
    obtain ⟨final, hread, h⟩ := ih state (hstate.mono (by decide))
    exact ⟨final, hread, h.mono (by decide)⟩
  | ofUnary _ ih =>
    obtain ⟨final, hread, h⟩ := ih state (hstate.mono (by decide))
    exact ⟨final, hread, h.mono (by decide)⟩
  | number text =>
    exact ⟨{ state with written := .number text :: state.written }, rfl,
      [], _, rfl, by simp, by simp⟩
  | @group tokens a _ ih =>
    -- nothing waits in the new group, and closing it writes all of its operators
    obtain ⟨final, hread, h⟩ := ih state.enter (admits_of_waiting_eq_nil rfl _)
    refine ⟨{ state with written := a.postorder.reverse ++ state.written }, ?_,
      [], _, rfl, by simp, rfl⟩
    rw [List.cons_append, Fallible.foldlM_cons_of_ok (read_eq_ok_iff.mpr .leftParen),
      Fallible.foldlM_append_of_ok hread, Fallible.foldlM_cons_of_ok h.read_rightParen]
    rfl

end Conversion

/-- The postfix form of a sentence is the postorder of its syntax tree. -/
theorem Postfix.ofInfix_of_derives {tokens : List Token} {tree : Tree}
    (h : Derives .expr tokens tree) : ofInfix tokens = .ok tree.postorder := by
  obtain ⟨final, hread, pending, written, rfl, _, hwritten⟩ :=
    Conversion.exists_hasRead_of_derives h {} (Conversion.admits_of_waiting_eq_nil rfl _)
  -- nothing was written or waited before, so writing what still waits gives the whole postorder
  refine ofInfix_eq_ok_iff.mpr ⟨_, hread, rfl, ?_⟩
  simp only [Conversion.write, List.append_nil, hwritten, List.reverse_reverse]

/-- A sentence is converted to the postorder of its syntax tree, and the tree is built again. -/
theorem Grammar.Derives.conversion_builds_tree {tokens : List Token} {tree : Tree}
    (h : Derives .expr tokens tree) :
    Postfix.ofInfix tokens = .ok tree.postorder ∧ Tree.ofPostfix tree.postorder = .ok tree :=
  ⟨Postfix.ofInfix_of_derives h, Tree.ofPostfix_postorder tree⟩

/-- All three levels and both associativities meet in `(2 - 3 - 4) ^ 5 ^ .6 / 7 / 8 + 9`. -/
theorem Grammar.conversion_builds_tree_mixed :
    let tokens : List Token :=
      [.leftParen, .number "2", .operator "-", .number "3", .operator "-", .number "4", .rightParen,
        .operator "^", .number "5", .operator "^", .number ".6", .operator "/", .number "7",
        .operator "/", .number "8", .operator "+", .number "9"]
    let tree : Tree :=
      .node "+"
        (.node "/"
          (.node "/"
            (.node "^" (.node "-" (.node "-" (.leaf "2") (.leaf "3")) (.leaf "4"))
              (.node "^" (.leaf "5") (.leaf ".6")))
            (.leaf "7"))
          (.leaf "8"))
        (.leaf "9")
    Derives .expr tokens tree ∧ Postfix.ofInfix tokens = .ok tree.postorder ∧
      Tree.ofPostfix tree.postorder = .ok tree := by
  intro tokens tree
  have number (text : String) : Derives .factor [.number text] (.leaf text) :=
    (Derives.number text).ofUnary
  have group := Derives.group <|
    Derives.sum (.inr rfl) (.sum (.inr rfl) (number "2").ofFactor.ofTerm (number "3").ofFactor)
      (number "4").ofFactor
  have product := Derives.product (.inr rfl)
    (.product (.inr rfl) (Derives.power group (.power (.number "5") (number ".6"))).ofFactor
      (number "7")) (number "8")
  have h : Derives .expr tokens tree :=
    Derives.sum (.inl rfl) product.ofTerm (number "9").ofFactor
  exact ⟨h, h.conversion_builds_tree⟩

end InfixCalculator
