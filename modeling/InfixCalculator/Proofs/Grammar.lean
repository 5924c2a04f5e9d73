import InfixCalculator.Tree

/-!
# The grammar of expressions

Expressions are sums of products of powers. Sums and products group from the left, powers from the
right, and parentheses make an operand of any expression. `Grammar.Derives` lists the rules together
with the syntax tree that each of them builds; nothing in it refers to stacks or precedences.

Whether a list of tokens is a sentence shows locally once its parentheses match:
`Grammar.alternates` checks that operands and operators alternate. One direction is
`Derives.alternates_append`; for the other, `Beginning` describes what may stand to the left of a
token, and `Derives.append_operator` adds one more operand to a sentence.
-/

namespace InfixCalculator

namespace Grammar

/-- The syntactic categories, from the loosest to the tightest: sums, products, powers, operands. -/
inductive Category where
  | expr
  | term
  | factor
  | unary
  deriving DecidableEq, Repr

/-- The least precedence that an operator outside all parentheses of a phrase can have. -/
def Category.level : Category → Nat
  | expr => 1
  | term => 2
  | factor => 3
  | unary => 4

namespace Category

variable {op : Operator}

/-- Additions and subtractions are the operators below the level of terms. -/
theorem sum_or_term_le (op : Operator) :
    (op = .add ∨ op = .subtract) ∨ term.level ≤ op.precedence := by
  cases op <;> decide

/-- Of the operators at the level of terms, multiplications and divisions are those below the level
of factors. -/
theorem product_or_factor_le (h : term.level ≤ op.precedence) :
    (op = .multiply ∨ op = .divide) ∨ factor.level ≤ op.precedence := by
  revert h
  cases op <;> decide

/-- The power is the only operator at the level of factors. -/
theorem eq_power_of_factor_le (h : factor.level ≤ op.precedence) : op = .power := by
  revert h
  cases op <;> decide

/-- Every operator is at the level of expressions. -/
theorem expr_le (op : Operator) : expr.level ≤ op.precedence := by
  cases op <;> decide

/-- No operator is at the level of operands. -/
theorem not_unary_le (op : Operator) : ¬ unary.level ≤ op.precedence := by
  cases op <;> decide

end Category

/-- The tokens form a phrase of the category, and the tree is its syntax tree. A numeral may have
any text, and parentheses leave no trace in the tree. -/
inductive Derives : Category → List Token → Tree → Prop
  | sum {op : Operator} {left right : List Token} {a b : Tree}
      (hop : op = .add ∨ op = .subtract) :
      Derives .expr left a → Derives .term right b →
      Derives .expr (left ++ .ofOperator op :: right) (.node op.text a b)
  | ofTerm {tokens : List Token} {a : Tree} : Derives .term tokens a → Derives .expr tokens a
  | product {op : Operator} {left right : List Token} {a b : Tree}
      (hop : op = .multiply ∨ op = .divide) :
      Derives .term left a → Derives .factor right b →
      Derives .term (left ++ .ofOperator op :: right) (.node op.text a b)
  | ofFactor {tokens : List Token} {a : Tree} : Derives .factor tokens a → Derives .term tokens a
  | power {left right : List Token} {a b : Tree} :
      Derives .unary left a → Derives .factor right b →
      Derives .factor (left ++ .ofOperator .power :: right) (.node Operator.power.text a b)
  | ofUnary {tokens : List Token} {a : Tree} : Derives .unary tokens a → Derives .factor tokens a
  | number (text : String) : Derives .unary [.number text] (.leaf text)
  | group {tokens : List Token} {a : Tree} : Derives .expr tokens a →
      Derives .unary (.leftParen :: tokens ++ [.rightParen]) a

/-- An operand is an expression. -/
theorem Derives.expr_of_unary {tokens : List Token} {a : Tree} (h : Derives .unary tokens a) :
    Derives .expr tokens a :=
  h.ofUnary.ofFactor.ofTerm

/-- Any operation on two operands is an expression. -/
theorem Derives.operation (op : Operator) {left right : List Token} {a b : Tree}
    (ha : Derives .unary left a) (hb : Derives .unary right b) :
    Derives .expr (left ++ .ofOperator op :: right) (.node op.text a b) := by
  rcases Category.sum_or_term_le op with hsum | hterm
  · exact .sum hsum ha.expr_of_unary hb.ofUnary.ofFactor
  · rcases Category.product_or_factor_le hterm with hproduct | hfactor
    · exact (Derives.product hproduct ha.ofUnary.ofFactor hb.ofUnary).ofTerm
    · obtain rfl := Category.eq_power_of_factor_le hfactor
      exact (Derives.power ha hb.ofUnary).ofFactor.ofTerm

/-- A phrase stays one of its category when an operator at the level of the category and a further
operand are written behind it. -/
theorem Derives.append_operator {category : Category} {tokens operand : List Token} {a b : Tree}
    {op : Operator} (h : Derives category tokens a) (hop : category.level ≤ op.precedence)
    (hb : Derives .unary operand b) :
    ∃ c, Derives category (tokens ++ .ofOperator op :: operand) c := by
  induction h with
  | @sum first left right a b hfirst ha hlast _ ih =>
    rcases Category.sum_or_term_le op with hsum | hterm
    · exact ⟨_, .sum hsum (.sum hfirst ha hlast) hb.ofUnary.ofFactor⟩
    -- an operator that binds more tightly takes the last term as its operand
    · obtain ⟨c, hc⟩ := ih hterm
      rw [List.append_assoc, List.cons_append]
      exact ⟨_, .sum hfirst ha hc⟩
  | ofTerm ha ih =>
    -- an addition ends the term, and every other operator goes on with it
    rcases Category.sum_or_term_le op with hsum | hterm
    · exact ⟨_, .sum hsum ha.ofTerm hb.ofUnary.ofFactor⟩
    · obtain ⟨c, hc⟩ := ih hterm
      exact ⟨c, hc.ofTerm⟩
  | @product first left right a b hfirst ha hlast _ ih =>
    rcases Category.product_or_factor_le hop with hproduct | hfactor
    · exact ⟨_, .product hproduct (.product hfirst ha hlast) hb.ofUnary⟩
    · obtain ⟨c, hc⟩ := ih hfactor
      rw [List.append_assoc, List.cons_append]
      exact ⟨_, .product hfirst ha hc⟩
  | ofFactor ha ih =>
    rcases Category.product_or_factor_le hop with hproduct | hfactor
    · exact ⟨_, .product hproduct ha.ofFactor hb.ofUnary⟩
    · obtain ⟨c, hc⟩ := ih hfactor
      exact ⟨c, hc.ofFactor⟩
  | power ha _ _ ih =>
    -- powers group from the right, so a further one goes on with the exponent
    obtain ⟨c, hc⟩ := ih hop
    rw [List.append_assoc, List.cons_append]
    exact ⟨_, .power ha hc⟩
  | ofUnary ha =>
    obtain rfl := Category.eq_power_of_factor_le hop
    exact ⟨_, .power ha hb.ofUnary⟩
  | number text => exact absurd hop (Category.not_unary_le op)
  | group => exact absurd hop (Category.not_unary_le op)

/-! ## Alternation -/

/-- Whether operands and operators alternate in the tokens, given whether an operand is due at their
beginning. Parentheses open where an operand is due and close where none is. -/
def alternates : (operandDue : Bool) → List Token → Bool
  | operandDue, [] => !operandDue
  | true, .number _ :: rest => alternates false rest
  | true, .leftParen :: rest => alternates true rest
  | false, .operator _ :: rest => alternates true rest
  | false, .rightParen :: rest => alternates false rest
  | _, _ :: _ => false

/-- A phrase stands where an operand is due, and none is due behind it. -/
theorem Derives.alternates_append {category : Category} {tokens : List Token} {a : Tree}
    (h : Derives category tokens a) (rest : List Token) :
    alternates true (tokens ++ rest) = alternates false rest := by
  induction h generalizing rest with
  | sum _ _ _ iha ihb =>
    rw [List.append_assoc, iha, List.cons_append, Token.ofOperator, alternates, ihb]
  | product _ _ _ iha ihb =>
    rw [List.append_assoc, iha, List.cons_append, Token.ofOperator, alternates, ihb]
  | power _ _ iha ihb =>
    rw [List.append_assoc, iha, List.cons_append, Token.ofOperator, alternates, ihb]
  | ofTerm _ ih => exact ih rest
  | ofFactor _ ih => exact ih rest
  | ofUnary _ ih => exact ih rest
  | number text => rfl
  | group _ ih =>
    rw [List.append_assoc, List.cons_append, alternates, ih, List.singleton_append, alternates]

/-- Operands and operators alternate in every sentence. -/
theorem Derives.alternates {tokens : List Token} {a : Tree} (h : Derives .expr tokens a) :
    alternates true tokens = true := by
  have := h.alternates_append []
  rwa [List.append_nil] at this

/-- What has been read of an expression, or of the innermost open group of one, and whether an
operand is due. -/
inductive Beginning : (operandDue : Bool) → List Token → Prop
  | start : Beginning true []
  | operator {tokens : List Token} {a : Tree} (op : Operator) :
      Derives .expr tokens a → Beginning true (tokens ++ [.ofOperator op])
  | operand {tokens : List Token} {a : Tree} : Derives .expr tokens a → Beginning false tokens

/-- An operand that is due may come. -/
theorem Beginning.append_operand {tokens operand : List Token} {a : Tree}
    (h : Beginning true tokens) (ha : Derives .unary operand a) :
    Beginning false (tokens ++ operand) := by
  cases h with
  | start => exact .operand ha.expr_of_unary
  | operator op hb =>
    -- the operator that was read last may belong deep inside the expression
    obtain ⟨c, hc⟩ := hb.append_operator (Category.expr_le op) ha
    rw [List.append_assoc, List.singleton_append]
    exact .operand hc

/-- An operator may come when no operand is due. -/
theorem Beginning.append_operator {tokens : List Token} (h : Beginning false tokens)
    (op : Operator) : Beginning true (tokens ++ [.ofOperator op]) := by
  cases h with
  | operand ha => exact .operator op ha

/-- A group may be closed when no operand is due in it; it is an operand of the group around it. -/
theorem Beginning.append_group {tokens outer : List Token} (h : Beginning false tokens)
    (houter : Beginning true outer) :
    Beginning false (outer ++ .leftParen :: tokens ++ [.rightParen]) := by
  cases h with
  | operand ha =>
    rw [List.append_assoc]
    exact houter.append_operand ha.group

end Grammar

end InfixCalculator
