import InfixCalculator.Proofs.Grammar.Postfix
import InfixCalculator.Proofs.Postfix
import InfixCalculator.Token

/-!
# Accepted expressions and sentences

An expression is accepted if it can be converted to postfix notation and the result builds a tree.
Every sentence of the grammar is, but so is `1 2 +`, which is none: the conversion forgets in what
order operands and operators came, and building a tree only counts how many of each there are.

What is missing is that operands and operators alternate. The tokens that have been read are then
made of beginnings of expressions, one for each open parenthesis (`Conversion.HasOpened`), and they
are a sentence once no parenthesis is open.

- `Grammar.derives_expr_iff`: the sentences are the accepted lists of tokens that alternate;
- `Grammar.Accepts.derives_iff_alternates`: which accepted expressions are sentences;
- `Grammar.not_forall_accepts_derives`: not all of them are.
-/

namespace InfixCalculator

open Grammar

namespace Conversion

variable {state next final : Conversion} {operandDue : Bool} {past tokens : List Token}

/-- The tokens of open groups, the innermost first, around those of the group opened last. -/
def nest (outer : List (List Token)) (current : List Token) : List Token :=
  outer.foldl (fun inner group => group ++ .leftParen :: inner) current

theorem nest_append (outer : List (List Token)) (current more : List Token) :
    nest outer (current ++ more) = nest outer current ++ more := by
  induction outer generalizing current with
  | nil => rfl
  | cons group outer ih =>
    rw [nest, List.foldl_cons, ← List.cons_append, ← List.append_assoc]
    exact ih _

/-- The tokens read so far begin an expression in every group that is open, and in the innermost of
them an operand is due or not. -/
def HasOpened (state : Conversion) (operandDue : Bool) (past : List Token) : Prop :=
  ∃ outer current, past = nest outer current ∧ outer.length = state.enclosing.length ∧
    (∀ group ∈ outer, Beginning true group) ∧ Beginning operandDue current

/-- A token that keeps the alternation goes on with what has been opened. -/
theorem HasOpened.step {token : Token} (h : state.HasOpened operandDue past)
    (hstep : state.Step token next) (halternates : alternates operandDue (token :: tokens)) :
    ∃ operandDue', next.HasOpened operandDue' (past ++ [token]) ∧
      alternates operandDue' tokens := by
  obtain ⟨outer, current, rfl, hlength, houter, hcurrent⟩ := h
  -- the alternation decides in every case whether the innermost group may take the token
  cases hstep with
  | number text =>
    cases operandDue with
    | false => cases halternates
    | true =>
      exact ⟨false, ⟨outer, current ++ [.number text], (nest_append ..).symm, hlength, houter,
        hcurrent.append_operand (.number text)⟩, halternates⟩
  | operator op =>
    cases operandDue with
    | true => cases halternates
    | false =>
      exact ⟨true, ⟨outer, current ++ [.ofOperator op], (nest_append ..).symm, hlength, houter,
        hcurrent.append_operator op⟩, halternates⟩
  | leftParen =>
    cases operandDue with
    | false => cases halternates
    | true =>
      -- the group that was the innermost one waits for its next operand
      refine ⟨true, ⟨current :: outer, [], (nest_append ..).symm, ?_, ?_, .start⟩, halternates⟩
      · exact congrArg (· + 1) hlength
      · exact List.forall_mem_cons.mpr ⟨hcurrent, houter⟩
  | rightParen henclosing =>
    cases operandDue with
    | true => cases halternates
    | false =>
      -- a group is open in the conversion, hence one in the tokens
      obtain ⟨group, outer, rfl⟩ := List.exists_cons_of_length_pos (l := outer) (by simp_all)
      obtain ⟨hgroup, houter⟩ := List.forall_mem_cons.mp houter
      refine ⟨false, ⟨outer, group ++ .leftParen :: current ++ [.rightParen], ?_, ?_, houter,
        hcurrent.append_group hgroup⟩, halternates⟩
      · rw [nest_append]
        rfl
      · simpa [henclosing, leave] using hlength

/-- Tokens that alternate to the end have opened groups, in none of which an operand is due. -/
theorem HasOpened.run (h : state.HasOpened operandDue past)
    (hread : tokens.foldlM read state = .ok final) (halternates : alternates operandDue tokens) :
    final.HasOpened false (past ++ tokens) := by
  induction tokens generalizing state operandDue past with
  | nil =>
    obtain rfl := Except.ok.inj hread
    obtain rfl : operandDue = false := by simpa [alternates] using halternates
    rwa [List.append_nil]
  | cons token rest ih =>
    obtain ⟨mid, hmid, hrest⟩ := Fallible.foldlM_cons_eq_ok_iff.mp hread
    obtain ⟨operandDue', hopened, halternates'⟩ := h.step (read_eq_ok_iff.mp hmid) halternates
    rw [← List.singleton_append, ← List.append_assoc]
    exact ih hopened hrest halternates'

end Conversion

namespace Grammar

variable {tokens program : List Token} {tree : Tree}

/-- A list of tokens that can be converted and in which operands and operators alternate is a
sentence. -/
theorem exists_derives_of_alternates (hprogram : Postfix.ofInfix tokens = .ok program)
    (halternates : alternates true tokens) : ∃ tree, Derives .expr tokens tree := by
  obtain ⟨final, hread, hclosed, -⟩ := Postfix.ofInfix_eq_ok_iff.mp hprogram
  have hstart : Conversion.HasOpened {} true [] := ⟨[], [], rfl, rfl, by simp, .start⟩
  obtain ⟨outer, current, htokens, hlength, -, hcurrent⟩ := hstart.run hread halternates
  -- no parenthesis is open, so all tokens are those of one expression
  rw [hclosed, List.length_nil, List.length_eq_zero_iff] at hlength
  subst hlength
  obtain rfl : tokens = current := htokens
  cases hcurrent with
  | operand h => exact ⟨_, h⟩

/-- The sentences are the accepted lists of tokens in which operands and operators alternate, and
the tree that is built is the syntax tree. -/
theorem derives_expr_iff :
    Derives .expr tokens tree ↔
      alternates true tokens ∧
        ∃ program, Postfix.ofInfix tokens = .ok program ∧ Tree.ofPostfix program = .ok tree := by
  constructor
  · intro h
    exact ⟨h.alternates, tree.postorder, Postfix.ofInfix_of_derives h,
      Tree.ofPostfix_postorder tree⟩
  · rintro ⟨halternates, program, hprogram, htree⟩
    obtain ⟨tree', h⟩ := exists_derives_of_alternates hprogram halternates
    -- the program is the postorder of the tree that was built as well as of the syntax tree
    obtain rfl : program = tree.postorder := Tree.ofPostfix_eq_ok_iff.mp htree
    have hpostorder : tree'.postorder = tree.postorder :=
      Except.ok.inj ((Postfix.ofInfix_of_derives h).symm.trans hprogram)
    obtain rfl : tree' = tree := Tree.postorder_inj.mp hpostorder
    exact h

/-- The expression is read as these tokens, and the tree is built from their postfix form. -/
def Accepts (expression : String) (tokens : List Token) (tree : Tree) : Prop :=
  Token.scan expression = .ok tokens ∧
    ∃ program, Postfix.ofInfix tokens = .ok program ∧ Tree.ofPostfix program = .ok tree

/-- An accepted expression is a sentence with the tree it is given exactly if operands and operators
alternate in it. -/
theorem Accepts.derives_iff_alternates {expression : String}
    (h : Accepts expression tokens tree) :
    Derives .expr tokens tree ↔ alternates true tokens := by
  rw [derives_expr_iff]
  exact and_iff_left h.2

/-- An empty group is skipped, although it is no operand. -/
theorem accepts_empty_group_one :
    Accepts "()1" [.leftParen, .rightParen, .number "1"] (.leaf "1") ∧
      ¬ Derives .expr [.leftParen, .rightParen, .number "1"] (.leaf "1") := by
  have h : Accepts "()1" [.leftParen, .rightParen, .number "1"] (.leaf "1") :=
    ⟨rfl, [.number "1"], rfl, rfl⟩
  exact ⟨h, fun hderives => absurd (h.derives_iff_alternates.mp hderives) (by decide)⟩

/-- Postfix notation is accepted as well, although it is no sentence. -/
theorem not_forall_accepts_derives :
    ¬ ∀ expression tokens tree, Accepts expression tokens tree → Derives .expr tokens tree := by
  intro h
  have haccepts : Accepts "1 2 +" [.number "1", .number "2", .operator "+"]
      (.node "+" (.leaf "1") (.leaf "2")) :=
    ⟨rfl, [.number "1", .number "2", .operator "+"], rfl, rfl⟩
  exact absurd (h _ _ _ haccepts).alternates (by decide)

end Grammar

end InfixCalculator
