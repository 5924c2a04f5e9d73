import InfixCalculator.Proofs.Parentheses
import InfixCalculator.Proofs.Postfix

/-!
# What a conversion keeps

Converting tokens to postfix notation only moves them: parentheses are dropped, numerals stay in
their order, and every operator is written exactly once, wherever it has waited. The tree that is
built from the result has the numerals at its leaves and the operators at its operations.

None of this depends on the tokens being a sentence (`Postfix.ofInfix_rearranges`). The invariant is
`Conversion.foldlM_read_held_perm`: all tokens that were read and are no parentheses are either
written or wait.
-/

open scoped List

namespace InfixCalculator

namespace Token

/-- The text of a numeral. -/
def numeral? : Token → Option String
  | number text => some text
  | _ => none

/-- The symbol of an operator. -/
def symbol? : Token → Option String
  | operator symbol => some symbol
  | _ => none

/-- Whether the token is a numeral or an operator, and not a parenthesis. -/
def isKept : Token → Bool
  | number _ | operator _ => true
  | leftParen | rightParen => false

theorem numeral?_ofOperator (op : Operator) : (ofOperator op).numeral? = none := rfl

theorem filterMap_filter_isKept {f : Token → Option String} (hleft : f .leftParen = none)
    (hright : f .rightParen = none) (tokens : List Token) :
    (tokens.filter isKept).filterMap f = tokens.filterMap f := by
  rw [List.filterMap_filter]
  refine List.filterMap_congr fun token _ => ?_
  cases token with
  | number text => rfl
  | operator symbol => rfl
  | leftParen => exact hleft.symm
  | rightParen => exact hright.symm

theorem length_filter_isKept (tokens : List Token) :
    (tokens.filter isKept).length + tokens.count .leftParen + tokens.count .rightParen =
      tokens.length := by
  induction tokens with
  | nil => rfl
  | cons token tokens ih =>
    rw [List.filter_cons, List.count_cons, List.count_cons, List.length_cons]
    cases token <;> simp [isKept] <;> omega

end Token

/-! ## Trees -/

namespace Tree

/-- The texts of the leaves, from left to right. -/
def leaves : Tree → List String
  | leaf text => [text]
  | node _ left right => left.leaves ++ right.leaves

/-- The symbols of the operations, each one between those of its operands. -/
def symbols : Tree → List String
  | leaf _ => []
  | node symbol left right => left.symbols ++ symbol :: right.symbols

/-- The numerals of a tree in postorder are its leaves from left to right. -/
theorem filterMap_numeral?_postorder (tree : Tree) :
    tree.postorder.filterMap Token.numeral? = tree.leaves := by
  induction tree with
  | leaf text => simp [leaves, Token.numeral?]
  | node symbol left right ihl ihr => simp [leaves, ihl, ihr, Token.numeral?]

/-- The symbols of a tree in postorder are those of its operations, in another order. -/
theorem filterMap_symbol?_postorder (tree : Tree) :
    tree.postorder.filterMap Token.symbol? ~ tree.symbols := by
  induction tree with
  | leaf text => simp [symbols, Token.symbol?]
  | node symbol left right ihl ihr =>
    -- the symbol moves from behind the right operand to between both
    have hright : right.postorder.filterMap Token.symbol? ++ [symbol] ~ symbol :: right.symbols :=
      List.perm_append_comm.trans (ihr.cons symbol)
    simpa [symbols, Token.symbol?] using ihl.append hright

end Tree

/-! ## Conversions -/

namespace Conversion

variable {state next final : Conversion} {token : Token} {tokens : List Token}

/-- The tokens that have not been dropped: those written so far, and the operators that wait in any
group. -/
def held (state : Conversion) : List Token :=
  state.written ++ (state.waiting ++ state.enclosing.flatten).map .ofOperator

theorem filterMap_numeral?_write (state : Conversion) (operators : List Operator) :
    (state.write operators).written.filterMap Token.numeral? =
      state.written.filterMap Token.numeral? := by
  have hnone : operators.reverse.filterMap (Token.numeral? ∘ Token.ofOperator) = [] :=
    List.filterMap_eq_nil_iff.mpr fun op _ => Token.numeral?_ofOperator op
  rw [write, List.filterMap_append, ← List.map_reverse, List.filterMap_map, hnone,
    List.nil_append]

theorem Step.filterMap_numeral? (h : state.Step token next) :
    next.written.filterMap Token.numeral? =
      token.numeral?.toList ++ state.written.filterMap Token.numeral? := by
  cases h with
  | number text => rfl
  | operator op => exact filterMap_numeral?_write state _
  | leftParen => rfl
  | rightParen => exact filterMap_numeral?_write state _

/-- The numerals are written in the order in which they are read. -/
theorem foldlM_read_filterMap_numeral? (h : tokens.foldlM read state = .ok final) :
    final.written.filterMap Token.numeral? =
      (tokens.filterMap Token.numeral?).reverse ++ state.written.filterMap Token.numeral? := by
  induction tokens generalizing state with
  | nil =>
    rw [Except.ok.inj h]
    rfl
  | cons token rest ih =>
    obtain ⟨next, hnext, hrest⟩ := Fallible.foldlM_cons_eq_ok_iff.mp h
    rw [ih hrest, (read_eq_ok_iff.mp hnext).filterMap_numeral?, List.filterMap_cons]
    cases token.numeral? with
    | none => rfl
    | some text => simp

/-- Whether operators are written or go on waiting, none of them is lost. -/
theorem write_perm (state : Conversion) (operators rest : List Operator) :
    (state.write operators).written ++ rest.map Token.ofOperator ~
      state.written ++ (operators ++ rest).map Token.ofOperator := by
  rw [List.map_append, ← List.append_assoc]
  apply List.Perm.append_right
  exact List.perm_append_comm.trans ((List.reverse_perm _).append_left _)

/-- Nothing that was read is lost but the parentheses. -/
theorem Step.held_perm (h : state.Step token next) :
    next.held ~ [token].filter Token.isKept ++ state.held := by
  cases h with
  | number text => exact .rfl
  | operator op =>
    -- what waits is cut in two, but not changed
    have hsplit : state.waiting.takeWhile (·.bindsBefore op) ++
        (state.waiting.dropWhile (·.bindsBefore op) ++ state.enclosing.flatten) =
          state.waiting ++ state.enclosing.flatten := by
      rw [← List.append_assoc, List.takeWhile_append_dropWhile]
    have hwrite := state.write_perm (state.waiting.takeWhile (·.bindsBefore op))
      (state.waiting.dropWhile (·.bindsBefore op) ++ state.enclosing.flatten)
    rw [hsplit] at hwrite
    exact List.perm_middle.trans (hwrite.cons (.ofOperator op))
  | leftParen => exact .rfl
  | @rightParen outer enclosing henclosing =>
    have hheld : state.held =
        state.written ++ (state.waiting ++ (outer ++ enclosing.flatten)).map .ofOperator := by
      rw [held, henclosing, List.flatten_cons]
    rw [hheld]
    exact state.write_perm state.waiting (outer ++ enclosing.flatten)

/-- All tokens that are read are held from then on, except for the parentheses. -/
theorem foldlM_read_held_perm (h : tokens.foldlM read state = .ok final) :
    final.held ~ tokens.filter Token.isKept ++ state.held := by
  induction tokens generalizing state with
  | nil => exact Except.ok.inj h ▸ .rfl
  | cons token rest ih =>
    obtain ⟨next, hnext, hrest⟩ := Fallible.foldlM_cons_eq_ok_iff.mp h
    have hstep := (read_eq_ok_iff.mp hnext).held_perm
    calc
      final.held ~ rest.filter Token.isKept ++ next.held := ih hrest
      _ ~ rest.filter Token.isKept ++ ([token].filter Token.isKept ++ state.held) :=
        hstep.append_left _
      _ ~ [token].filter Token.isKept ++ (rest.filter Token.isKept ++ state.held) :=
        List.perm_append_comm_assoc ..
      _ ~ (token :: rest).filter Token.isKept ++ state.held := by
        rw [← List.append_assoc, ← List.filter_append, List.singleton_append]

end Conversion

namespace Postfix

variable {tokens program : List Token}

theorem perm_of_ofInfix (h : ofInfix tokens = .ok program) :
    program ~ tokens.filter Token.isKept := by
  obtain ⟨final, hread, hclosed, rfl⟩ := ofInfix_eq_ok_iff.mp h
  calc
    (final.write final.waiting).written.reverse ~ (final.write final.waiting).written :=
      List.reverse_perm _
    -- no group is open, so the operators that wait are all there are
    _ ~ final.held := by
      have hwrite := final.write_perm final.waiting []
      rwa [List.map_nil, List.append_nil, ← List.flatten_nil, ← hclosed] at hwrite
    _ ~ tokens.filter Token.isKept := by
      have hheld := Conversion.foldlM_read_held_perm hread
      rwa [show Conversion.held {} = [] from rfl, List.append_nil] at hheld

/-- A conversion keeps the numerals in their order. -/
theorem filterMap_numeral?_of_ofInfix (h : ofInfix tokens = .ok program) :
    program.filterMap Token.numeral? = tokens.filterMap Token.numeral? := by
  obtain ⟨final, hread, -, rfl⟩ := ofInfix_eq_ok_iff.mp h
  rw [List.filterMap_reverse, Conversion.filterMap_numeral?_write,
    Conversion.foldlM_read_filterMap_numeral? hread]
  simp

/-- A conversion drops the parentheses, keeps the numerals in order and the operators in some order,
and nothing else is written. The tree that is built from the result has the numerals at its leaves,
from left to right, and the operators at its operations. -/
theorem ofInfix_rearranges (h : ofInfix tokens = .ok program) :
    .leftParen ∉ program ∧ .rightParen ∉ program ∧
      program.filterMap Token.numeral? = tokens.filterMap Token.numeral? ∧
      program.filterMap Token.symbol? ~ tokens.filterMap Token.symbol? ∧
      program.length + 2 * tokens.count .leftParen = tokens.length ∧
      ∀ tree, Tree.ofPostfix program = .ok tree →
        tree.leaves = tokens.filterMap Token.numeral? ∧
          tree.symbols ~ tokens.filterMap Token.symbol? := by
  have hperm := perm_of_ofInfix h
  have hnumerals := filterMap_numeral?_of_ofInfix h
  have hkept : ∀ token ∈ program, token.isKept := fun token htoken =>
    (List.mem_filter.mp (hperm.mem_iff.mp htoken)).2
  have hsymbols : program.filterMap Token.symbol? ~ tokens.filterMap Token.symbol? := by
    have hfilter := hperm.filterMap Token.symbol?
    rwa [Token.filterMap_filter_isKept rfl rfl] at hfilter
  -- as many parentheses are closed as opened, and none of them is kept
  have hlength : program.length + 2 * tokens.count .leftParen = tokens.length := by
    have hcount := Token.length_filter_isKept tokens
    have hbalanced := (balanced_of_ofInfix h).2
    rw [← hperm.length_eq] at hcount
    omega
  refine ⟨fun hleft => ?_, fun hright => ?_, hnumerals, hsymbols, hlength, fun tree htree => ?_⟩
  · exact absurd (hkept .leftParen hleft) (by decide)
  · exact absurd (hkept .rightParen hright) (by decide)
  · obtain rfl := Tree.ofPostfix_eq_ok_iff.mp htree
    rw [Tree.filterMap_numeral?_postorder] at hnumerals
    exact ⟨hnumerals, tree.filterMap_symbol?_postorder.symm.trans hsymbols⟩

/-- In `1 2 - ((3)) +`, which is no sentence, the operators change places. -/
theorem ofInfix_rearranges_crossed :
    let tokens : List Token :=
      [.number "1", .number "2", .operator "-", .leftParen, .leftParen, .number "3", .rightParen,
        .rightParen, .operator "+"]
    let program : List Token :=
      [.number "1", .number "2", .number "3", .operator "-", .operator "+"]
    let tree : Tree := .node "+" (.leaf "1") (.node "-" (.leaf "2") (.leaf "3"))
    ofInfix tokens = .ok program ∧
      .leftParen ∉ program ∧ .rightParen ∉ program ∧
      program.filterMap Token.numeral? = tokens.filterMap Token.numeral? ∧
      program.filterMap Token.symbol? ~ tokens.filterMap Token.symbol? ∧
      program.length + 2 * tokens.count .leftParen = tokens.length ∧
      Tree.ofPostfix program = .ok tree ∧
      tree.leaves = ["1", "2", "3"] ∧ tree.symbols ~ ["-", "+"] := by
  intro tokens program tree
  have h : ofInfix tokens = .ok program := rfl
  obtain ⟨hleft, hright, hnumerals, hsymbols, hlength, htree⟩ := ofInfix_rearranges h
  have hbuilt : Tree.ofPostfix program = .ok tree := rfl
  exact ⟨h, hleft, hright, hnumerals, hsymbols, hlength, hbuilt, htree tree hbuilt⟩

end Postfix

end InfixCalculator
