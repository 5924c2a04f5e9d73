import InfixCalculator.Proofs.Conversion
import InfixCalculator.Proofs.Parentheses
import Mathlib.Data.List.Chain

/-!
# Precedences on the stack of a conversion

A conversion can be carried out with a single stack of tokens, on which the operators that wait and
the parentheses that are open lie above each other (`Conversion.Machine`). Whatever tokens have been
read, the parentheses cut this stack into segments of operators, and within a segment the operators
bind tighter and tighter from bottom to top; only powers may lie upon each other. Since there are
three precedences, a segment has at most one operator of each of the lower two.

- `Operator.supports_iff`: an operator stays below the next one exactly if it supports it;
- `Conversion.Step.ordered`: every step keeps the operators of each group in that order;
- `Conversion.foldlM_machine`: the machine and the conversion do the same;
- `Conversion.stack_segments`: the stack of the machine behind any tokens.
-/

namespace InfixCalculator

namespace Operator

/-- Whether `upper` may lie right upon `lower`: precedences do not decrease upwards, and equal ones
meet only between powers. -/
def Supports (lower upper : Operator) : Prop :=
  lower.precedence ≤ upper.precedence ∧
    (lower.precedence = upper.precedence → lower = power ∧ upper = power)

instance (lower upper : Operator) : Decidable (lower.Supports upper) := by
  unfold Supports
  infer_instance

variable {lower upper : Operator}

/-- The operators that are left waiting are those that support the next one. -/
theorem supports_iff : lower.Supports upper ↔ ¬ lower.bindsBefore upper := by
  cases lower <;> cases upper <;> decide

instance : Trans Supports Supports Supports where
  trans {a b c} hab hbc := by
    revert hab hbc
    cases a <;> cases b <;> cases c <;> decide

theorem precedence_cases (op : Operator) :
    op.precedence = 1 ∨ op.precedence = 2 ∨ op.precedence = 3 ∧ op = power := by
  cases op <;> decide

theorem Supports.lt_or_eq_three (h : lower.Supports upper) :
    lower.precedence < upper.precedence ∨ lower.precedence = 3 ∧ upper.precedence = 3 := by
  rcases h.1.lt_or_eq with hlt | heq
  · exact .inl hlt
  · obtain ⟨rfl, rfl⟩ := h.2 heq
    exact .inr ⟨rfl, rfl⟩

/-- Operators of which each supports the next one come in three layers. -/
theorem exists_layers {operators : List Operator} (h : operators.IsChain Supports) :
    ∃ sums products powers, operators = sums ++ products ++ powers ∧
      sums.length ≤ 1 ∧ (∀ op ∈ sums, op.precedence = 1) ∧
      products.length ≤ 1 ∧ (∀ op ∈ products, op.precedence = 2) ∧
      ∀ op ∈ powers, op = power := by
  rw [List.isChain_iff_pairwise] at h
  induction h with
  | nil => exact ⟨[], [], [], by simp⟩
  | @cons op rest hop _ ih =>
    obtain ⟨sums, products, powers, rfl, -, hsum, hproducts, hproduct, hpower⟩ := ih
    -- all operators behind the first one bind tighter, or they are powers like it
    have habove (next : Operator) (hnext : next ∈ sums ++ products ++ powers) :=
      (hop next hnext).lt_or_eq_three
    have hcases := op.precedence_cases
    obtain rfl : sums = [] := List.eq_nil_iff_forall_not_mem.mpr fun next hnext => by
      have hone := hsum next hnext
      have := habove next (by simp [hnext])
      omega
    rcases hcases with hone | hmore
    · exact ⟨[op], products, powers, rfl, Nat.le_refl 1, by simpa using hone, hproducts, hproduct,
        hpower⟩
    · obtain rfl : products = [] := List.eq_nil_iff_forall_not_mem.mpr fun next hnext => by
        have htwo := hproduct next hnext
        have := habove next (by simp [hnext])
        omega
      rcases hmore with htwo | ⟨-, hop⟩
      · exact ⟨[], [op], powers, rfl, Nat.zero_le 1, by simp, Nat.le_refl 1, by simpa using htwo,
          hpower⟩
      · exact ⟨[], [], op :: powers, rfl, Nat.zero_le 1, by simp, Nat.zero_le 1, by simp,
          List.forall_mem_cons.mpr ⟨hop, hpower⟩⟩

end Operator

/-! ## The conversion on one stack -/

namespace Conversion

/-- Take tokens from a stack and write them, until a parenthesis has been taken, which
is dropped. -/
def unwind : (stack written : List Token) → Except CalcError (List Token × List Token)
  | [], _ => throw .unbalancedParentheses
  | .leftParen :: stack, written => return (stack, written)
  | token :: stack, written => unwind stack (token :: written)

/-- A conversion with one stack for all that waits. -/
structure Machine where
  /-- The tokens written so far, the latest first. -/
  written : List Token := []
  /-- The operators that wait and the parentheses that are open, the latest first. -/
  stack : List Token := []

/-- Read one token. -/
def Machine.read (machine : Machine) : Token → Except CalcError Machine
  | .number text => return { machine with written := .number text :: machine.written }
  | .leftParen => return { machine with stack := .leftParen :: machine.stack }
  | .rightParen => do
    let (stack, written) ← unwind machine.stack machine.written
    return { written, stack }
  | .operator symbol => do
    let next ← Operator.ofText symbol
    let (stack, written) ← release next machine.stack machine.written
    return { written, stack := .operator symbol :: stack }

/-- The machine that has come as far as a conversion. -/
def machine (state : Conversion) : Machine where
  written := state.written
  stack := state.stack

theorem unwind_map_ofOperator (waiting : List Operator) (below written : List Token) :
    unwind (waiting.map .ofOperator ++ below) written =
      unwind below ((waiting.map .ofOperator).reverse ++ written) := by
  induction waiting generalizing written with
  | nil => rfl
  | cons op waiting ih =>
    rw [List.map_cons, List.cons_append, Token.ofOperator, unwind, ih]
    · simp
    · intro hparen
      cases hparen

/-- Reading a token is the same for the machine and for the conversion. -/
theorem read_machine (state : Conversion) (token : Token) :
    state.machine.read token = machine <$> state.read token := by
  cases token with
  | number text => rfl
  | leftParen => rfl
  | rightParen =>
    rw [Machine.read, read]
    simp only [machine, stack, unwind_map_ofOperator]
    -- below the waiting operators lies the parenthesis of their group, if they have one
    cases state.enclosing with
    | nil => rfl
    | cons outer enclosing => rfl
  | operator symbol =>
    cases hsymbol : Operator.ofText symbol with
    | error error =>
      rw [Machine.read, read, hsymbol]
      rfl
    | ok next =>
      obtain rfl := Operator.ofText_eq_ok_iff.mp hsymbol
      obtain ⟨after, below, hread, hrelease, hstack⟩ := exists_read_ofOperator state next
      have hrelease : release next state.machine.stack state.machine.written =
          .ok (below, after.written) := hrelease
      rw [Token.ofOperator] at hread hstack
      rw [Machine.read, Fallible.bind_of_ok hsymbol, Fallible.bind_of_ok hrelease, hread]
      change Except.ok (Machine.mk after.written (.operator next.text :: below)) = .ok after.machine
      rw [machine, hstack]

/-- The machine and the conversion come equally far, and they fail over the same token. -/
theorem foldlM_machine (tokens : List Token) :
    tokens.foldlM Machine.read {} = machine <$> tokens.foldlM read {} :=
  Fallible.foldlM_map machine read_machine tokens {}

theorem exists_of_foldlM_machine {tokens : List Token} {reached : Machine}
    (h : tokens.foldlM Machine.read {} = .ok reached) :
    ∃ state, tokens.foldlM read {} = .ok state ∧ state.machine = reached := by
  rw [foldlM_machine] at h
  cases hread : tokens.foldlM read {} with
  | error error =>
    rw [hread] at h
    cases h
  | ok state =>
    rw [hread] at h
    exact ⟨state, rfl, Except.ok.inj h⟩

/-! ## Order on the stack -/

variable {state next : Conversion} {token : Token} {tokens : List Token}

/-- In every group each waiting operator supports the one that came to wait after it, which stands
in front of it. -/
def Ordered (state : Conversion) : Prop :=
  ∀ group ∈ state.waiting :: state.enclosing, group.IsChain fun upper lower => lower.Supports upper

theorem Step.ordered (hstep : state.Step token next) (h : state.Ordered) : next.Ordered := by
  obtain ⟨hwaiting, henclosing⟩ := List.forall_mem_cons.mp h
  cases hstep with
  | number text => exact h
  | operator op =>
    have hrest := hwaiting.suffix (List.dropWhile_suffix (·.bindsBefore op))
    refine List.forall_mem_cons.mpr
      ⟨List.isChain_cons.mpr ⟨fun lower hlower => ?_, hrest⟩, henclosing⟩
    -- the first operator that is not written is one that does not bind before the new one
    have hkept := List.head?_dropWhile_not (·.bindsBefore op) state.waiting
    rw [Option.mem_def.mp hlower] at hkept
    exact Operator.supports_iff.mpr (Bool.not_eq_true _ ▸ hkept)
  | leftParen => exact List.forall_mem_cons.mpr ⟨.nil, h⟩
  | rightParen hopen =>
    rw [hopen] at henclosing
    exact henclosing

theorem ordered_of_foldlM_read (h : tokens.foldlM read {} = .ok state) : state.Ordered := by
  refine Fallible.foldlM_invariant Ordered h ?_ ?_
  · intro group hgroup
    rw [List.mem_singleton.mp hgroup]
    exact .nil
  · intro token _ state next hstate hnext
    exact (read_eq_ok_iff.mp hnext).ordered hstate

theorem leftParen_notMem_map_ofOperator (operators : List Operator) :
    .leftParen ∉ operators.map Token.ofOperator := by
  simp [Token.ofOperator]

/-- The parentheses cut the stack into the groups of a conversion. -/
theorem splitOn_stack (state : Conversion) :
    state.stack.splitOn .leftParen =
      (state.waiting :: state.enclosing).map (·.map Token.ofOperator) := by
  obtain ⟨written, waiting, enclosing⟩ := state
  induction enclosing generalizing waiting with
  | nil =>
    rw [stack, List.flatMap_nil, List.append_nil]
    exact List.splitOn_eq_singleton (leftParen_notMem_map_ofOperator waiting)
  | cons outer enclosing ih =>
    rw [stack, List.flatMap_cons, List.cons_append, List.splitOn_append_cons_self_of_not_mem
      (leftParen_notMem_map_ofOperator waiting), List.map_cons]
    exact congrArg _ (ih outer)

theorem mem_stack (h : token ∈ state.stack) :
    token = .leftParen ∨ ∃ op : Operator, token = .ofOperator op := by
  simp only [stack, List.mem_append, List.mem_map, List.mem_flatMap, List.mem_cons] at h
  rcases h with ⟨op, -, rfl⟩ | ⟨outer, -, rfl | ⟨op, -, rfl⟩⟩
  · exact .inr ⟨op, rfl⟩
  · exact .inl rfl
  · exact .inr ⟨op, rfl⟩

/-- There is a parenthesis on the stack for every group that is open. -/
theorem count_stack (state : Conversion) :
    state.stack.count .leftParen = state.enclosing.length := by
  have hnone (operators : List Operator) : (operators.map Token.ofOperator).count .leftParen = 0 :=
    List.count_eq_zero.mpr (leftParen_notMem_map_ofOperator operators)
  simp [stack, hnone, List.count_flatMap, Function.comp_def]

/-- The machine converts like the conversion does. Behind any tokens that it has read, which may be
the beginning of a longer list, its stack consists of opening parentheses and of operators. It has a
parenthesis for each one that has been opened and not closed, and in every segment between
parentheses, read from bottom to top, each operator supports the next one: so there is at most one
sum, upon it at most one product, and upon that any number of powers. -/
theorem stack_segments (tokens : List Token) :
    tokens.foldlM Machine.read {} = machine <$> tokens.foldlM read {} ∧
      ∀ reached, tokens.foldlM Machine.read {} = .ok reached →
        (∀ token ∈ reached.stack, token = .leftParen ∨ ∃ op : Operator, token = .ofOperator op) ∧
        reached.stack.count .leftParen + tokens.count .rightParen = tokens.count .leftParen ∧
        ∀ segment ∈ reached.stack.splitOn .leftParen,
          ∃ operators : List Operator, segment.reverse = operators.map .ofOperator ∧
            operators.IsChain Operator.Supports ∧
            ∃ sums products powers, operators = sums ++ products ++ powers ∧
              sums.length ≤ 1 ∧ (∀ op ∈ sums, op.precedence = 1) ∧
              products.length ≤ 1 ∧ (∀ op ∈ products, op.precedence = 2) ∧
              ∀ op ∈ powers, op = .power := by
  refine ⟨foldlM_machine tokens, fun reached h => ?_⟩
  obtain ⟨state, hread, rfl⟩ := exists_of_foldlM_machine h
  refine ⟨fun token => mem_stack, ?_, fun segment hsegment => ?_⟩
  · rw [machine, count_stack]
    exact count_of_foldlM_read hread
  · rw [machine, splitOn_stack, List.mem_map] at hsegment
    obtain ⟨group, hgroup, rfl⟩ := hsegment
    have hchain : group.reverse.IsChain Operator.Supports :=
      List.isChain_reverse.mpr (ordered_of_foldlM_read hread group hgroup)
    exact ⟨group.reverse, by simp, hchain, Operator.exists_layers hchain⟩

/-- Two powers lie upon each other below the parenthesis, and all three layers above it. The tokens
are no expression, and what the parenthesis has opened is not closed. -/
theorem stack_segments_open_group :
    let tokens : List Token :=
      [.number "2", .operator "^", .operator "^", .leftParen, .number "1", .operator "-",
        .number "2", .operator "*", .number "3", .operator "^"]
    let reached : Machine :=
      { written := [.number "3", .number "2", .number "1", .number "2"]
        stack := [.operator "^", .operator "*", .operator "-", .leftParen, .operator "^",
          .operator "^"] }
    tokens.foldlM Machine.read {} = .ok reached ∧
      reached.stack.count .leftParen + tokens.count .rightParen = tokens.count .leftParen ∧
      ∀ segment ∈ reached.stack.splitOn .leftParen,
        ∃ operators : List Operator, segment.reverse = operators.map .ofOperator ∧
          operators.IsChain Operator.Supports := by
  intro tokens reached
  have hread : tokens.foldlM Machine.read {} = .ok reached := rfl
  obtain ⟨-, hcount, hsegments⟩ := (stack_segments tokens).2 reached hread
  refine ⟨hread, hcount, fun segment hsegment => ?_⟩
  obtain ⟨operators, hoperators, hchain, -⟩ := hsegments segment hsegment
  exact ⟨operators, hoperators, hchain⟩

end Conversion

end InfixCalculator
