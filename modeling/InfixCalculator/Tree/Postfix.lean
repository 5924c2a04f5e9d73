import InfixCalculator.Postfix
import InfixCalculator.Tree

/-!
# Trees and postfix programs

A tree in postorder is a program, and a program whose values are trees builds a tree.
`Postfix.run_postorder` says that running the program of a tree under any interpretation is
folding the tree under it; building a tree from its own program is a special case. Hence distinct
trees have distinct programs, and this is how two trees are compared.
-/

namespace InfixCalculator

namespace Tree

variable {α : Type}

/-- The meaning of a tree: its operands first, the left one before the right one, then the
operation at its root. -/
def fold (meaning : Interpretation α) : Tree → Except CalcError α
  | leaf text => meaning.number text
  | node symbol left right => do
    let leftValue ← left.fold meaning
    let rightValue ← right.fold meaning
    meaning.operation symbol leftValue rightValue

/-- Numerals are leaves and operators are nodes; neither text is examined. -/
def builder : Interpretation Tree where
  number text := .ok (leaf text)
  operation symbol left right := .ok (node symbol left right)

/-- The tree that a program builds. -/
def ofPostfix (program : List Token) : Except CalcError Tree :=
  Postfix.run builder program

/-- Folding a tree with its own constructors gives it back. -/
@[simp]
theorem fold_builder (tree : Tree) : tree.fold builder = .ok tree := by
  induction tree with
  | leaf text => rfl
  | node symbol left right ihl ihr => rw [fold, ihl, ihr]; rfl

end Tree

namespace Postfix

variable {α : Type}

/-- Executing the program of a tree puts the meaning of the tree on the stack. -/
theorem foldlM_step_postorder (meaning : Interpretation α) (tree : Tree) (rest : List Token)
    (stack : List α) :
    (tree.postorder ++ rest).foldlM (step meaning) stack = (do
      let value ← tree.fold meaning
      rest.foldlM (step meaning) (value :: stack)) := by
  induction tree generalizing rest stack with
  | leaf text =>
    simp only [Tree.postorder_leaf, List.cons_append, List.nil_append, List.foldlM_cons, step,
      Tree.fold, bind_assoc, pure_bind]
  | node symbol left right ihl ihr =>
    simp only [Tree.postorder_node, List.append_assoc, ihl, ihr, List.cons_append, List.nil_append,
      List.foldlM_cons, step, Tree.fold, bind_assoc, pure_bind]

/-- Running the program of a tree is folding the tree. -/
theorem run_postorder (meaning : Interpretation α) (tree : Tree) :
    run meaning tree.postorder = tree.fold meaning := by
  have h := foldlM_step_postorder meaning tree [] []
  rw [List.append_nil] at h
  simp only [run, h, List.foldlM_nil, bind_assoc, pure_bind, bind_pure]

end Postfix

namespace Tree

/-- A tree is built again by its own program. -/
@[simp]
theorem ofPostfix_postorder (tree : Tree) : ofPostfix tree.postorder = .ok tree := by
  rw [ofPostfix, Postfix.run_postorder, fold_builder]

/-- Trees with the same program are the same. -/
theorem postorder_inj {tree tree' : Tree} : tree.postorder = tree'.postorder ↔ tree = tree' := by
  refine ⟨fun h => ?_, fun h => h ▸ rfl⟩
  have : Except.ok (ε := CalcError) tree = .ok tree' := by
    rw [← ofPostfix_postorder, h, ofPostfix_postorder]
  exact Except.ok.inj this

/-- Two trees are compared by their programs. -/
instance : DecidableEq Tree := fun _ _ =>
  decidable_of_iff _ postorder_inj

end Tree

end InfixCalculator
