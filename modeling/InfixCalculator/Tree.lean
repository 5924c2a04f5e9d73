import InfixCalculator.Token

/-!
# Expression trees

A tree has numerals at its leaves and a binary operation at every other node. Numerals and symbols
are kept as they were written, so a tree can be printed, drawn and counted whether or not it has a
value.

A chain of a thousand operators is a tree a thousand levels deep. The traversals below therefore
keep a list of the subtrees still to visit instead of descending by recursion; the equations after
each of them say what it computes.
-/

namespace InfixCalculator

/-- An expression tree: a numeral, or an operation on two subtrees. -/
inductive Tree where
  | leaf (text : String)
  | node (symbol : String) (left right : Tree)
  deriving Inhabited, Repr

namespace Tree

/-- What stands at the root: the text of a numeral or the symbol of an operation. -/
def label : Tree → String
  | leaf text => text
  | node symbol _ _ => symbol

/-- Whether the root is an operation. -/
def isOperation : Tree → Bool
  | leaf _ => false
  | node _ _ _ => true

/-- The operands of the root, from left to right. -/
def children : Tree → List Tree
  | leaf _ => []
  | node _ left right => [left, right]

/-- The number of nodes. -/
def size : Tree → Nat
  | leaf _ => 1
  | node _ left right => left.size + right.size + 1

/-- The number of nodes of all trees of a list. -/
def totalSize : List Tree → Nat
  | [] => 0
  | tree :: trees => tree.size + totalSize trees

@[simp]
theorem totalSize_nil : totalSize [] = 0 := rfl

/-- The nodes of the first tree are counted with those of the others. -/
@[simp]
theorem totalSize_cons (tree : Tree) (trees : List Tree) :
    totalSize (tree :: trees) = tree.size + totalSize trees := rfl

@[simp]
theorem totalSize_append (trees trees' : List Tree) :
    totalSize (trees ++ trees') = totalSize trees + totalSize trees' := by
  induction trees with
  | nil => simp
  | cons tree trees ih => simp [ih, Nat.add_assoc]

/-- A tree has one node more than its operands together. -/
theorem size_eq (tree : Tree) : tree.size = totalSize tree.children + 1 := by
  cases tree <;> simp [size, children]

/-! ## Postorder -/

/-- Write the trees of a list in postorder, in reverse order of the list, in front of `done`. -/
def postorderOnto : List Tree → List Token → List Token
  | [], done => done
  | leaf text :: rest, done => postorderOnto rest (.number text :: done)
  | node symbol left right :: rest, done =>
    postorderOnto (right :: left :: rest) (.operator symbol :: done)
termination_by trees => totalSize trees
decreasing_by all_goals simp only [totalSize_cons, size]; omega

/-- The nodes of a tree, each operation after its two operands: the tree in postfix notation. -/
def postorder (tree : Tree) : List Token :=
  postorderOnto [tree] []

/-- The trees of the list are written one after the other. -/
theorem postorderOnto_eq (trees : List Tree) (done : List Token) :
    postorderOnto trees done = (trees.reverse.map postorder).flatten ++ done := by
  have cons (tree : Tree) : ∀ (rest : List Tree) (done : List Token),
      postorderOnto (tree :: rest) done = postorderOnto rest (tree.postorder ++ done) := by
    induction tree with
    | leaf text => intro rest done; simp [postorder, postorderOnto]
    | node symbol left right ihl ihr =>
      intro rest done
      have h : (node symbol left right).postorder
          = left.postorder ++ (right.postorder ++ [.operator symbol]) := by
        rw [postorder, postorderOnto, ihr, ihl, postorderOnto]
      rw [postorderOnto, ihr, ihl, h]
      simp
  induction trees generalizing done with
  | nil => simp [postorderOnto]
  | cons tree rest ih => simp [cons, ih]

@[simp]
theorem postorder_leaf (text : String) : (leaf text).postorder = [.number text] := by
  simp [postorder, postorderOnto]

/-- An operation follows its left and then its right operand. -/
@[simp]
theorem postorder_node (symbol : String) (left right : Tree) :
    (node symbol left right).postorder
      = left.postorder ++ right.postorder ++ [.operator symbol] := by
  rw [postorder, postorderOnto, postorderOnto_eq]
  simp

/-! ## Preorder -/

/-- Write the trees of a list in preorder behind `done`, whose latest entry comes first. -/
def preorderOnto : List Tree → List Token → List Token
  | [], done => done.reverse
  | leaf text :: rest, done => preorderOnto rest (.number text :: done)
  | node symbol left right :: rest, done =>
    preorderOnto (left :: right :: rest) (.operator symbol :: done)
termination_by trees => totalSize trees
decreasing_by all_goals simp only [totalSize_cons, size]; omega

/-- The nodes of a tree, each operation before its two operands. -/
def preorder (tree : Tree) : List Token :=
  preorderOnto [tree] []

/-- The trees of the list are written one after the other. -/
theorem preorderOnto_eq (trees : List Tree) (done : List Token) :
    preorderOnto trees done = done.reverse ++ (trees.map preorder).flatten := by
  have cons (tree : Tree) : ∀ (rest : List Tree) (done : List Token),
      preorderOnto (tree :: rest) done = preorderOnto rest (tree.preorder.reverse ++ done) := by
    induction tree with
    | leaf text => intro rest done; simp [preorder, preorderOnto]
    | node symbol left right ihl ihr =>
      intro rest done
      have h : (node symbol left right).preorder
          = .operator symbol :: (left.preorder ++ right.preorder) := by
        rw [preorder, preorderOnto, ihl, ihr, preorderOnto]
        simp
      rw [preorderOnto, ihl, ihr, h]
      simp
  induction trees generalizing done with
  | nil => simp [preorderOnto]
  | cons tree rest ih => simp [cons, ih]

@[simp]
theorem preorder_leaf (text : String) : (leaf text).preorder = [.number text] := by
  simp [preorder, preorderOnto]

/-- An operation is followed by its left and then its right operand. -/
@[simp]
theorem preorder_node (symbol : String) (left right : Tree) :
    (node symbol left right).preorder
      = .operator symbol :: (left.preorder ++ right.preorder) := by
  rw [preorder, preorderOnto, preorderOnto_eq]
  simp

/-- The labels of all nodes in preorder. -/
def labels (tree : Tree) : List String :=
  tree.preorder.map Token.text

/-- The label of the root comes before those of the operands. -/
theorem labels_eq (tree : Tree) : tree.labels = tree.label :: tree.children.flatMap labels := by
  cases tree <;> simp [labels, label, children, Token.text]

/-! ## Depth -/

/-- The deepest level of the trees of a list, each of which is given with the level of its root, or
`deepest` if that is a deeper one. -/
def deepestLevel : List (Tree × Nat) → Nat → Nat
  | [], deepest => deepest
  | (leaf _, level) :: rest, deepest => deepestLevel rest (max deepest level)
  | (node _ left right, level) :: rest, deepest =>
    deepestLevel ((right, level + 1) :: (left, level + 1) :: rest) (max deepest level)
termination_by trees => totalSize (trees.map Prod.fst)
decreasing_by all_goals simp only [List.map_cons, totalSize_cons, size]; omega

/-- The number of levels of a tree; a leaf alone is one level. -/
def depth (tree : Tree) : Nat :=
  deepestLevel [(tree, 1)] 0

/-- A tree below `above` levels reaches as many levels deeper as it has. -/
theorem deepestLevel_cons (tree : Tree) :
    ∀ (above : Nat) (rest : List (Tree × Nat)) (deepest : Nat),
    deepestLevel ((tree, above + 1) :: rest) deepest =
      deepestLevel rest (max deepest (above + tree.depth)) := by
  induction tree with
  | leaf text => intro above rest deepest; simp [depth, deepestLevel]
  | node symbol left right ihl ihr =>
    intro above rest deepest
    have h : (node symbol left right).depth = max 1 (max (1 + right.depth) (1 + left.depth)) := by
      rw [depth, deepestLevel, ihr, ihl, deepestLevel]
      omega
    rw [deepestLevel, ihr, ihl, h]
    congr 1
    omega

@[simp]
theorem depth_leaf (text : String) : (leaf text).depth = 1 := by
  simp [depth, deepestLevel]

/-- An operation is one level above the deeper of its operands. -/
@[simp]
theorem depth_node (symbol : String) (left right : Tree) :
    (node symbol left right).depth = max left.depth right.depth + 1 := by
  rw [depth, deepestLevel, deepestLevel_cons, deepestLevel_cons, deepestLevel]
  omega

end Tree

end InfixCalculator
