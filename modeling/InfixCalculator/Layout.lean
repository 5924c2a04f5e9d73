import InfixCalculator.Geometry
import InfixCalculator.Tree

/-!
# Where the nodes of a tree stand

Each node stands below its parent, a left operand to the left and a right operand to the right, at a
distance that shrinks from level to level. The places are listed in preorder, and each one refers to
its parent by position in the list.
-/

namespace InfixCalculator

/-- A node with its place in the plane. -/
structure Place where
  label : String
  isOperation : Bool
  center : Point
  /-- The position of the parent in the list of places; none for the root. -/
  parent : Option Nat

namespace Layout

/-- The vertical distance between two levels. -/
def levelHeight : Float32 := 80

/-- The factor by which the spread shrinks from level to level. -/
def shrinkage : Float32 := 0.6

/-- A subtree that is still to be placed. -/
structure Pending where
  tree : Tree
  /-- Where its root will stand. -/
  center : Point
  /-- The measure of how far its operands are set apart. -/
  spread : Float32
  /-- The number of levels above it. -/
  level : Nat
  parent : Option Nat

namespace Pending

/-- The place of the root of a pending subtree. -/
def place (pending : Pending) : Place where
  label := pending.tree.label
  isOperation := pending.tree.isOperation
  center := pending.center
  parent := pending.parent

/-- The horizontal distance of both operands from the root. -/
def reach (pending : Pending) : Float32 :=
  pending.spread / (Float32.ofNat pending.level * 0.5 + 1)

/-- The subtree of an operand of the root, which stands in position `parent`, at the horizontal
coordinate `x`. -/
def operand (pending : Pending) (parent : Nat) (tree : Tree) (x : Float32) : Pending where
  tree
  center := ⟨x, pending.center.y + levelHeight⟩
  spread := pending.spread * shrinkage
  level := pending.level + 1
  parent := some parent

/-- The operands of the root, which stands in position `parent`. -/
def operands (pending : Pending) (parent : Nat) : List Pending :=
  match pending.tree with
  | .leaf _ => []
  | .node _ left right =>
    [pending.operand parent left (pending.center.x - pending.reach),
     pending.operand parent right (pending.center.x + pending.reach)]

/-- The subtrees of the operands are the operands of the subtree. -/
theorem map_tree_operands (pending : Pending) (parent : Nat) :
    (pending.operands parent).map tree = pending.tree.children := by
  unfold operands
  split <;> simp [*, Tree.children, operand]

end Pending

/-- Place pending subtrees one after the other, each in preorder. -/
def placeOnto : List Pending → Array Place → Array Place
  | [], places => places
  | pending :: rest, places =>
    -- the place of the root is pushed now, so its operands refer to the present size
    placeOnto (pending.operands places.size ++ rest) (places.push pending.place)
termination_by pending => Tree.totalSize (pending.map Pending.tree)
decreasing_by
  simp only [List.map_append, Pending.map_tree_operands, Tree.totalSize_append, List.map_cons,
    Tree.totalSize_cons, Tree.size_eq pending.tree]
  omega

end Layout

/-- The places of all nodes of a tree in preorder, its root at `origin`. -/
def Tree.layout (tree : Tree) (origin : Point) (spread : Float32) : Array Place :=
  Layout.placeOnto [{ tree, center := origin, spread, level := 0, parent := none }] #[]

end InfixCalculator
