import InfixCalculator.Layout
import Mathlib.Data.List.Nodup

/-!
# Paths through a tree

A path says at each node on the way down from the root which operand comes next. `Tree.nodes` lists
the nodes of a tree in preorder with the paths to them, so that a position in the list of places
stands for a path (`Tree.toList_layout`).

The layout keeps a list of subtrees that are still to be placed, and the subtree of a right operand
waits there while the whole left operand is placed. Each step of the layout places the root of the
first pending subtree only; `Layout.placeOnto_cons` says what has become of that subtree when the
next one comes to the front. The place of a node therefore follows from the path to it alone.
-/

namespace InfixCalculator

/-- Which of its two operands a path follows at an operation. -/
inductive Side where
  | left
  | right
  deriving DecidableEq, Repr

namespace Tree

/-- The subtree that a path from the root leads to. -/
def subtree? : Tree → List Side → Option Tree
  | tree, [] => some tree
  | leaf _, _ :: _ => none
  | node _ left _, .left :: path => left.subtree? path
  | node _ _ right, .right :: path => right.subtree? path

/-- The nodes of a tree in preorder, each as the path to it with the subtree below it. -/
def nodes : Tree → List (List Side × Tree)
  | leaf text => [([], leaf text)]
  | node symbol left right =>
    ([], node symbol left right) ::
      (left.nodes.map (Prod.map (Side.left :: ·) id) ++
        right.nodes.map (Prod.map (Side.right :: ·) id))

/-- The paths to the nodes of a tree in preorder. -/
def paths (tree : Tree) : List (List Side) :=
  tree.nodes.map Prod.fst

@[simp]
theorem paths_leaf (text : String) : (leaf text).paths = [[]] :=
  rfl

@[simp]
theorem paths_node (symbol : String) (left right : Tree) :
    (node symbol left right).paths =
      [] :: (left.paths.map (Side.left :: ·) ++ right.paths.map (Side.right :: ·)) := by
  simp [paths, nodes, Function.comp_def]

@[simp]
theorem length_nodes (tree : Tree) : tree.nodes.length = tree.size := by
  induction tree with
  | leaf text => rfl
  | node symbol left right ihl ihr => simp [nodes, size, ihl, ihr]

@[simp]
theorem length_paths (tree : Tree) : tree.paths.length = tree.size := by
  rw [paths, List.length_map, length_nodes]

/-- The root comes first. -/
theorem getElem?_nodes_zero (tree : Tree) : tree.nodes[0]? = some ([], tree) := by
  cases tree <;> rfl

/-- The nodes are listed with the subtrees that the paths lead to, and none is missing. -/
theorem mem_nodes_iff {tree sub : Tree} {path : List Side} :
    (path, sub) ∈ tree.nodes ↔ tree.subtree? path = some sub := by
  induction tree generalizing path with
  | leaf text => cases path <;> simp [nodes, subtree?, eq_comm]
  | node symbol left right ihl ihr =>
    match path with
    | [] => simp [nodes, subtree?, eq_comm]
    | .left :: path => simp [nodes, subtree?, ihl]
    | .right :: path => simp [nodes, subtree?, ihr]

theorem mem_paths_iff {tree : Tree} {path : List Side} :
    path ∈ tree.paths ↔ ∃ sub, tree.subtree? path = some sub := by
  simp [paths, mem_nodes_iff]

theorem subtree?_append (tree : Tree) (above below : List Side) :
    tree.subtree? (above ++ below) = (tree.subtree? above).bind (·.subtree? below) := by
  induction above generalizing tree with
  | nil => cases tree <;> rfl
  | cons side above ih =>
    cases tree with
    | leaf text => rfl
    | node symbol left right => cases side <;> exact ih _

/-- The nodes above a node belong to the tree as well. -/
theorem mem_paths_of_isPrefix {tree : Tree} {above path : List Side} (habove : above <+: path)
    (h : path ∈ tree.paths) : above ∈ tree.paths := by
  obtain ⟨below, rfl⟩ := habove
  obtain ⟨sub, hsub⟩ := mem_paths_iff.mp h
  rw [subtree?_append] at hsub
  obtain ⟨sub', hsub', -⟩ := Option.bind_eq_some_iff.mp hsub
  exact mem_paths_iff.mpr ⟨sub', hsub'⟩

/-- No two nodes have the same path. -/
theorem nodup_paths (tree : Tree) : tree.paths.Nodup := by
  induction tree with
  | leaf text => simp
  | node symbol left right ihl ihr =>
    have hinj (side : Side) : Function.Injective (side :: ·) := List.cons_injective
    simp [List.nodup_append, ihl.map (hinj .left), ihr.map (hinj .right)]

/-- The position of the parent of a node in preorder; the root has none. -/
def parentIndex? (tree : Tree) (path : List Side) : Option Nat :=
  if path = [] then none else some (tree.paths.idxOf path.dropLast)

end Tree

namespace Layout

/-! ## Descending along a path -/

/-- How far a descent from the root has come. -/
structure Spot where
  center : Point
  /-- The measure of how far the operands below are set apart. -/
  spread : Float32
  /-- The number of levels above. -/
  level : Nat

namespace Spot

/-- The horizontal distance to the operands. -/
def gap (spot : Spot) : Float32 :=
  spot.spread / (Float32.ofNat spot.level * 0.5 + 1)

/-- One step down, to one of the operands. -/
def step (spot : Spot) : Side → Spot
  | .left => ⟨⟨spot.center.x - spot.gap, spot.center.y + 80⟩, spot.spread * 0.6, spot.level + 1⟩
  | .right => ⟨⟨spot.center.x + spot.gap, spot.center.y + 80⟩, spot.spread * 0.6, spot.level + 1⟩

end Spot

/-- The point that a path leads to from the root. -/
def position (origin : Point) (spread : Float32) (path : List Side) : Point :=
  (path.foldl Spot.step ⟨origin, spread, 0⟩).center

/-- Steps to the same level lead equally far down, whichever operands they lead to. -/
theorem y_foldl_step {path path' : List Side} (hlength : path.length = path'.length)
    {spot spot' : Spot} (hy : spot.center.y = spot'.center.y) :
    (path.foldl Spot.step spot).center.y = (path'.foldl Spot.step spot').center.y := by
  induction path generalizing path' spot spot' with
  | nil =>
    obtain rfl : path' = [] := List.length_eq_zero_iff.mp hlength.symm
    exact hy
  | cons side path ih =>
    obtain ⟨side', path', rfl⟩ := List.exists_cons_of_length_eq_add_one hlength.symm
    refine ih (Nat.succ.inj hlength) ?_
    cases side <;> cases side' <;> exact congrArg (· + 80) hy

end Layout

/-! ## The layout by recursion -/

namespace Tree

/-- The places of a tree by recursion, if its root has the given spot and parent and stands in
position `index`. -/
def placesFrom : Tree → Layout.Spot → Option Nat → Nat → List Place
  | leaf text, spot, parent, _ => [⟨text, false, spot.center, parent⟩]
  | node symbol left right, spot, parent, index =>
    ⟨symbol, true, spot.center, parent⟩ ::
      (left.placesFrom (spot.step .left) (some index) (index + 1) ++
        right.placesFrom (spot.step .right) (some index) (index + (left.size + 1)))

@[simp]
theorem length_placesFrom (tree : Tree) (spot : Layout.Spot) (parent : Option Nat) (index : Nat) :
    (tree.placesFrom spot parent index).length = tree.size := by
  induction tree generalizing spot parent index with
  | leaf text => rfl
  | node symbol left right ihl ihr => simp [placesFrom, size, ihl, ihr]

end Tree

namespace Layout

/-- The spot of the root of a pending subtree. -/
def Pending.spot (pending : Pending) : Spot :=
  ⟨pending.center, pending.spread, pending.level⟩

/-- The first of the pending subtrees is placed as a whole before the next one. -/
theorem placeOnto_cons (pending : Pending) (rest : List Pending) (places : Array Place) :
    placeOnto (pending :: rest) places =
      placeOnto rest
        (places ++ (pending.tree.placesFrom pending.spot pending.parent places.size).toArray) := by
  obtain ⟨tree, center, spread, level, parent⟩ := pending
  induction tree generalizing center spread level parent rest places with
  | leaf text =>
    rw [placeOnto]
    rfl
  | node symbol left right ihl ihr =>
    rw [placeOnto]
    simp only [Pending.operands, Pending.operand, List.cons_append, List.nil_append]
    rw [ihl, ihr]
    -- the right operand is placed behind all places of the left one
    congr 1
    apply Array.toList_inj.mp
    simp [Tree.placesFrom, Pending.spot, Pending.place, Tree.label, Tree.isOperation, Spot.step,
      Spot.gap, Pending.reach, levelHeight, shrinkage]

end Layout

namespace Tree

/-- The place of a node, given the path to it and the subtree below it. -/
def placeOf (tree : Tree) (origin : Point) (spread : Float32) (node : List Side × Tree) :
    Place where
  label := node.2.label
  isOperation := node.2.isOperation
  center := Layout.position origin spread node.1
  parent := tree.parentIndex? node.1

theorem idxOf_map_cons (side : Side) (paths : List (List Side)) (path : List Side) :
    (paths.map (side :: ·)).idxOf (side :: path) = paths.idxOf path := by
  induction paths with
  | nil => rfl
  | cons head paths ih => simp [List.idxOf_cons, ih]

theorem idxOf_paths_left (symbol : String) (left right : Tree) {path : List Side}
    (h : path ∈ left.paths) :
    (node symbol left right).paths.idxOf (.left :: path) = left.paths.idxOf path + 1 := by
  rw [paths_node, List.idxOf_cons_ne _ (by simp), List.idxOf_append_of_mem (by simpa using h),
    idxOf_map_cons]

theorem idxOf_paths_right (symbol : String) (left right : Tree) (path : List Side) :
    (node symbol left right).paths.idxOf (.right :: path) =
      right.paths.idxOf path + (left.size + 1) := by
  rw [paths_node, List.idxOf_cons_ne _ (by simp), List.idxOf_append_of_notMem (by simp),
    idxOf_map_cons, List.length_map, length_paths]
  omega

/-- The recursion gives every node its place. -/
theorem placesFrom_eq_map (tree : Tree) (spot : Layout.Spot) (parent : Option Nat) (index : Nat) :
    tree.placesFrom spot parent index =
      tree.nodes.map fun node =>
        { label := node.2.label
          isOperation := node.2.isOperation
          center := (node.1.foldl Layout.Spot.step spot).center
          parent :=
            if node.1 = [] then parent else some (index + tree.paths.idxOf node.1.dropLast) } := by
  induction tree generalizing spot parent index with
  | leaf text => rfl
  | node symbol left right ihl ihr =>
    rw [placesFrom, nodes, List.map_cons, List.map_append, List.map_map, List.map_map, ihl, ihr]
    -- an operand is a child of this node, and below an operand the positions are shifted
    congr 2
    · refine List.map_congr_left fun node hmem => ?_
      have habove := List.dropLast_prefix node.1
      have hmem : node.1.dropLast ∈ left.paths :=
        mem_paths_of_isPrefix habove (List.mem_map_of_mem hmem)
      by_cases hroot : node.1 = []
      · simp [hroot]
      · simp [hroot, List.dropLast_cons_of_ne_nil, idxOf_paths_left, hmem, -paths_node]
        omega
    · refine List.map_congr_left fun node _ => ?_
      by_cases hroot : node.1 = []
      · simp [hroot]
      · simp [hroot, List.dropLast_cons_of_ne_nil, idxOf_paths_right, -paths_node]
        omega

/-- The layout gives every node its place, in preorder. -/
theorem toList_layout (tree : Tree) (origin : Point) (spread : Float32) :
    (tree.layout origin spread).toList = tree.nodes.map (tree.placeOf origin spread) := by
  rw [layout, Layout.placeOnto_cons, Layout.placeOnto]
  simp [placesFrom_eq_map, Layout.Pending.spot, placeOf, parentIndex?, Layout.position]

theorem getElem?_layout (tree : Tree) (origin : Point) (spread : Float32) (i : Nat) :
    (tree.layout origin spread)[i]? = tree.nodes[i]?.map (tree.placeOf origin spread) := by
  rw [← Array.getElem?_toList, toList_layout, List.getElem?_map]

@[simp]
theorem size_layout (tree : Tree) (origin : Point) (spread : Float32) :
    (tree.layout origin spread).size = tree.size := by
  rw [← Array.length_toList, toList_layout, List.length_map, length_nodes]

theorem getElem?_paths (tree : Tree) (i : Nat) : tree.paths[i]? = tree.nodes[i]?.map Prod.fst :=
  List.getElem?_map ..

theorem getElem?_paths_of_nodes {tree : Tree} {i : Nat} {node : List Side × Tree}
    (h : tree.nodes[i]? = some node) : tree.paths[i]? = some node.1 := by
  rw [getElem?_paths, h, Option.map_some]

theorem exists_getElem?_nodes {tree : Tree} {i : Nat} {path : List Side}
    (h : tree.paths[i]? = some path) : ∃ sub, tree.nodes[i]? = some (path, sub) := by
  rw [getElem?_paths, Option.map_eq_some_iff] at h
  obtain ⟨⟨path, sub⟩, h, rfl⟩ := h
  exact ⟨sub, h⟩

/-- A path designates one position. -/
theorem getElem?_paths_inj {tree : Tree} {i j : Nat} {path : List Side}
    (hi : tree.paths[i]? = some path) (hj : tree.paths[j]? = some path) : i = j :=
  (List.getElem?_inj (List.getElem?_eq_some_iff.mp hi).1 (nodup_paths tree)).mp (hi.trans hj.symm)

/-- The first node is the root, and a node has the empty path only if it comes first. -/
theorem getElem?_nodes_nil {tree sub : Tree} {i : Nat} (h : tree.nodes[i]? = some ([], sub)) :
    i = 0 := by
  have hroot : tree.paths[0]? = some [] := getElem?_paths_of_nodes (getElem?_nodes_zero tree)
  exact getElem?_paths_inj (getElem?_paths_of_nodes h) hroot

/-- The position of the parent designates the path that is shorter by the last step. -/
theorem getElem?_paths_parentIndex {tree sub : Tree} {above : List Side} {side : Side}
    (h : (above ++ [side], sub) ∈ tree.nodes) :
    ∃ j, tree.parentIndex? (above ++ [side]) = some j ∧ tree.paths[j]? = some above := by
  have hmem : above ∈ tree.paths :=
    mem_paths_of_isPrefix (List.prefix_append above [side]) (List.mem_map_of_mem h)
  refine ⟨tree.paths.idxOf above, by simp [parentIndex?], ?_⟩
  rw [List.getElem?_eq_getElem (List.idxOf_lt_length_of_mem hmem), List.getElem_idxOf]

/-- The path decides on the point. -/
theorem center_of_getElem?_layout {tree : Tree} {origin : Point} {spread : Float32} {i : Nat}
    {path : List Side} {place : Place} (hpath : tree.paths[i]? = some path)
    (hplace : (tree.layout origin spread)[i]? = some place) :
    place.center = Layout.position origin spread path := by
  rw [getElem?_paths, Option.map_eq_some_iff] at hpath
  obtain ⟨node, hnode, rfl⟩ := hpath
  rw [getElem?_layout, hnode, Option.map_some, Option.some_inj] at hplace
  rw [← hplace, placeOf]

/-- The layout is the one by recursion in preorder: it has one place for each node, a place tells
the node that the path leads to and the position of its parent, and the point is found by descending
along the path. So it is the same in all trees that have the path, and the nodes of one level stand
equally high. -/
theorem layout_follows_paths (tree : Tree) (origin : Point) (spread : Float32) :
    (tree.layout origin spread).toList = tree.placesFrom ⟨origin, spread, 0⟩ none 0 ∧
      (tree.layout origin spread).size = tree.size ∧
      tree.paths.Nodup ∧
      (∀ path sub, tree.subtree? path = some sub ↔ ∃ i : Nat, tree.nodes[i]? = some (path, sub)) ∧
      (∀ (i : Nat) path sub, tree.nodes[i]? = some (path, sub) →
        ∃ place, (tree.layout origin spread)[i]? = some place ∧
          place.label = sub.label ∧ place.isOperation = sub.isOperation ∧
          place.center = Layout.position origin spread path ∧
          (i = 0 ∧ path = [] ∧ place.parent = none ∨
            ∃ above side j, path = above ++ [side] ∧ place.parent = some j ∧
              tree.paths[j]? = some above)) ∧
      (∀ (other : Tree) (i j : Nat) (path : List Side) (place place' : Place),
        tree.paths[i]? = some path → other.paths[j]? = some path →
        (tree.layout origin spread)[i]? = some place →
        (other.layout origin spread)[j]? = some place' → place.center = place'.center) ∧
      ∀ (i j : Nat) (path path' : List Side) (place place' : Place),
        tree.paths[i]? = some path → tree.paths[j]? = some path' → path.length = path'.length →
        (tree.layout origin spread)[i]? = some place →
        (tree.layout origin spread)[j]? = some place' → place.center.y = place'.center.y := by
  refine ⟨?_, size_layout .., nodup_paths tree, fun path sub => ?_, fun i path sub hnode => ?_,
    ?_, ?_⟩
  · simp [toList_layout, placesFrom_eq_map, placeOf, parentIndex?, Layout.position]
  -- the nodes are listed by their paths
  · rw [← mem_nodes_iff, List.mem_iff_getElem?]
  -- the place of a node, and that of its parent
  · refine ⟨_, by rw [getElem?_layout, hnode, Option.map_some], rfl, rfl, rfl, ?_⟩
    rcases path.eq_nil_or_concat with rfl | ⟨above, side, rfl⟩
    · exact .inl ⟨getElem?_nodes_nil hnode, rfl, rfl⟩
    · rw [List.concat_eq_append] at hnode ⊢
      obtain ⟨j, hparent, habove⟩ := getElem?_paths_parentIndex (List.mem_of_getElem? hnode)
      exact .inr ⟨above, side, j, rfl, hparent, habove⟩
  -- points depend on paths, their heights on the lengths of paths
  · intro other i j path place place' hi hj hplace hplace'
    rw [center_of_getElem?_layout hi hplace, center_of_getElem?_layout hj hplace']
  · intro i j path path' place place' hi hj hlevel hplace hplace'
    rw [center_of_getElem?_layout hi hplace, center_of_getElem?_layout hj hplace']
    exact Layout.y_foldl_step hlevel rfl

end Tree

end InfixCalculator
