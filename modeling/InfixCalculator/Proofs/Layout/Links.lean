import InfixCalculator.Proofs.Layout.Paths
import Mathlib.Data.List.Induction
import Mathlib.Data.Nat.Basic
import Mathlib.Logic.Relation
import Mathlib.Order.Basic

/-!
# The tree behind a list of places

A list of places refers to parents by position. In the layout of a tree the nodes below a node
stand behind it in one block, which begins with the node (`Tree.exists_nodes_eq_append`), so the
positions of parents tell ancestors and operands, and the tree can be read back from the labels, the
kinds and the positions of the parents: `Tree.ofLinks?_map_link_layout`.
-/

namespace InfixCalculator

/-- What a place tells about the tree: everything but its point. -/
structure Link where
  label : String
  isOperation : Bool
  parent : Option Nat
  deriving DecidableEq, Repr

/-- A place without its point. -/
def Place.link (place : Place) : Link where
  label := place.label
  isOperation := place.isOperation
  parent := place.parent

namespace Layout

/-- The place in position `j` refers to the one in position `i` as its parent. -/
def IsParent (places : Array Place) (i j : Nat) : Prop :=
  ∃ place, places[j]? = some place ∧ place.parent = some i

end Layout

namespace Tree

/-! ## The block of a subtree -/

/-- The nodes of a subtree stand one after the other, in their own order. -/
theorem exists_nodes_eq_append {tree sub : Tree} {i : Nat} {path : List Side}
    (h : tree.nodes[i]? = some (path, sub)) :
    ∃ front back, tree.nodes = front ++ (sub.nodes.map (Prod.map (path ++ ·) id) ++ back) ∧
      front.length = i := by
  induction tree generalizing i path with
  | leaf text =>
    obtain ⟨rfl, rfl, rfl⟩ : i = 0 ∧ path = [] ∧ sub = leaf text := by
      cases i <;> simp_all [nodes]
    exact ⟨[], [], by simp [nodes], rfl⟩
  | node symbol left right ihl ihr =>
    cases i with
    | zero =>
      -- the root comes first, and its block is the whole list
      obtain ⟨rfl, rfl⟩ : [] = path ∧ node symbol left right = sub := by
        rwa [getElem?_nodes_zero, Option.some_inj, Prod.mk.injEq] at h
      have hid : Prod.map (([] : List Side) ++ ·) (id : Tree → Tree) = id := rfl
      exact ⟨[], [], by rw [hid, List.map_id, List.append_nil, List.nil_append], rfl⟩
    | succ i =>
      rw [nodes, List.getElem?_cons_succ] at h
      rcases Nat.lt_or_ge i left.size with hi | hi
      · rw [List.getElem?_append_left (by simpa using hi), List.getElem?_map,
          Option.map_eq_some_iff] at h
        obtain ⟨⟨path', sub'⟩, h, heq⟩ := h
        obtain ⟨rfl, rfl⟩ := Prod.mk.inj heq
        -- behind a block of the left operand come the rest of it and the right operand
        obtain ⟨front, back, hnodes, rfl⟩ := ihl h
        refine ⟨([], node symbol left right) :: front.map (Prod.map (.left :: ·) id),
          back.map (Prod.map (.left :: ·) id) ++ right.nodes.map (Prod.map (.right :: ·) id),
          ?_, ?_⟩
        · rw [nodes, hnodes]
          simp [Function.comp_def]
        · simp
      · rw [List.getElem?_append_right (by simpa using hi), List.getElem?_map,
          Option.map_eq_some_iff] at h
        obtain ⟨⟨path', sub'⟩, h, heq⟩ := h
        obtain ⟨rfl, rfl⟩ := Prod.mk.inj heq
        -- in front of a block of the right operand stand the root and the left operand
        obtain ⟨front, back, hnodes, hfront⟩ := ihr h
        refine ⟨([], node symbol left right) :: (left.nodes.map (Prod.map (.left :: ·) id) ++
          front.map (Prod.map (.right :: ·) id)), back.map (Prod.map (.right :: ·) id), ?_, ?_⟩
        · rw [nodes, hnodes]
          simp [Function.comp_def]
        · simp [hfront]
          omega

/-- The block of a subtree lists its nodes, each behind the path to the subtree. -/
theorem getElem?_nodes_add {tree sub : Tree} {i k : Nat} {path : List Side}
    (h : tree.nodes[i]? = some (path, sub)) (hk : k < sub.size) :
    tree.nodes[i + k]? = sub.nodes[k]?.map (Prod.map (path ++ ·) id) := by
  obtain ⟨front, back, hnodes, rfl⟩ := exists_nodes_eq_append h
  rw [hnodes, List.getElem?_append_right (Nat.le_add_right ..),
    List.getElem?_append_left (by simpa using hk), Nat.add_sub_cancel_left, List.getElem?_map]

theorem getElem?_paths_add {tree sub : Tree} {i k : Nat} {path : List Side}
    (h : tree.nodes[i]? = some (path, sub)) (hk : k < sub.size) :
    tree.paths[i + k]? = sub.paths[k]?.map (path ++ ·) := by
  simp [getElem?_paths, getElem?_nodes_add h hk, Function.comp_def]

/-- The left operand stands right behind an operation, the right one behind the block of the left
one. -/
theorem getElem?_nodes_operands {tree left right : Tree} {i : Nat} {path : List Side}
    {symbol : String} (h : tree.nodes[i]? = some (path, node symbol left right)) :
    tree.nodes[i + 1]? = some (path ++ [.left], left) ∧
      tree.nodes[i + (left.size + 1)]? = some (path ++ [.right], right) := by
  have hleft : 0 < left.size := by rw [size_eq]; omega
  have hright : 0 < right.size := by rw [size_eq]; omega
  constructor
  · rw [getElem?_nodes_add h (by simp [size]; omega), nodes, List.getElem?_cons_succ,
      List.getElem?_append_left (by simpa using hleft), List.getElem?_map, getElem?_nodes_zero]
    rfl
  · rw [getElem?_nodes_add h (by simp [size]; omega), nodes, List.getElem?_cons_succ,
      List.getElem?_append_right (by simp), List.length_map, length_nodes, Nat.sub_self,
      List.getElem?_map, getElem?_nodes_zero]
    rfl

/-- The nodes below a node are those that stand behind it in its block. -/
theorem exists_getElem?_paths_append_iff {tree sub : Tree} {i j : Nat} {path : List Side}
    (h : tree.nodes[i]? = some (path, sub)) :
    (∃ below, below ≠ [] ∧ tree.paths[j]? = some (path ++ below)) ↔ i < j ∧ j < i + sub.size := by
  constructor
  · rintro ⟨below, hbelow, hj⟩
    -- a path that goes on leads to a node of the subtree, and this is listed in the block
    have hmem : below ∈ sub.paths := by
      obtain ⟨sub', hsub'⟩ := mem_paths_iff.mp (List.mem_of_getElem? hj)
      rw [subtree?_append, mem_nodes_iff.mp (List.mem_of_getElem? h), Option.bind_some] at hsub'
      exact mem_paths_iff.mpr ⟨sub', hsub'⟩
    obtain ⟨k, hk⟩ := List.mem_iff_getElem?.mp hmem
    have hlt : k < sub.size := by simpa using (List.getElem?_eq_some_iff.mp hk).1
    have hpos : k ≠ 0 := by
      rintro rfl
      rw [getElem?_paths, getElem?_nodes_zero] at hk
      exact hbelow (Option.some_inj.mp hk).symm
    have hik := getElem?_paths_add h hlt
    rw [hk] at hik
    obtain rfl := getElem?_paths_inj hj hik
    omega
  · rintro ⟨hij, hj⟩
    obtain ⟨k, rfl⟩ := Nat.exists_eq_add_of_le hij.le
    -- only the first node of the block has the path to the subtree itself
    have hk : k < sub.paths.length := by simpa using hj
    refine ⟨sub.paths[k], ?_,
      by rw [getElem?_paths_add h (by omega), List.getElem?_eq_getElem hk]; rfl⟩
    intro hnil
    obtain ⟨sub', hsub'⟩ := exists_getElem?_nodes (List.getElem?_eq_getElem hk)
    have := getElem?_nodes_nil (hnil ▸ hsub')
    omega

/-! ## Parents and descendants -/

section Family

variable {tree : Tree} {origin : Point} {spread : Float32} {i j : Nat}

/-- The parent of a node has the path without the last step. -/
theorem isParent_layout_iff :
    Layout.IsParent (tree.layout origin spread) i j ↔
      ∃ path side, tree.paths[i]? = some path ∧ tree.paths[j]? = some (path ++ [side]) := by
  constructor
  · rintro ⟨place, hplace, hparent⟩
    rw [getElem?_layout, Option.map_eq_some_iff] at hplace
    obtain ⟨⟨path, sub⟩, hj, rfl⟩ := hplace
    -- the root has no parent, so there is a last step
    rcases path.eq_nil_or_concat with rfl | ⟨above, side, rfl⟩
    · exact absurd hparent (by simp [placeOf, parentIndex?])
    · rw [List.concat_eq_append] at hj hparent
      obtain ⟨i', hi', habove⟩ := getElem?_paths_parentIndex (List.mem_of_getElem? hj)
      obtain rfl : i' = i := Option.some_inj.mp (hi'.symm.trans hparent)
      exact ⟨above, side, habove, getElem?_paths_of_nodes hj⟩
  · rintro ⟨path, side, hi, hj⟩
    obtain ⟨sub, hsub⟩ := exists_getElem?_nodes hj
    obtain ⟨i', hi', hpath⟩ := getElem?_paths_parentIndex (List.mem_of_getElem? hsub)
    obtain rfl := getElem?_paths_inj hpath hi
    exact ⟨_, by rw [getElem?_layout, hsub, Option.map_some], hi'⟩

/-- A node is a descendant of another one if its path goes on from there. -/
theorem transGen_isParent_layout_iff :
    Relation.TransGen (Layout.IsParent (tree.layout origin spread)) i j ↔
      ∃ path below, below ≠ [] ∧ tree.paths[i]? = some path ∧
        tree.paths[j]? = some (path ++ below) := by
  constructor
  · intro h
    induction h with
    | single h =>
      obtain ⟨path, side, hi, hj⟩ := isParent_layout_iff.mp h
      exact ⟨path, [side], by simp, hi, hj⟩
    | tail _ h ih =>
      obtain ⟨path, below, -, hi, hk⟩ := ih
      obtain ⟨path', side, hk', hj⟩ := isParent_layout_iff.mp h
      obtain rfl : path ++ below = path' := Option.some_inj.mp (hk.symm.trans hk')
      exact ⟨path, below ++ [side], by simp, hi, by rw [hj, List.append_assoc]⟩
  · rintro ⟨path, below, hbelow, hi, hj⟩
    induction below using List.reverseRecOn generalizing j with
    | nil => exact absurd rfl hbelow
    | append_singleton below side ih =>
      rw [← List.append_assoc] at hj
      rcases eq_or_ne below [] with rfl | hne
      · exact .single (isParent_layout_iff.mpr ⟨path, side, hi, by simpa using hj⟩)
      · -- the node before the last step exists as well
        obtain ⟨sub, hsub⟩ := exists_getElem?_nodes hj
        obtain ⟨k, -, hk⟩ := getElem?_paths_parentIndex (List.mem_of_getElem? hsub)
        exact .tail (ih hne hk) (isParent_layout_iff.mpr ⟨_, side, hk, hj⟩)

/-- The descendants of a node are the other nodes of its block. -/
theorem transGen_isParent_layout_iff_lt {path : List Side} {sub : Tree}
    (h : tree.nodes[i]? = some (path, sub)) :
    Relation.TransGen (Layout.IsParent (tree.layout origin spread)) i j ↔
      i < j ∧ j < i + sub.size := by
  have hpath := getElem?_paths_of_nodes h
  rw [transGen_isParent_layout_iff, ← exists_getElem?_paths_append_iff h]
  constructor
  · rintro ⟨path', below, hbelow, hi, hj⟩
    obtain rfl : path' = path := Option.some_inj.mp (hi.symm.trans hpath)
    exact ⟨below, hbelow, hj⟩
  · rintro ⟨below, hbelow, hj⟩
    exact ⟨path, below, hbelow, hpath, hj⟩

/-- The operands of an operation: one right behind it, one behind the block of the first. -/
theorem isParent_layout_node_iff {path : List Side} {symbol : String} {left right : Tree}
    (h : tree.nodes[i]? = some (path, node symbol left right)) :
    Layout.IsParent (tree.layout origin spread) i j ↔ j = i + 1 ∨ j = i + (left.size + 1) := by
  obtain ⟨hleft, hright⟩ := getElem?_nodes_operands h
  rw [isParent_layout_iff]
  constructor
  · rintro ⟨path', side, hi, hj⟩
    obtain rfl : path' = path := Option.some_inj.mp (hi.symm.trans (getElem?_paths_of_nodes h))
    cases side with
    | left => exact .inl (getElem?_paths_inj hj (getElem?_paths_of_nodes hleft))
    | right => exact .inr (getElem?_paths_inj hj (getElem?_paths_of_nodes hright))
  · rintro (rfl | rfl)
    · exact ⟨path, .left, getElem?_paths_of_nodes h, getElem?_paths_of_nodes hleft⟩
    · exact ⟨path, .right, getElem?_paths_of_nodes h, getElem?_paths_of_nodes hright⟩

/-- Only operations have operands. -/
theorem exists_node_of_isParent_layout
    (h : Layout.IsParent (tree.layout origin spread) i j) :
    ∃ path symbol left right, tree.nodes[i]? = some (path, node symbol left right) := by
  obtain ⟨path, side, hi, hj⟩ := isParent_layout_iff.mp h
  obtain ⟨sub, hsub⟩ := exists_getElem?_nodes hi
  obtain ⟨sub', hsub'⟩ := mem_paths_iff.mp (List.mem_of_getElem? hj)
  rw [subtree?_append, mem_nodes_iff.mp (List.mem_of_getElem? hsub), Option.bind_some] at hsub'
  cases sub with
  | leaf text => exact absurd hsub' (by simp [subtree?])
  | node symbol left right => exact ⟨path, symbol, left, right, hsub⟩

end Family

/-! ## Reading the tree back -/

/-- The tree with the given root, if it gets the operands that it needs. -/
def assemble? (link : Link) : List Tree → Option Tree
  | [] => if link.isOperation then none else some (leaf link.label)
  | [left, right] => if link.isOperation then some (node link.label left right) else none
  | _ => none

/-- Read links from last to first, the first of them in position `index`: every link takes the trees
that refer to it as their operands, in order. What is left over are trees that refer to a position
in front of the links, or to none. -/
def regrow? : List Link → Nat → Option (List (Option Nat × Tree))
  | [], _ => some []
  | link :: links, index =>
    (regrow? links (index + 1)).bind fun grown =>
      (assemble? link ((grown.filter (·.1 = some index)).map Prod.snd)).map fun tree =>
        (link.parent, tree) :: grown.filter (·.1 ≠ some index)

/-- The tree that the links describe, if they describe one. -/
def ofLinks? (links : List Link) : Option Tree :=
  match regrow? links 0 with
  | some [(none, tree)] => some tree
  | _ => none

/-- Trees that refer to positions in front of `index` are left over at `index`. -/
theorem filter_parent_eq {grown : List (Option Nat × Tree)} {index : Nat}
    (hgrown : ∀ entry ∈ grown, ∀ p, entry.1 = some p → p < index) :
    grown.filter (·.1 = some index) = [] ∧ grown.filter (·.1 ≠ some index) = grown := by
  have hne : ∀ entry ∈ grown, entry.1 ≠ some index := fun entry hentry heq =>
    (hgrown entry hentry index heq).false
  exact ⟨by simpa using hne, by simpa using hne⟩

/-- The links of a subtree grow into the subtree, if none of the trees behind it refers to a
position in its block. -/
theorem regrow?_map_link_placesFrom (tree : Tree) (spot : Layout.Spot) (parent : Option Nat)
    (index : Nat) {rest : List Link} {grown : List (Option Nat × Tree)}
    (hrest : regrow? rest (index + tree.size) = some grown)
    (hgrown : ∀ entry ∈ grown, ∀ p, entry.1 = some p → p < index) :
    regrow? ((tree.placesFrom spot parent index).map Place.link ++ rest) index =
      some ((parent, tree) :: grown) := by
  induction tree generalizing spot parent index rest grown with
  | leaf text =>
    obtain ⟨hnone, hall⟩ := filter_parent_eq hgrown
    rw [size] at hrest
    rw [placesFrom, List.map_cons, List.map_nil, List.cons_append, List.nil_append, regrow?, hrest,
      Option.bind_some, hnone, hall]
    rfl
  | node symbol left right ihl ihr =>
    obtain ⟨hnone, hall⟩ := filter_parent_eq hgrown
    have hright := ihr (spot.step .right) (some index) (index + (left.size + 1))
      (by rw [← hrest, size]; congr 1; omega)
      fun entry hentry p hp => (hgrown entry hentry p hp).trans_le (Nat.le_add_right ..)
    -- the right operand refers to this node, which stands in front of the left operand
    have hleft := ihl (spot.step .left) (some index) (index + 1)
      (by rw [← hright]; congr 1; omega) (by
        intro entry hentry p hp
        rcases List.mem_cons.mp hentry with rfl | hentry
        · rw [Option.some_inj.mp hp]
          omega
        · exact (hgrown entry hentry p hp).trans (Nat.lt_succ_self _))
    rw [placesFrom, List.map_cons, List.map_append, List.cons_append, List.append_assoc, regrow?,
      hleft, Option.bind_some]
    simp only [List.filter_cons, hnone, hall]
    simp [assemble?, Place.link]

/-- The tree is read back from its layout. -/
theorem ofLinks?_map_link_layout (tree : Tree) (origin : Point) (spread : Float32) :
    ofLinks? ((tree.layout origin spread).toList.map Place.link) = some tree := by
  have hplaces : (tree.layout origin spread).toList =
      tree.placesFrom ⟨origin, spread, 0⟩ none 0 := by
    simp [toList_layout, placesFrom_eq_map, placeOf, parentIndex?, Layout.position]
  have hgrown := regrow?_map_link_placesFrom tree ⟨origin, spread, 0⟩ none 0
    (by rw [regrow?]) (by simp)
  rw [List.append_nil] at hgrown
  rw [ofLinks?, hplaces, hgrown]

/-- A layout tells the tree. The first place and no other has no parent; parents stand in front and
are operations; an operation has two operands, one right behind it and one behind all descendants of
the first; and the tree is read back from the places without their points, so that no other tree has
the same list. -/
theorem layout_determines_tree (tree : Tree) (origin : Point) (spread : Float32) :
    (∃ root, (tree.layout origin spread)[0]? = some root) ∧
      (∀ (i : Nat) (place : Place), (tree.layout origin spread)[i]? = some place →
        (place.parent = none ↔ i = 0)) ∧
      (∀ i j, Layout.IsParent (tree.layout origin spread) i j →
        i < j ∧ ∃ place, (tree.layout origin spread)[i]? = some place ∧ place.isOperation = true) ∧
      (∀ (i : Nat) (place : Place), (tree.layout origin spread)[i]? = some place →
        place.isOperation = true →
          ∃ second, i + 1 < second ∧
            (∀ j, Layout.IsParent (tree.layout origin spread) i j ↔ j = i + 1 ∨ j = second) ∧
            ∀ j, Relation.TransGen (Layout.IsParent (tree.layout origin spread)) (i + 1) j ↔
              i + 1 < j ∧ j < second) ∧
      (∀ (i : Nat) (place : Place), (tree.layout origin spread)[i]? = some place →
        place.isOperation = false → ∀ j, ¬Layout.IsParent (tree.layout origin spread) i j) ∧
      ofLinks? ((tree.layout origin spread).toList.map Place.link) = some tree ∧
      ∀ (other : Tree) (origin' : Point) (spread' : Float32),
        (other.layout origin' spread').toList.map Place.link =
          (tree.layout origin spread).toList.map Place.link → other = tree := by
  have node_of_place {i : Nat} {place : Place} (h : (tree.layout origin spread)[i]? = some place) :
      ∃ path sub, tree.nodes[i]? = some (path, sub) ∧
        tree.placeOf origin spread (path, sub) = place := by
    rw [getElem?_layout, Option.map_eq_some_iff] at h
    obtain ⟨⟨path, sub⟩, hnode, hplace⟩ := h
    exact ⟨path, sub, hnode, hplace⟩
  refine ⟨?_, ?_, ?_, ?_, ?_, ofLinks?_map_link_layout .., ?_⟩
  -- there is a first place, the one of the root
  · exact ⟨_, by rw [getElem?_layout, getElem?_nodes_zero, Option.map_some]⟩
  -- it is the only one without a parent
  · rintro i place hplace
    obtain ⟨path, sub, hnode, rfl⟩ := node_of_place hplace
    constructor
    · intro hparent
      obtain rfl : path = [] := by simpa [placeOf, parentIndex?] using hparent
      exact getElem?_nodes_nil hnode
    · rintro rfl
      rw [getElem?_nodes_zero, Option.some_inj] at hnode
      obtain ⟨rfl, -⟩ := Prod.mk.inj hnode
      rfl
  -- parents are operations and stand in front
  · intro i j h
    obtain ⟨path, symbol, left, right, hnode⟩ := exists_node_of_isParent_layout h
    have hj := isParent_layout_node_iff hnode |>.mp h
    exact ⟨by omega, _, by rw [getElem?_layout, hnode, Option.map_some], rfl⟩
  -- the second operand stands behind the block of the first one
  · intro i place hplace hoperation
    obtain ⟨path, sub, hnode, rfl⟩ := node_of_place hplace
    cases sub with
    | leaf text => exact absurd hoperation (by simp [placeOf, isOperation])
    | node symbol left right =>
      have hleft := (getElem?_nodes_operands hnode).1
      have hsize : 0 < left.size := by rw [size_eq]; omega
      refine ⟨i + (left.size + 1), by omega, fun j => isParent_layout_node_iff hnode, fun j => ?_⟩
      rw [transGen_isParent_layout_iff_lt hleft, Nat.add_right_comm i 1, Nat.add_assoc i]
  -- numerals are no parents
  · intro i place hplace hleaf j h
    obtain ⟨path, symbol, left, right, hnode⟩ := exists_node_of_isParent_layout h
    rw [getElem?_layout, hnode, Option.map_some, Option.some_inj] at hplace
    subst hplace
    exact absurd hleaf (by simp [placeOf, isOperation])
  -- what is read back from equal lists is equal
  · intro other origin' spread' hlinks
    have hother := ofLinks?_map_link_layout other origin' spread'
    rw [hlinks, ofLinks?_map_link_layout] at hother
    exact (Option.some_inj.mp hother).symm

end Tree

end InfixCalculator
