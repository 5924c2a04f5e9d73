import InfixCalculator.Drawing
import InfixCalculator.Proofs.Layout.Paths
import Mathlib.Data.List.Basic
import Mathlib.Data.Nat.Basic
import Mathlib.Order.Basic

/-!
# The shapes of a drawing

The texts in the drawing of a tree are the labels of its nodes in preorder, whatever the zone and
the view: `Tree.filterMap_text?_drawing`.

A drawing goes over the layout twice, for the segments and for the nodes, and a segment finds its
other end by the position of the parent. Where a node is painted depends only on the path to it
(`View.spot`). `Tree.drawing_eq` writes the drawing as a list over the nodes of the tree, where both
passes use the same points.
-/

namespace InfixCalculator

/-! ## Texts -/

/-- The text of a shape that is a text. -/
def Shape.text? : Shape → Option String
  | text _ content _ _ => some content
  | _ => none

namespace Tree

theorem map_label_nodes (tree : Tree) : tree.nodes.map (·.2.label) = tree.labels := by
  induction tree with
  | leaf text => simp [nodes, labels_eq, children]
  | node symbol left right ihl ihr =>
    rw [labels_eq, nodes, children, label, List.map_cons, label]
    simp [Function.comp_def, ihl, ihr]

theorem map_label_layout (tree : Tree) (origin : Point) (spread : Float32) :
    (tree.layout origin spread).toList.map Place.label = tree.labels := by
  rw [toList_layout, List.map_map, ← map_label_nodes]
  rfl

/-- The texts of a drawing are the labels of the tree, in preorder. -/
theorem filterMap_text?_drawing (tree : Tree) (view : View) :
    (tree.drawing view).filterMap Shape.text? = tree.labels := by
  -- of all shapes only the third one of each node is a text
  have hsegment (places : Array Place) (place : Place) :
      (Drawing.segment? view places place).bind Shape.text? = none := by
    unfold Drawing.segment?
    cases place.parent with
    | none => rfl
    | some parent =>
      cases h : places[parent]? with
      | none => simp [h]
      | some place' => simp [h, Shape.text?]
  have hnode (place : Place) :
      (Drawing.node view place).filterMap Shape.text? = [place.label] := rfl
  simp only [drawing, List.cons_append, List.filterMap_cons, Shape.text?, List.filterMap_append,
    List.filterMap_filterMap, List.filterMap_flatMap, hsegment, hnode]
  rw [← List.map_eq_flatMap, map_label_layout, List.filterMap_eq_nil_iff.mpr (by simp),
    List.nil_append]

end Tree

/-! ## Shapes -/

/-- The point of the screen where the node is painted that a path leads to. -/
def View.spot (view : View) (path : List Side) : Point :=
  view.toScreen
    (Layout.position ⟨view.zone.width / 2, Drawing.rootHeight⟩ (view.zone.width / 2) path)

namespace Drawing

/-- The segment that ends at the node that a path leads to. -/
def segmentTo (view : View) (path : List Side) : Shape :=
  .segment (view.spot path.dropLast) (view.spot path) (lineWidth * view.zoom) lineColor

/-- The shapes of a node. -/
def shapesOf (view : View) (node : List Side × Tree) : List Shape :=
  [.disc (view.spot node.1) (radius * view.zoom)
    (if node.2.isOperation then operationFill else numeralFill),
   .ring (view.spot node.1) (radius * view.zoom) (lineWidth * view.zoom) lineColor,
   .text (view.spot node.1) node.2.label (labelSize * view.zoom)
    (if node.2.isOperation then operationInk else numeralInk)]

theorem length_shapesOf (view : View) (node : List Side × Tree) :
    (shapesOf view node).length = 3 := rfl

/-- Parts of one length stand at regular distances. -/
theorem getElem?_flatMap_of_length {α β : Type} {f : α → List β} {n : Nat}
    (hf : ∀ a, (f a).length = n) (as : List α) (i : Nat) {k : Nat} (hk : k < n) :
    (as.flatMap f)[n * i + k]? = as[i]?.bind fun a => (f a)[k]? := by
  induction as generalizing i with
  | nil => rfl
  | cons a as ih =>
    cases i with
    | zero => simp [List.getElem?_append_left, hf, hk]
    | succ i =>
      have hi : n * (i + 1) + k = n + (n * i + k) := by rw [Nat.mul_succ]; omega
      rw [List.flatMap_cons, hi, List.getElem?_append_right (by rw [hf]; omega), hf,
        Nat.add_sub_cancel_left, ih, List.getElem?_cons_succ]

end Drawing

namespace Tree

/-- The place that a place refers to as its parent is in the list, and it is the one that the path
leads to without its last step. -/
theorem getElem?_layout_parent {tree sub : Tree} (origin : Point) (spread : Float32)
    {path : List Side} (hnode : (path, sub) ∈ tree.nodes) (hne : path ≠ []) :
    ∃ j place, tree.parentIndex? path = some j ∧ tree.paths[j]? = some path.dropLast ∧
      (tree.layout origin spread)[j]? = some place ∧
      place.center = Layout.position origin spread path.dropLast := by
  -- the parent is the node before the last step of the path
  obtain ⟨above, side, rfl⟩ := (List.eq_nil_or_concat path).resolve_left hne
  rw [List.concat_eq_append] at hnode ⊢
  obtain ⟨j, hparent, hpath⟩ := getElem?_paths_parentIndex hnode
  have hj : j < (tree.layout origin spread).size := by
    simpa using (List.getElem?_eq_some_iff.mp hpath).1
  have hplace := Array.getElem?_eq_getElem hj
  rw [List.dropLast_concat]
  exact ⟨j, _, hparent, hpath, hplace, center_of_getElem?_layout hpath hplace⟩

section Drawing

variable (tree : Tree) (view : View)

/-- Every node but the root has its segment. -/
theorem segment?_placeOf {sub : Tree} {path : List Side} (hnode : (path, sub) ∈ tree.nodes) :
    Drawing.segment? view
        (tree.layout ⟨view.zone.width / 2, Drawing.rootHeight⟩ (view.zone.width / 2))
        (tree.placeOf ⟨view.zone.width / 2, Drawing.rootHeight⟩ (view.zone.width / 2) (path, sub)) =
      if path = [] then none else some (Drawing.segmentTo view path) := by
  by_cases hne : path = []
  · simp [hne, Drawing.segment?, placeOf, parentIndex?]
  · obtain ⟨j, place, hparent, -, hplace, hcenter⟩ :=
      getElem?_layout_parent ⟨view.zone.width / 2, Drawing.rootHeight⟩ (view.zone.width / 2)
        hnode hne
    rw [if_neg hne, Drawing.segment?, placeOf]
    simp only [hparent, hplace, hcenter, Option.bind_eq_bind, Option.bind_some]
    rfl

/-- The root is the only node with the empty path. -/
theorem path_ne_nil_of_mem_tail {node : List Side × Tree} (h : node ∈ tree.nodes.tail) :
    node.1 ≠ [] := by
  cases tree with
  | leaf text => simp [nodes] at h
  | node symbol left right =>
    rw [nodes, List.tail_cons, List.mem_append, List.mem_map, List.mem_map] at h
    rcases h with ⟨node, -, rfl⟩ | ⟨node, -, rfl⟩ <;> simp

theorem nodes_eq_cons : tree.nodes = ([], tree) :: tree.nodes.tail := by
  cases tree <;> rfl

/-- The drawing over the nodes of the tree. -/
theorem drawing_eq :
    tree.drawing view = .background view.zone ::
      (tree.nodes.tail.map (fun node => Drawing.segmentTo view node.1) ++
        tree.nodes.flatMap (Drawing.shapesOf view)) := by
  rw [drawing, toList_layout, List.filterMap_map, List.flatMap_map, List.cons_append]
  congr 2
  calc tree.nodes.filterMap (Drawing.segment? view _ ∘ tree.placeOf _ _)
    _ = tree.nodes.filterMap fun node =>
          if node.1 = [] then none else some (Drawing.segmentTo view node.1) :=
        List.filterMap_congr fun node hnode => segment?_placeOf tree view hnode
    _ = tree.nodes.tail.filterMap fun node =>
          if node.1 = [] then none else some (Drawing.segmentTo view node.1) := by
        conv_lhs => rw [nodes_eq_cons]
        rfl
    _ = tree.nodes.tail.filterMap fun node => some (Drawing.segmentTo view node.1) :=
        List.filterMap_congr fun node hnode => if_neg (path_ne_nil_of_mem_tail tree hnode)
    _ = tree.nodes.tail.map fun node => Drawing.segmentTo view node.1 :=
        congrFun List.filterMap_eq_map' _

theorem length_tail_nodes : tree.nodes.tail.length + 1 = tree.size := by
  rw [← length_nodes, nodes_eq_cons, List.tail_cons, List.length_cons]

/-- The segments follow the background in the order of the nodes that they lead to. -/
theorem getElem?_drawing_segment {i : Nat} {path : List Side} (hpath : tree.paths[i]? = some path)
    (hne : path ≠ []) : (tree.drawing view)[i]? = some (Drawing.segmentTo view path) := by
  rw [getElem?_paths, Option.map_eq_some_iff] at hpath
  obtain ⟨node, hnode, rfl⟩ := hpath
  have hi : i < tree.size := by simpa using (List.getElem?_eq_some_iff.mp hnode).1
  have hlength := length_tail_nodes tree
  -- there is no segment for the root, and one background instead
  cases i with
  | zero =>
    rw [getElem?_nodes_zero, Option.some_inj] at hnode
    exact absurd (congrArg Prod.fst hnode).symm hne
  | succ i =>
    rw [drawing_eq, List.getElem?_cons_succ, List.getElem?_append_left (by simp; omega),
      List.getElem?_map, List.getElem?_tail, hnode, Option.map_some]

/-- The shapes of the nodes follow, three for each. -/
theorem getElem?_drawing_node {i k : Nat} {node : List Side × Tree}
    (hnode : tree.nodes[i]? = some node) (hk : k < 3) :
    (tree.drawing view)[tree.size + (3 * i + k)]? = (Drawing.shapesOf view node)[k]? := by
  rw [drawing_eq, ← length_tail_nodes tree, Nat.add_right_comm, List.getElem?_cons_succ,
    List.getElem?_append_right (by simp), List.length_map, Nat.add_sub_cancel_left,
    Drawing.getElem?_flatMap_of_length (Drawing.length_shapesOf view) _ _ hk,
    hnode, Option.bind_some]

theorem length_drawing : (tree.drawing view).length = 4 * tree.size := by
  have hlength := length_tail_nodes tree
  simp [drawing_eq, List.length_flatMap, Drawing.length_shapesOf]
  omega

/-- The drawing matches the tree. It has four shapes for each node: the background, the segments to
all nodes but the root in preorder, and the disc, the ring and the label of every node in preorder.
A segment begins at the middle of the disc of the parent and ends at the middle of the disc of the
node, and the colours tell operations from numerals. No place refers to a parent that is not in the
list. -/
theorem drawing_matches_tree :
    (tree.drawing view).length = 4 * tree.size ∧
      (tree.drawing view)[0]? = some (.background view.zone) ∧
      (∀ i, 0 < i → i < tree.size →
        ∃ (above : List Side) (side : Side) (j : Nat) (start stop : Point)
          (radius radius' : Float32) (fill fill' : Color),
          tree.paths[i]? = some (above ++ [side]) ∧ tree.paths[j]? = some above ∧
          (tree.drawing view)[i]? =
            some (.segment start stop (Drawing.lineWidth * view.zoom) Drawing.lineColor) ∧
          (tree.drawing view)[tree.size + 3 * j]? = some (.disc start radius fill) ∧
          (tree.drawing view)[tree.size + 3 * i]? = some (.disc stop radius' fill')) ∧
      (∀ (i : Nat) (path : List Side) (sub : Tree), tree.nodes[i]? = some (path, sub) →
        ∃ center radius fill ink,
          (tree.drawing view)[tree.size + 3 * i]? = some (.disc center radius fill) ∧
          (tree.drawing view)[tree.size + 3 * i + 1]? =
            some (.ring center radius (Drawing.lineWidth * view.zoom) Drawing.lineColor) ∧
          (tree.drawing view)[tree.size + 3 * i + 2]? =
            some (.text center sub.label (Drawing.labelSize * view.zoom) ink) ∧
          (fill = Drawing.operationFill ↔ sub.isOperation = true) ∧
          (fill = Drawing.numeralFill ↔ sub.isOperation = false) ∧
          (ink = Drawing.operationInk ↔ sub.isOperation = true) ∧
          (ink = Drawing.numeralInk ↔ sub.isOperation = false)) ∧
      ∀ (origin : Point) (spread : Float32) (i parent : Nat) (place : Place),
        (tree.layout origin spread)[i]? = some place → place.parent = some parent →
          parent < (tree.layout origin spread).size := by
  refine ⟨length_drawing tree view, by rw [drawing_eq]; rfl, ?_, ?_, ?_⟩
  -- the segment to a node begins where the node above it is painted
  · intro i hpos hi
    obtain ⟨⟨path, sub⟩, hnode⟩ : ∃ node, tree.nodes[i]? = some node :=
      ⟨_, List.getElem?_eq_getElem (by simpa using hi)⟩
    rcases path.eq_nil_or_concat with rfl | ⟨above, side, rfl⟩
    · exact absurd (getElem?_nodes_nil hnode) hpos.ne'
    rw [List.concat_eq_append] at hnode
    have hpath := getElem?_paths_of_nodes hnode
    obtain ⟨j, -, habove⟩ := getElem?_paths_parentIndex (List.mem_of_getElem? hnode)
    obtain ⟨sub', hnode'⟩ := exists_getElem?_nodes habove
    have hsegment := getElem?_drawing_segment tree view hpath (by simp)
    rw [Drawing.segmentTo, List.dropLast_concat] at hsegment
    exact ⟨above, side, j, _, _, _, _, _, _, hpath, habove, hsegment,
      getElem?_drawing_node tree view hnode' (Nat.zero_lt_succ 2),
      getElem?_drawing_node tree view hnode (Nat.zero_lt_succ 2)⟩
  -- the three shapes of a node
  · intro i path sub hnode
    have hshape (k : Nat) (hk : k < 3) := getElem?_drawing_node tree view hnode hk
    refine ⟨_, _, _, _, hshape 0 (by decide), hshape 1 (by decide), hshape 2 (by decide), ?_⟩
    cases sub.isOperation <;> decide
  -- the parent has a place of its own
  · intro origin spread i parent place hplace hparent
    obtain ⟨⟨path, sub⟩, hnode, rfl⟩ := Option.map_eq_some_iff.mp (getElem?_layout .. ▸ hplace)
    have hne : path ≠ [] := by
      rintro rfl
      exact absurd hparent (by simp [placeOf, parentIndex?])
    obtain ⟨j, place, hj, -, hplace', -⟩ :=
      getElem?_layout_parent origin spread (List.mem_of_getElem? hnode) hne
    obtain rfl : j = parent := Option.some_inj.mp (hj.symm.trans hparent)
    exact (Array.getElem?_eq_some_iff.mp hplace').1

end Drawing

end Tree

end InfixCalculator
