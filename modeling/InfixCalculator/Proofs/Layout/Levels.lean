import InfixCalculator.Drawing
import InfixCalculator.Proofs.Binary32.Range
import InfixCalculator.Proofs.Layout.Links

/-!
# Levels

The depth of a tree is found in three ways: by the traversal that counts levels, by recursion, and
in the layout, where it is one more than the greatest number of links that lead from a place up to
the root. The height of the zone grows with it between two bounds. It is computed in single
precision, where a great depth is not exact and may even leave the range; but then the height is at
its upper bound: `Tree.depth_layout_height`.
-/

namespace InfixCalculator

open Binary32

namespace Layout

/-- From the place in position `i` so many links to parents lead to one that has none. -/
inductive LinksToRoot (places : Array Place) : Nat → Nat → Prop
  | root {i : Nat} {place : Place} (hplace : places[i]? = some place)
      (hroot : place.parent = none) : LinksToRoot places i 0
  | link {i j n : Nat} (hparent : IsParent places i j) (habove : LinksToRoot places i n) :
      LinksToRoot places j (n + 1)

end Layout

namespace Tree

/-! ## Levels of paths -/

/-- The number of levels by recursion. -/
def levels : Tree → Nat
  | leaf _ => 1
  | node _ left right => max left.levels right.levels + 1

theorem depth_eq_levels (tree : Tree) : tree.depth = tree.levels := by
  induction tree with
  | leaf text => exact depth_leaf text
  | node symbol left right ihl ihr => rw [depth_node, levels, ihl, ihr]

theorem length_lt_levels {tree : Tree} {path : List Side} (h : path ∈ tree.paths) :
    path.length < tree.levels := by
  induction tree generalizing path with
  | leaf text => simp_all [levels]
  | node symbol left right ihl ihr =>
    rw [paths_node, List.mem_cons, List.mem_append, List.mem_map, List.mem_map] at h
    rw [levels]
    rcases h with rfl | ⟨path, hpath, rfl⟩ | ⟨path, hpath, rfl⟩
    · exact Nat.succ_pos _
    · have := ihl hpath
      rw [List.length_cons]
      omega
    · have := ihr hpath
      rw [List.length_cons]
      omega

/-- On the last level there is a node. -/
theorem exists_length_eq_levels (tree : Tree) :
    ∃ path ∈ tree.paths, tree.levels = path.length + 1 := by
  induction tree with
  | leaf text => exact ⟨[], by simp, rfl⟩
  | node symbol left right ihl ihr =>
    obtain ⟨path, hpath, hlevels⟩ := ihl
    obtain ⟨path', hpath', hlevels'⟩ := ihr
    -- the deeper operand has it
    rcases Nat.le_total left.levels right.levels with hle | hle
    · exact ⟨.right :: path', by simp [hpath'], by
        rw [levels, List.length_cons, max_eq_right hle, hlevels']⟩
    · exact ⟨.left :: path, by simp [hpath], by
        rw [levels, List.length_cons, max_eq_left hle, hlevels]⟩

variable {tree : Tree} {origin : Point} {spread : Float32} {i n : Nat}

/-- There is one link for each step of the path. -/
theorem linksToRoot_layout_iff :
    Layout.LinksToRoot (tree.layout origin spread) i n ↔
      ∃ path, tree.paths[i]? = some path ∧ path.length = n := by
  constructor
  · intro h
    induction h with
    | root hplace hroot =>
      obtain ⟨⟨path, sub⟩, hnode, rfl⟩ := Option.map_eq_some_iff.mp (getElem?_layout .. ▸ hplace)
      -- only the root of the tree has no parent
      obtain rfl : path = [] := by simpa [placeOf, parentIndex?] using hroot
      exact ⟨[], getElem?_paths_of_nodes hnode, rfl⟩
    | link hparent _ ih =>
      obtain ⟨path, side, hi, hj⟩ := isParent_layout_iff.mp hparent
      obtain ⟨path', hi', rfl⟩ := ih
      obtain rfl : path = path' := Option.some_inj.mp (hi.symm.trans hi')
      exact ⟨path ++ [side], hj, List.length_append⟩
  · rintro ⟨path, hpath, rfl⟩
    -- the last step of the path comes first on the way up
    induction path using List.reverseRecOn generalizing i with
    | nil =>
      obtain ⟨sub, hsub⟩ := exists_getElem?_nodes hpath
      exact .root (by rw [getElem?_layout, hsub, Option.map_some]) rfl
    | append_singleton above side ih =>
      obtain ⟨sub, hsub⟩ := exists_getElem?_nodes hpath
      obtain ⟨j, -, hj⟩ := getElem?_paths_parentIndex (List.mem_of_getElem? hsub)
      rw [List.length_append]
      exact .link (isParent_layout_iff.mpr ⟨above, side, hj, hpath⟩) (ih hj)

theorem existsUnique_linksToRoot (hi : i < (tree.layout origin spread).size) :
    ∃! n, Layout.LinksToRoot (tree.layout origin spread) i n := by
  rw [size_layout, ← length_paths] at hi
  have hpath := List.getElem?_eq_getElem hi
  refine ⟨tree.paths[i].length, linksToRoot_layout_iff.mpr ⟨_, hpath, rfl⟩, fun n hn => ?_⟩
  obtain ⟨path, hpath', rfl⟩ := linksToRoot_layout_iff.mp hn
  rw [Option.some_inj.mp (hpath'.symm.trans hpath)]

/-- The greatest number of links is found on the last level. -/
theorem isGreatest_linksToRoot (tree : Tree) (origin : Point) (spread : Float32) :
    ∃ n, IsGreatest {n | ∃ i, Layout.LinksToRoot (tree.layout origin spread) i n} n ∧
      tree.levels = 1 + n := by
  obtain ⟨path, hpath, hlevels⟩ := tree.exists_length_eq_levels
  obtain ⟨i, hi⟩ := List.getElem?_of_mem hpath
  refine ⟨path.length, ⟨⟨i, linksToRoot_layout_iff.mpr ⟨path, hi, rfl⟩⟩, ?_⟩, by omega⟩
  rintro n ⟨j, hlinks⟩
  obtain ⟨path', hpath', rfl⟩ := linksToRoot_layout_iff.mp hlinks
  have := length_lt_levels (List.mem_of_getElem? hpath')
  omega

/-! ## The height of the zone -/

/-- Seven levels below the root ask for more than the greatest height. -/
theorem clamp_height_of_le {n : ℕ} (hn : 7 ≤ n) :
    clamp Drawing.minHeight Drawing.maxHeight
        (Drawing.rootHeight + Float32.ofNat n * Layout.levelHeight + Drawing.radius * 2) =
      Drawing.maxHeight := by
  -- the bounds are whole numbers with few digits, so none of them is rounded
  have hdiameter : Drawing.radius * 2 = Float32.ofNat 60 := by decide +kernel
  have hlevels : AtLeast (560 : ℕ) (Float32.ofNat n * Layout.levelHeight) :=
    (atLeast_ofNat_of_le (by norm_num) hn).mul_ofNat (k := 80) (by norm_num) (by norm_num)
      (by norm_num)
  have hroot : AtLeast (620 : ℕ) (Drawing.rootHeight + Float32.ofNat n * Layout.levelHeight) :=
    hlevels.ofNat_add (k := 60) (by norm_num) (by norm_num)
  have hheight : AtLeast (680 : ℕ)
      (Drawing.rootHeight + Float32.ofNat n * Layout.levelHeight + Drawing.radius * 2) :=
    hdiameter ▸ hroot.add_ofNat (k := 60) (by norm_num) (by norm_num)
  obtain ⟨hmin, -⟩ := toRat_ofNat (n := 300) (by norm_num)
  obtain ⟨hmax, hmaxHeight⟩ := toRat_ofNat (n := 600) (by norm_num)
  refine hheight.clamp_eq hmin hmax (by decide +kernel) ?_
  calc toRat Drawing.maxHeight = (600 : ℕ) := hmaxHeight
    _ < (680 : ℕ) := by norm_num

/-- There are too few levels below that for anything to be rounded. -/
theorem clamp_height (n : ℕ) :
    clamp Drawing.minHeight Drawing.maxHeight
        (Drawing.rootHeight + Float32.ofNat n * Layout.levelHeight + Drawing.radius * 2) =
      Float32.ofNat (min 600 (max 300 (120 + 80 * n))) := by
  rcases Nat.lt_or_ge n 7 with hn | hn
  · revert n
    decide +kernel
  · rw [clamp_height_of_le hn, show min 600 (max 300 (120 + 80 * n)) = 600 by omega]
    rfl

/-- Every place of the layout leads up to the root by one number of links. The tree has one level
more than the greatest of these numbers, and its zone is as high as is said, without being
rounded. -/
theorem depth_layout_height (tree : Tree) :
    tree.depth = tree.levels ∧
      (∀ (origin : Point) (spread : Float32),
        (∀ i : Fin (tree.layout origin spread).size,
          ∃! n, Layout.LinksToRoot (tree.layout origin spread) i n) ∧
        ∃ n, IsGreatest {n | ∃ i, Layout.LinksToRoot (tree.layout origin spread) i n} n ∧
          tree.depth = 1 + n) ∧
      tree.zoneHeight = Float32.ofNat (min 600 (max 300 (120 + 80 * (tree.depth - 1)))) ∧
      tree.zoneHeight.isFinite ∧
      toRat tree.zoneHeight = (min 600 (max 300 (120 + 80 * (tree.depth - 1))) : ℕ) := by
  have hheight : tree.zoneHeight =
      Float32.ofNat (min 600 (max 300 (120 + 80 * (tree.depth - 1)))) :=
    clamp_height (tree.depth - 1)
  refine ⟨tree.depth_eq_levels, fun origin spread => ⟨fun i => existsUnique_linksToRoot i.isLt, ?_⟩,
    hheight, ?_⟩
  · rw [depth_eq_levels]
    exact tree.isGreatest_linksToRoot origin spread
  · rw [hheight]
    exact toRat_ofNat (by omega)

end Tree

end InfixCalculator
