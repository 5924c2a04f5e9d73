import InfixCalculator.Proofs.Layout.Gaps

/-!
# The order on a level

Of two nodes on one level the one that comes first in preorder turns left where the paths to them
part. If the paths never turn towards each other on the same level below, the first node stays on
the left, since rounding is monotone (`toRat_x_position_append_le`). Paths that turn towards each
other on all levels come nearest; they still keep their order if the gap where they part outweighs
the gaps of all levels below (`x_position_lt`). The gaps shrink too slowly for that to be so in all
trees.
-/

namespace InfixCalculator

open Binary32

namespace Layout

/-- The first path turns left where the second one turns right. -/
def Precedes (path path' : List Side) : Prop :=
  ∃ above below below' : List Side, path = above ++ .left :: below ∧
    path' = above ++ .right :: below'

theorem Precedes.cons {path path' : List Side} (h : Precedes path path') (side : Side) :
    Precedes (side :: path) (side :: path') := by
  obtain ⟨above, below, below', rfl, rfl⟩ := h
  exact ⟨side :: above, below, below', rfl, rfl⟩

end Layout

namespace Tree

open Layout

/-- In preorder a node stands before the nodes below it, and a left operand before the right one. -/
theorem pairwise_paths (tree : Tree) :
    tree.paths.Pairwise fun path path' => path <+: path' ∨ Precedes path path' := by
  induction tree with
  | leaf text => simp
  | node symbol left right ihl ihr =>
    have hcons (side : Side) {paths : List (List Side)}
        (h : paths.Pairwise fun path path' => path <+: path' ∨ Precedes path path') :
        (paths.map (side :: ·)).Pairwise fun path path' => path <+: path' ∨ Precedes path path' :=
      List.pairwise_map.mpr <| h.imp fun h =>
        h.imp (List.prefix_cons_inj side).mpr fun h => h.cons side
    rw [paths_node, List.pairwise_cons, List.pairwise_append]
    refine ⟨fun path _ => .inl List.nil_prefix, hcons .left ihl, hcons .right ihr, ?_⟩
    intro path hpath path' hpath'
    obtain ⟨below, -, rfl⟩ := List.mem_map.mp hpath
    obtain ⟨below', -, rfl⟩ := List.mem_map.mp hpath'
    exact .inr ⟨[], below, below', rfl, rfl⟩

/-- Of two nodes on one level the first one in preorder is the one in the left branch. -/
theorem precedes_of_lt {tree : Tree} {i j : ℕ} {path path' : List Side} (hlt : i < j)
    (hi : tree.paths[i]? = some path) (hj : tree.paths[j]? = some path')
    (hlevel : path.length = path'.length) : Precedes path path' := by
  obtain ⟨hilt, rfl⟩ := List.getElem?_eq_some_iff.mp hi
  obtain ⟨hjlt, rfl⟩ := List.getElem?_eq_some_iff.mp hj
  refine (List.pairwise_iff_getElem.mp (pairwise_paths tree) i j hilt hjlt hlt).resolve_left
    fun h => ?_
  exact hlt.ne ((nodup_paths tree).getElem_inj_iff.mp (h.eq_of_length hlevel))

/-- All nodes above a node have their places. -/
theorem regular {tree : Tree} {origin : Point} {spread : Float32} {path : List Side}
    (hspread : spread.isFinite) (hpos : 0 < spread)
    (hfinite : ∀ place ∈ tree.layout origin spread, place.center.x.isFinite)
    (hpath : path ∈ tree.paths) : Regular origin spread path where
  isFinite_spread := hspread
  spread_pos := (toRat_pos_iff hspread).mpr hpos
  isFinite_x above habove := by
    obtain ⟨sub, hsub⟩ := mem_paths_iff.mp (mem_paths_of_isPrefix habove hpath)
    refine hfinite (tree.placeOf origin spread (above, sub)) ?_
    rw [← Array.mem_toList_iff, toList_layout]
    exact List.mem_map_of_mem (mem_nodes_iff.mpr hsub)

end Tree

namespace Layout

variable {origin : Point} {spread : Float32}

/-! ## Paths that do not turn towards each other -/

/-- No gap has a minus sign, so no gap is negative, even before it is known to be finite. -/
theorem isPlus_gapAt (hspread : IsPlus spread) (level : ℕ) : IsPlus (gapAt spread level) := by
  have hspreadAt : IsPlus (spreadAt spread level) := by
    induction level with
    | zero => exact hspread
    | succ level ih => exact ih.mul (show IsPlus 0.6 from rfl)
  exact hspreadAt.div (((isPlus_ofNat level).mul (show IsPlus 0.5 from rfl)).add isPlus_one)

/-- On one level a step keeps the order, unless it leads the two points towards each other. -/
theorem toRat_x_position_step_le {side side' : Side} {path path' : List Side}
    (hturn : side = .left ∨ side' = .right) (hlevel : path.length = path'.length)
    (h : Regular origin spread (path ++ [side])) (h' : Regular origin spread (path' ++ [side']))
    (hle : toRat (position origin spread path).x ≤ toRat (position origin spread path').x) :
    toRat (position origin spread (path ++ [side])).x ≤
      toRat (position origin spread (path' ++ [side'])).x := by
  have hx := h.isFinite_x path (List.prefix_append ..)
  have hx' := h'.isFinite_x path' (List.prefix_append ..)
  have hnext := h.isFinite_x _ List.prefix_rfl
  have hnext' := h'.isFinite_x _ List.prefix_rfl
  have hnonneg := (isPlus_gapAt (isPlus_of_pos h.spread_pos) path.length).toRat_nonneg
  -- both steps are as long, since they start on the same level
  cases side <;> cases side'
  case right.left => exact absurd hturn (by simp)
  case left.left =>
    rw [x_position_left] at hnext hnext' ⊢
    rw [x_position_left, ← hlevel] at *
    have hgap := isFinite_of_sub hnext
    exact (rounds_sub hx hgap).mono (rounds_sub hx' hgap) hnext hnext' (by linarith)
  case left.right =>
    rw [x_position_left] at hnext ⊢
    rw [x_position_right, ← hlevel] at hnext' ⊢
    have hgap := isFinite_of_sub hnext
    exact (rounds_sub hx hgap).mono (rounds_add hx' hgap) hnext hnext' (by linarith)
  case right.right =>
    rw [x_position_right] at hnext hnext' ⊢
    rw [x_position_right, ← hlevel] at *
    have hgap := isFinite_of_add hnext
    exact (rounds_add hx hgap).mono (rounds_add hx' hgap) hnext hnext' (by linarith)

/-- On each level one of the paths turns away from the other. -/
def KeepApart (below below' : List Side) : Prop :=
  List.Forall₂ (fun side side' => side = .left ∨ side' = .right) below below'

/-- Points keep their order as long as the paths do not turn towards each other. -/
theorem toRat_x_position_append_le {below below' : List Side} (hturns : KeepApart below below')
    {above above' : List Side} (hlevel : above.length = above'.length)
    (h : Regular origin spread (above ++ below)) (h' : Regular origin spread (above' ++ below'))
    (hle : toRat (position origin spread above).x ≤ toRat (position origin spread above').x) :
    toRat (position origin spread (above ++ below)).x ≤
      toRat (position origin spread (above' ++ below')).x := by
  induction hturns generalizing above above' with
  | nil => simpa using hle
  | @cons side side' below below' hturn _ ih =>
    -- take the first step, and go on from the two points that it leads to
    rw [List.append_cons] at h h' ⊢
    rw [List.append_cons above']
    exact ih (by simp [hlevel]) h h' <| toRat_x_position_step_le hturn hlevel
      (h.of_prefix (List.prefix_append ..)) (h'.of_prefix (List.prefix_append ..)) hle

theorem x_position_le {above below below' : List Side}
    (h : Regular origin spread (above ++ .left :: below))
    (h' : Regular origin spread (above ++ .right :: below')) (hturns : KeepApart below below') :
    (position origin spread (above ++ .left :: below)).x ≤
      (position origin spread (above ++ .right :: below')).x := by
  rw [le_iff (h.isFinite_x _ List.prefix_rfl) (h'.isFinite_x _ List.prefix_rfl)]
  exact toRat_x_position_append_le (.cons (.inl rfl) hturns) rfl h h' le_rfl

/-! ## Paths that turn towards each other -/

theorem drift_replicate_right (level count : ℕ) :
    drift level (List.replicate count Side.right) = reach level count := by
  induction count generalizing level with
  | zero => simp [drift, reach]
  | succ count ih => rw [List.replicate_succ, drift, ih, reach_succ]

theorem drift_replicate_left (level count : ℕ) :
    drift level (List.replicate count Side.left) = -reach level count := by
  induction count generalizing level with
  | zero => simp [drift, reach]
  | succ count ih =>
    rw [List.replicate_succ, drift, ih, reach_succ]
    ring

variable {above below below' : List Side}

/-- If the last of the steps lose no more than the gap above them, all steps have room. -/
theorem Regular.tame {side : Side} (h : Regular origin spread (above ++ side :: below))
    (hlast : (below.length + 1) * rounding origin spread ≤ fraction above.length * toRat spread) :
    Tame origin spread (above ++ side :: below) := by
  have hpos := h.spread_pos
  have hrounding := rounding_pos origin hpos
  have hgap : fraction above.length * toRat spread ≤ toRat spread :=
    mul_le_of_le_one_left hpos.le (fraction_le_one _)
  -- so many gaps of this level fit twice into the spread
  have hgaps : above.length * fraction above.length ≤ 2 := by
    have hpow : (3 / 5 : ℚ) ^ above.length ≤ 1 := pow_le_one₀ (by norm_num) (by norm_num)
    rw [fraction, mul_div_assoc', div_le_iff₀ (by positivity)]
    linarith [mul_le_of_le_one_right (show (0 : ℚ) ≤ above.length by positivity) hpow]
  have habove : above.length * rounding origin spread ≤ 2 * toRat spread := by
    calc above.length * rounding origin spread
      _ ≤ above.length * ((below.length + 1) * rounding origin spread) := by
          gcongr
          exact le_mul_of_one_le_left hrounding.le
            (by linarith [show (0 : ℚ) ≤ below.length by positivity])
      _ ≤ above.length * (fraction above.length * toRat spread) := by gcongr
      _ = above.length * fraction above.length * toRat spread := by ring
      _ ≤ 2 * toRat spread := by gcongr
  refine { h with room := ?_ }
  rw [List.length_append, List.length_cons]
  push_cast
  linarith

/-- The distance of two points on one level, up to rounding. -/
theorem abs_distance_sub_le (h : Tame origin spread (above ++ .left :: below))
    (h' : Tame origin spread (above ++ .right :: below')) (hlevel : below.length = below'.length) :
    |toRat (position origin spread (above ++ .right :: below')).x -
        toRat (position origin spread (above ++ .left :: below)).x -
        (2 * fraction above.length + drift (above.length + 1) below' -
          drift (above.length + 1) below) * toRat spread| ≤
      2 * ((below.length + 1) * rounding origin spread) := by
  have hleft := h.abs_position_sub_le
  have hright := h'.abs_position_sub_le
  simp only [drift, List.length_cons] at hleft hright
  rw [← hlevel] at hright
  push_cast at hleft hright
  rw [abs_le] at hleft hright ⊢
  constructor <;> linarith [hleft.1, hleft.2, hright.1, hright.2]

/-- The two points keep their order if the gap where the paths part outweighs those below. -/
theorem x_position_lt (h : Regular origin spread (above ++ .left :: below))
    (h' : Regular origin spread (above ++ .right :: below')) (hlevel : below.length = below'.length)
    (hreach : reach (above.length + 1) below.length * toRat spread +
      (below.length + 1) * rounding origin spread < fraction above.length * toRat spread) :
    (position origin spread (above ++ .left :: below)).x <
      (position origin spread (above ++ .right :: below')).x := by
  have hpos := h.spread_pos
  have hnonneg := mul_nonneg (reach_nonneg (above.length + 1) below.length) hpos.le
  have hlast : (below.length + 1) * rounding origin spread ≤
      fraction above.length * toRat spread := by
    linarith
  have hdistance := (abs_le.mp (abs_distance_sub_le (h.tame hlast)
    (h'.tame (hlevel ▸ hlast)) hlevel)).1
  have hleft := (abs_le.mp (abs_drift_le (above.length + 1) below)).2
  have hright := (abs_le.mp (abs_drift_le (above.length + 1) below')).1
  rw [← hlevel] at hright
  -- the points come nearest if both paths turn towards each other all the way
  have hdrift : -(2 * reach (above.length + 1) below.length) * toRat spread ≤
      (drift (above.length + 1) below' - drift (above.length + 1) below) * toRat spread :=
    mul_le_mul_of_nonneg_right (by linarith) hpos.le
  rw [lt_iff (h.isFinite_x _ List.prefix_rfl) (h'.isFinite_x _ List.prefix_rfl)]
  linarith

/-- The innermost points are swapped if the gaps below outweigh the one where the paths part. -/
theorem x_position_lt_of_lt_reach {count : ℕ}
    (h : Regular origin spread (above ++ .left :: List.replicate count Side.right))
    (h' : Regular origin spread (above ++ .right :: List.replicate count Side.left))
    (hreach : fraction above.length * toRat spread + (count + 1) * rounding origin spread <
      reach (above.length + 1) count * toRat spread) :
    (position origin spread (above ++ .right :: List.replicate count Side.left)).x <
      (position origin spread (above ++ .left :: List.replicate count Side.right)).x := by
  have hpos := h.spread_pos
  -- the gaps below are less than two such gaps, so the rounding is less than one
  have hbelow : reach (above.length + 1) count * toRat spread ≤
      3 / 2 * fraction above.length * toRat spread := by
    gcongr
    linarith [reach_le (above.length + 1) count, fraction_succ_le above.length]
  have hgap := mul_pos (fraction_pos above.length) hpos
  have hlast : (count + 1) * rounding origin spread ≤ fraction above.length * toRat spread := by
    linarith
  have hdistance := (abs_le.mp (abs_distance_sub_le (h.tame (by simpa using hlast))
    (h'.tame (by simpa using hlast)) (by simp))).2
  rw [drift_replicate_left, drift_replicate_right, List.length_replicate] at hdistance
  rw [lt_iff (h'.isFinite_x _ List.prefix_rfl) (h.isFinite_x _ List.prefix_rfl)]
  linarith

/-! ## How deep the order is kept -/

/-- The two points keep their order if the spread is not subnormal, the root is not far out, and the
gaps leave a margin for the rounding. -/
theorem x_position_lt_of_margin {distance : ℚ} (h : Regular origin spread (above ++ .left :: below))
    (h' : Regular origin spread (above ++ .right :: below')) (hlevel : below.length = below'.length)
    (hnormal : 1 / 2 ^ 126 ≤ toRat spread) (horigin : |toRat origin.x| ≤ distance * toRat spread)
    (hmargin : reach (above.length + 1) below.length +
      (below.length + 1) * ((distance + 17) / 2 ^ 24) < fraction above.length) :
    (position origin spread (above ++ .left :: below)).x <
      (position origin spread (above ++ .right :: below')).x := by
  refine x_position_lt h h' hlevel ?_
  have hrounding : rounding origin spread ≤ (distance + 17) / 2 ^ 24 * toRat spread := by
    rw [rounding]
    linarith
  calc reach (above.length + 1) below.length * toRat spread +
        (below.length + 1) * rounding origin spread
    _ ≤ reach (above.length + 1) below.length * toRat spread +
          (below.length + 1) * ((distance + 17) / 2 ^ 24 * toRat spread) := by gcongr
    _ = (reach (above.length + 1) below.length +
          (below.length + 1) * ((distance + 17) / 2 ^ 24)) * toRat spread := by ring
    _ < fraction above.length * toRat spread := mul_lt_mul_of_pos_right hmargin h.spread_pos

/-- Down to the eighth level each gap outweighs the gaps below. -/
theorem reach_add_lt_of_le_eight {level count : ℕ} (hdepth : level + (count + 1) ≤ 8) :
    reach (level + 1) count + (count + 1) * ((8192 + 17) / 2 ^ 24) < fraction level := by
  have htable : ∀ level < 8, reach (level + 1) (7 - level) +
      (8 - level : ℕ) * ((8192 + 17) / 2 ^ 24) < fraction level := by
    decide +kernel
  have hreach := reach_mono (level + 1) (show count ≤ 7 - level by omega)
  have hcount : (count + 1 : ℚ) ≤ (8 - level : ℕ) := by
    exact_mod_cast (by omega : count + 1 ≤ 8 - level)
  linarith [htable level (by omega)]

/-- The gaps of the first three levels outweigh the gaps below, however many there are. -/
theorem reach_add_lt_of_le_two {level count : ℕ} (hlevel : level ≤ 2)
    (hdepth : level + (count + 1) ≤ 2048) :
    reach (level + 1) count + (count + 1) * ((1 + 17) / 2 ^ 24) < fraction level := by
  have htable : ∀ level < 3, reach (level + 1) 10 + 5 / 2 * fraction (level + 1 + 10) +
      2048 * ((1 + 17) / 2 ^ 24) < fraction level := by
    decide +kernel
  have hreach := reach_le_add (level + 1) count 10
  have hcount : (count + 1 : ℚ) ≤ 2048 := by exact_mod_cast (by omega : count + 1 ≤ 2048)
  linarith [htable level (by omega)]

end Layout

namespace Tree

open Layout

/-- The nodes of a level keep their order from left to right as far as the gaps allow. Two of them
whose paths part at one node and never turn towards each other again are not swapped, and siblings
are such nodes. They stand in order if the gap where the paths part outweighs the gaps below and the
rounding; this holds of all nodes down to the eighth level, and of all nodes whose paths part on the
first three levels. Where the gaps below outweigh that one, the innermost two nodes are swapped. -/
theorem layout_keeps_order (tree : Tree) (origin : Point) (spread : Float32)
    (hspread : spread.isFinite) (hpos : 0 < spread)
    (hfinite : ∀ place ∈ tree.layout origin spread, place.center.x.isFinite)
    {i j : ℕ} {path path' : List Side} {place place' : Place} (hlt : i < j)
    (hi : tree.paths[i]? = some path) (hj : tree.paths[j]? = some path')
    (hlevel : path.length = path'.length)
    (hplace : (tree.layout origin spread)[i]? = some place)
    (hplace' : (tree.layout origin spread)[j]? = some place') :
    ∃ above below below' : List Side,
      path = above ++ .left :: below ∧ path' = above ++ .right :: below' ∧
      (KeepApart below below' → place.center.x ≤ place'.center.x) ∧
      (reach (above.length + 1) below.length * toRat spread +
          (below.length + 1) * rounding origin spread < fraction above.length * toRat spread →
        place.center.x < place'.center.x) ∧
      (path.length ≤ 8 → 1 / 2 ^ 126 ≤ toRat spread → |toRat origin.x| ≤ 8192 * toRat spread →
        place.center.x < place'.center.x) ∧
      (above.length ≤ 2 → path.length ≤ 2048 → 1 / 2 ^ 126 ≤ toRat spread →
        |toRat origin.x| ≤ toRat spread → place.center.x < place'.center.x) ∧
      ∀ count, below = List.replicate count Side.right → below' = List.replicate count Side.left →
        fraction above.length * toRat spread + (count + 1) * rounding origin spread <
          reach (above.length + 1) count * toRat spread →
        place'.center.x < place.center.x := by
  obtain ⟨above, below, below', rfl, rfl⟩ := precedes_of_lt hlt hi hj hlevel
  have hbelow : below.length = below'.length := by simpa using hlevel
  have h := regular hspread hpos hfinite (List.mem_of_getElem? hi)
  have h' := regular hspread hpos hfinite (List.mem_of_getElem? hj)
  rw [center_of_getElem?_layout hi hplace, center_of_getElem?_layout hj hplace', List.length_append,
    List.length_cons]
  -- the remaining parts are margins above the error, on few levels and below few levels
  refine ⟨above, below, below', rfl, rfl, x_position_le h h', x_position_lt h h' hbelow, ?_, ?_, ?_⟩
  · intro hdepth hnormal horigin
    exact x_position_lt_of_margin h h' hbelow hnormal horigin (reach_add_lt_of_le_eight hdepth)
  · intro habove hdepth hnormal horigin
    rw [← one_mul (toRat spread)] at horigin
    exact x_position_lt_of_margin h h' hbelow hnormal horigin (reach_add_lt_of_le_two habove hdepth)
  · rintro count rfl rfl hreach
    exact x_position_lt_of_lt_reach h h' hreach

/-- The tree of (1 + 2) * (3 + 4). -/
def productOfSums : Tree :=
  node "*" (node "+" (leaf "1") (leaf "2")) (node "+" (leaf "3") (leaf "4"))

/-- The inner operands of the two sums turn towards each other, and yet they stand in order. -/
theorem layout_productOfSums_keeps_order :
    ∃ place place' : Place, (productOfSums.layout ⟨200, 60⟩ 200)[3]? = some place ∧
      (productOfSums.layout ⟨200, 60⟩ 200)[5]? = some place' ∧
      place.label = "2" ∧ place'.label = "3" ∧ place.center.x < place'.center.x := by
  have hnode : productOfSums.nodes[3]? = some ([Side.left, Side.right], leaf "2") := rfl
  have hnode' : productOfSums.nodes[5]? = some ([Side.right, Side.left], leaf "3") := rfl
  have hplace : (productOfSums.layout ⟨200, 60⟩ 200)[3]? =
      some (productOfSums.placeOf ⟨200, 60⟩ 200 ([Side.left, Side.right], leaf "2")) := by
    rw [getElem?_layout, hnode, Option.map_some]
  have hplace' : (productOfSums.layout ⟨200, 60⟩ 200)[5]? =
      some (productOfSums.placeOf ⟨200, 60⟩ 200 ([Side.right, Side.left], leaf "3")) := by
    rw [getElem?_layout, hnode', Option.map_some]
  have hfinite : ∀ place ∈ productOfSums.layout ⟨200, 60⟩ 200, place.center.x.isFinite := by
    simp only [← Array.mem_toList_iff, toList_layout]
    decide +kernel
  have hspread : toRat 200 = 200 := (@toRat_ofNat 200 (by norm_num)).2
  obtain ⟨above, below, below', -, -, -, -, horder, -⟩ :=
    layout_keeps_order productOfSums ⟨200, 60⟩ 200 (by decide +kernel) (by decide +kernel) hfinite
      (by decide) (getElem?_paths_of_nodes hnode) (getElem?_paths_of_nodes hnode') rfl
      hplace hplace'
  refine ⟨_, _, hplace, hplace', rfl, rfl, horder (by decide) ?_ ?_⟩
  · rw [hspread]
    norm_num
  · rw [hspread]
    norm_num

/-- The tree of 1^1^1^1^((1^1^1^1^1) * (1-1-1-1-1)). -/
def deepProduct : Tree :=
  let one := leaf "1"
  let powers := node "^" one (node "^" one (node "^" one (node "^" one one)))
  let differences := node "-" (node "-" (node "-" (node "-" one one) one) one) one
  node "^" one (node "^" one (node "^" one (node "^" one (node "*" powers differences))))

/-- The nodes of a level do not always keep their order: on the ninth level of this tree the
innermost two nodes are swapped. -/
theorem layout_swaps_on_ninth_level :
    ¬∀ (tree : Tree) (origin : Point) (spread : Float32),
      origin.x.isFinite → origin.y.isFinite → spread.isFinite → 0 < spread →
      (∀ place ∈ tree.layout origin spread, place.center.x.isFinite ∧ place.center.y.isFinite) →
      ∀ (i j : ℕ) (path path' : List Side) (place place' : Place), i < j →
        tree.paths[i]? = some path → tree.paths[j]? = some path' → path.length = path'.length →
        (tree.layout origin spread)[i]? = some place →
        (tree.layout origin spread)[j]? = some place' →
        place.center.x ≤ place'.center.x := by
  intro h
  have hfinite : ∀ place ∈ deepProduct.layout ⟨400, 60⟩ 400,
      place.center.x.isFinite ∧ place.center.y.isFinite := by
    simp only [← Array.mem_toList_iff, toList_layout]
    decide +kernel
  have hpath : deepProduct.paths[17]? =
      some (List.replicate 4 Side.right ++ Side.left :: List.replicate 4 Side.right) := by
    decide +kernel
  have hpath' : deepProduct.paths[22]? =
      some (List.replicate 4 Side.right ++ Side.right :: List.replicate 4 Side.left) := by
    decide +kernel
  obtain ⟨sub, hnode⟩ := exists_getElem?_nodes hpath
  obtain ⟨sub', hnode'⟩ := exists_getElem?_nodes hpath'
  have hle := h deepProduct ⟨400, 60⟩ 400 (by decide +kernel) (by decide +kernel)
    (by decide +kernel) (by decide +kernel) hfinite 17 22 _ _ _ _ (by decide) hpath hpath' rfl
    (by rw [getElem?_layout, hnode, Option.map_some])
    (by rw [getElem?_layout, hnode', Option.map_some])
  simp only [placeOf] at hle
  exact absurd hle (by decide +kernel)

end Tree

end InfixCalculator
