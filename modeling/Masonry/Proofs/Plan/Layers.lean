import Masonry.Proofs.Plan.Courses
import Masonry.Proofs.Plan.Moving

/-!
# Layers of a plan

A plan is the list of its layers from the lowest up. All stones of a layer lie on the level on which it
starts, so a layer is what the plan has on that level (`onLevel_drag`), and layers are looked at one by
one. How a layer is laid depends neither on where it starts nor on how high the drag leads: it moves with
its start and the end of the drag (`layer_shifted`), and all layers of a slab, and every second one of a
wall, are alike (`drag_layered`).
-/

namespace Masonry

theorem Side.y_nextStart (s : Side) (length width : Int) (start : Cell) :
    (s.nextStart length width start).y = start.y := by
  rw [nextStart, getLast_cells, Axis.move, Axis.move, Axis.y_put, Axis.y_put, Axis.y_put]

namespace Plan

/-- The stones of a plan that lie on a level. -/
def onLevel (level : Int) (ps : List Placement) : List Placement :=
  ps.filter fun p => p.cell.y = level

/-- The lowest layer that is laid like a given one: layers of a slab are all alike, and those of a wall
alternate. -/
def likeRow (b : Brush) (row : Nat) : Nat := if b.filled then 0 else row % 2

/-- The cell from which a layer starts. -/
def rowStart (b : Brush) (anchor : Cell) (row : Nat) : Cell :=
  { anchor with y := anchor.y + row * b.size.y }

/-- A concatenation with one part that is not empty is that part. -/
theorem flatMap_eq_of_forall_ne {ι β : Type} {l : List ι} (hl : l.Nodup) {i : ι} (hi : i ∈ l)
    {f : ι → List β} (hother : ∀ j ∈ l, j ≠ i → f j = []) : l.flatMap f = f i := by
  obtain ⟨before, after, rfl⟩ := List.append_of_mem hi
  obtain ⟨hfresh, -⟩ := List.nodup_cons.1 (List.perm_middle.nodup_iff.1 hl)
  rw [List.mem_append, not_or] at hfresh
  have hbefore : before.flatMap f = [] := List.flatMap_eq_nil_iff.2 fun j hj =>
    hother j (List.mem_append_left _ hj) (ne_of_mem_of_not_mem hj hfresh.1)
  have hafter : after.flatMap f = [] := List.flatMap_eq_nil_iff.2 fun j hj =>
    hother j (List.mem_append_right _ (.tail _ hj)) (ne_of_mem_of_not_mem hj hfresh.2)
  rw [List.flatMap_append, List.flatMap_cons, hbefore, hafter, List.nil_append, List.append_nil]

section Levels

variable {b : Brush} {p : Placement}

theorem level_of_mem_walk {start : Cell} {sides : List Side} (hp : p ∈ walk b start sides) :
    p.cell.y = start.y := by
  induction sides generalizing start with
  | nil => cases hp
  | cons s sides ih =>
    rw [walk] at hp
    rcases List.mem_append.1 hp with hp | hp
    · split at hp
      · obtain ⟨c, hc, rfl⟩ := List.mem_map.1 hp
        obtain ⟨value, -, rfl⟩ := List.mem_map.1 hc
        exact Axis.y_put _ _ _
      · cases hp
    · exact (ih hp).trans (s.y_nextStart _ _ start)

/-- All stones of a layer lie on the level on which it starts. -/
theorem level_of_mem_layer (hsolid : Solid b.code) {row : Nat} {start dest : Cell}
    (hp : p ∈ layer b row start dest) : p.cell.y = start.y := by
  obtain ⟨hx, -, hz⟩ := b.size_pos hsolid
  by_cases hplan : b.filled = true ∨ b.longAxis.other.of dest = b.longAxis.other.of start
  · exact (layerSpaced_layer hx hz row start dest hplan).onLevel p hp
  rw [not_or] at hplan
  rw [layer, if_neg hplan.1, if_neg hplan.2] at hp
  split at hp
  · unfold evenLayer at hp
    obtain ⟨near, far⟩ := placedSides b start dest
    rcases List.mem_append.1 hp with hp | hp
    · obtain ⟨-, hp⟩ := List.mem_ite_nil_right.1 hp
      rw [List.mem_singleton.1 hp]
      rfl
    · exact level_of_mem_walk hp
  · unfold oddLayer at hp
    obtain ⟨near, far⟩ := placedSides b start dest
    have hcorner (along sideways : Int) :
        (b.longAxis.other.move (b.longAxis.move start along) sideways).y = start.y :=
      (Axis.y_put _ _ _).trans (Axis.y_put _ _ _)
    rcases List.mem_append.1 hp with hp | hp
    · obtain ⟨-, hp⟩ := List.mem_ite_nil_left.1 hp
      rw [List.mem_singleton.1 hp]
      exact hcorner _ _
    · exact (level_of_mem_walk hp).trans (hcorner _ _)

/-- The plan of a drag has on the level of a row just the layer of that row. -/
theorem onLevel_drag (hsolid : Solid b.code) {row : Nat} (hrow : row < b.layers)
    (anchor dest : Cell) : onLevel (anchor.y + row * b.size.y) (drag b anchor dest) =
      layer b row (rowStart b anchor row) dest := by
  have hheight : 0 < b.size.y := (b.size_pos hsolid).2.1
  rw [drag_eq_layers hsolid, onLevel, List.filter_flatMap,
    flatMap_eq_of_forall_ne List.nodup_range (List.mem_range.2 hrow)]
  · exact List.filter_eq_self.2 fun p hp => decide_eq_true (level_of_mem_layer hsolid hp)
  · intro other _ hne
    refine List.filter_eq_nil_iff.2 fun p hp hlevel => hne ?_
    have hsame : anchor.y + other * b.size.y = anchor.y + row * b.size.y :=
      (level_of_mem_layer hsolid hp).symm.trans (of_decide_eq_true hlevel)
    have hrows : (other : Int) = row :=
      Int.eq_of_mul_eq_mul_right (Int.ne_of_gt hheight) (Int.add_left_cancel hsame)
    exact Int.ofNat_inj.1 hrows

end Levels

section Elsewhere

variable {b : Brush}

theorem covering_shifted (start dest step offset : Int) :
    covering (start + offset) (dest + offset) step =
      (covering start dest step).map fun value => value + offset := by
  have hgap : start + offset - (dest + offset) = start - dest := by omega
  rw [covering, covering, wholeSteps, hgap, stepsToward_add, List.map_cons]
  rfl

theorem slabLayer_shifted (b : Brush) (start dest offset : Cell) :
    slabLayer b (start + offset) (dest + offset) =
      (slabLayer b start dest).map (·.shifted offset) := by
  have hx := covering_shifted start.x dest.x b.size.x offset.x
  have hz := covering_shifted start.z dest.z b.size.z offset.z
  show (covering (start.x + offset.x) (dest.x + offset.x) b.size.x).flatMap _ = _
  rw [hx, List.flatMap_map, slabLayer, List.map_flatMap]
  refine List.flatMap_congr fun x _ => ?_
  show (covering (start.z + offset.z) (dest.z + offset.z) b.size.z).map _ = _
  rw [hz, List.map_map, List.map_map]
  rfl

/-- A layer moves with its start and the end of the drag. -/
theorem layer_shifted (b : Brush) (row : Nat) (start dest offset : Cell) :
    layer b row (start + offset) (dest + offset) =
      (layer b row start dest).map (·.shifted offset) := by
  cases hfilled : b.filled with
  | true =>
    rw [layer, if_pos hfilled, layer, if_pos hfilled]
    exact slabLayer_shifted b start dest offset
  | false => exact layer_moved (.shift offset) hfilled (.inr (placedSides_shifted b start dest offset)) row

/-- How high the drag leads makes no difference to a layer. -/
theorem layer_level (b : Brush) (row : Nat) (start dest : Cell) (y : Int) :
    layer b row start { dest with y } = layer b row start dest := by
  have hof (a : Axis) : a.of { dest with y } = a.of dest := a.of_level dest y
  unfold layer slabLayer straightLayer evenLayer oddLayer placedSides
  simp only [hof]

/-- A layer higher up is laid as it would be lower down. -/
theorem layer_raised (b : Brush) (row : Nat) (start dest : Cell) (rise : Int) :
    layer b row { start with y := start.y + rise } dest =
      (layer b row start dest).map (·.shifted ⟨0, rise, 0⟩) := by
  have hmoved := layer_shifted b row start dest ⟨0, rise, 0⟩
  have hstart : start + ⟨0, rise, 0⟩ = { start with y := start.y + rise } := by
    show (⟨start.x + 0, start.y + rise, start.z + 0⟩ : Cell) = _
    rw [Int.add_zero, Int.add_zero]
  have hdest : dest + ⟨0, rise, 0⟩ = { dest with y := dest.y + rise } := by
    show (⟨dest.x + 0, dest.y + rise, dest.z + 0⟩ : Cell) = _
    rw [Int.add_zero, Int.add_zero]
  rwa [hstart, hdest, layer_level] at hmoved

theorem layer_likeRow (b : Brush) (row : Nat) (start dest : Cell) :
    layer b row start dest = layer b (likeRow b row) start dest := by
  unfold layer likeRow
  split
  · rfl
  · simp only [straightLayer, Nat.mod_mod]

theorem likeRow_le (b : Brush) (row : Nat) : likeRow b row ≤ row := by
  unfold likeRow
  split
  · exact Nat.zero_le row
  · exact Nat.mod_le row 2

end Elsewhere

section Plans

variable {b : Brush} (hsolid : Solid b.code)
include hsolid

/-- One layer more leaves those below it as they are. -/
theorem drag_succ (anchor dest : Cell) : drag { b with layers := b.layers + 1 } anchor dest =
    drag b anchor dest ++ layer b b.layers (rowStart b anchor b.layers) dest := by
  have hsolid' : Solid ({ b with layers := b.layers + 1 } : Brush).code := hsolid
  rw [drag_eq_layers hsolid', drag_eq_layers hsolid, List.range_succ, List.flatMap_append,
    List.flatMap_singleton]
  rfl

/-- The plan is what it has on the levels of its rows, from the lowest up. -/
theorem drag_eq_levels (anchor dest : Cell) : drag b anchor dest =
    (List.range b.layers).flatMap fun (row : Nat) =>
      onLevel (anchor.y + row * b.size.y) (drag b anchor dest) := by
  rw [drag_eq_layers hsolid]
  refine List.flatMap_congr fun row hrow => ?_
  rw [← drag_eq_layers hsolid, onLevel_drag hsolid (List.mem_range.1 hrow)]
  rfl

/-- A layer is the lowest one that is laid like it, raised. -/
theorem onLevel_likeRow {row : Nat} (hrow : row < b.layers) (anchor dest : Cell) :
    onLevel (anchor.y + row * b.size.y) (drag b anchor dest) =
      (onLevel (anchor.y + likeRow b row * b.size.y) (drag b anchor dest)).map
        (·.shifted ⟨0, (row - likeRow b row) * b.size.y, 0⟩) := by
  have hlow : likeRow b row < b.layers := Nat.lt_of_le_of_lt (likeRow_le b row) hrow
  have hraised : rowStart b anchor row = { rowStart b anchor (likeRow b row) with
      y := anchor.y + likeRow b row * b.size.y + (row - likeRow b row) * b.size.y } := by
    rw [Int.add_assoc, ← Int.add_mul, Int.add_comm (likeRow b row : Int), Int.sub_add_cancel]
    rfl
  rw [onLevel_drag hsolid hrow, onLevel_drag hsolid hlow, hraised, layer_likeRow b row]
  exact layer_raised b (likeRow b row) (rowStart b anchor (likeRow b row)) dest _

/-- The plan moves with the anchor and the end of the drag. -/
theorem drag_shifted (anchor dest offset : Cell) :
    drag b (anchor + offset) (dest + offset) = (drag b anchor dest).map (·.shifted offset) := by
  rw [drag_eq_layers hsolid, drag_eq_layers hsolid, List.map_flatMap]
  refine List.flatMap_congr fun row _ => ?_
  rw [← layer_shifted]
  have hstart : ({ anchor + offset with y := (anchor + offset).y + row * b.size.y } : Cell) =
      { anchor with y := anchor.y + row * b.size.y } + offset := by
    show (⟨_, anchor.y + offset.y + row * b.size.y, _⟩ : Cell) = _
    rw [Int.add_right_comm]
    rfl
  rw [hstart]

/-- A plan is laid layer by layer from the lowest up, and a higher stack goes on where a lower one ends.
The layers of a slab are alike, and those of a wall are like the first two in turn, only higher up. Moved
with its anchor and its end, a drag lays the same stones in the same order, moved alike. -/
theorem drag_layered (anchor dest : Cell) :
    (drag b anchor dest = (List.range b.layers).flatMap fun (row : Nat) =>
      onLevel (anchor.y + row * b.size.y) (drag b anchor dest)) ∧
    drag b anchor dest <+: drag { b with layers := b.layers + 1 } anchor dest ∧
    (∀ row < b.layers, onLevel (anchor.y + row * b.size.y) (drag b anchor dest) =
      (onLevel (anchor.y + likeRow b row * b.size.y) (drag b anchor dest)).map
        (·.shifted ⟨0, (row - likeRow b row) * b.size.y, 0⟩)) ∧
    ∀ offset, drag b (anchor + offset) (dest + offset) =
      (drag b anchor dest).map (·.shifted offset) := by
  refine ⟨drag_eq_levels hsolid anchor dest, ?_,
    fun row hrow => onLevel_likeRow hsolid hrow anchor dest, drag_shifted hsolid anchor dest⟩
  rw [drag_succ hsolid]
  exact List.prefix_append _ _

end Plans

/-- The third layer of a wall around six by five cells is the first, six levels up. -/
theorem drag_layered_tower :
    let wall : Brush := ⟨432, .white, 1, 3, false, false⟩
    Solid wall.code ∧
      (onLevel 6 (drag wall ⟨0, 0, 0⟩ ⟨-6, 0, 5⟩)).map Placement.cell =
        [⟨0, 6, 0⟩, ⟨0, 6, 4⟩, ⟨-3, 6, 5⟩, ⟨-6, 6, 4⟩, ⟨-6, 6, 0⟩, ⟨-3, 6, -1⟩] := by
  intro wall
  have hsolid : Solid 432 := ⟨by decide, by decide, by decide⟩
  obtain ⟨-, -, hrows, -⟩ := @drag_layered wall hsolid ⟨0, 0, 0⟩ ⟨-6, 0, 5⟩
  have hthird := hrows 2 (by decide)
  have hheight : wall.size.y = 3 := by decide
  rw [hheight] at hthird
  exact ⟨hsolid, (congrArg (List.map Placement.cell) hthird).trans (by decide)⟩

end Plan

end Masonry
