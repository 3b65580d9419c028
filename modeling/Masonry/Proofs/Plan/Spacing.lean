import Mathlib.Tactic.Ring
import Masonry.Plan
import Masonry.Proofs.Plan.Run

/-!
# How far apart the stones of a plan lie

The stones of a slab, and those of a straight wall, are all turned alike. In a layer they lie at
coordinates that cover a way in steps of their extent, so any two of them are apart along `x` or along
`z`, wherever the layer starts; those of different layers are apart by a multiple of their height.
-/

namespace Masonry

/-- The direction of the steps from a coordinate toward another. -/
def heading (value dest : Int) : Int := if value > dest then -1 else 1

section Covering

variable {dest step : Int}

/-- With room for one more step after it, a step does not change the direction. -/
theorem heading_stepToward {value : Int} (hstep : 0 < step) (hroom : step ≤ (value - dest).natAbs)
    (hrest : step ≤ (stepToward value dest step - dest).natAbs) :
    heading (stepToward value dest step) dest = heading value dest := by
  unfold heading stepToward at *
  split at hrest <;> split <;> split <;> omega

/-- Steps with room for them all lead the same way. -/
theorem stepsToward_eq (hstep : 0 < step) {n : Nat} {value : Int}
    (hroom : n * step ≤ (value - dest).natAbs) :
    stepsToward dest step n value =
      (List.range n).map fun k => value + heading value dest * ((k + 1 : Nat) * step) := by
  induction n generalizing value with
  | zero => rfl
  | succ n ih =>
    obtain ⟨hfirst, hrest⟩ := room_stepToward hstep hroom
    have hnext : stepToward value dest step = value + heading value dest * step := by
      unfold stepToward heading
      split <;> omega
    rw [stepsToward, ih hrest, List.range_succ_eq_map, List.map_cons, List.map_map]
    congr 1
    · simp [hnext]
    refine List.map_congr_left fun k hk => ?_
    have hmore : step ≤ n * step := by
      have hpos : 1 * step ≤ n * step :=
        Int.mul_le_mul_of_nonneg_right (by have := List.mem_range.1 hk; omega) (Int.le_of_lt hstep)
      rwa [Int.one_mul] at hpos
    rw [heading_stepToward hstep hfirst (Int.le_trans hmore hrest), hnext]
    simp only [Function.comp_apply, Nat.succ_eq_add_one, Int.natCast_add, Int.natCast_one]
    ring

/-- The coordinates that cover a way are the multiples of the step from its start. -/
theorem covering_eq (start dest : Int) (hstep : 0 < step) :
    Plan.covering start dest step = (List.range (wholeSteps start dest step + 1)).map
      fun (k : Nat) => start + heading start dest * (k * step) := by
  rw [Plan.covering, stepsToward_eq hstep (room_wholeSteps start dest hstep), List.range_succ_eq_map,
    List.map_cons, List.map_map]
  congr 1
  simp

/-- Two stretches of the same length do not overlap. -/
def Clear (length a b : Int) : Prop := a + length ≤ b ∨ b + length ≤ a

/-- Multiples of a length are clear of each other. -/
theorem clear_of_lt (a : Int) (hstep : 0 < step) {i j : Nat} (hij : i < j) :
    Clear step (a + i * step) (a + j * step) := by
  have hfar : ((i + 1 : Nat) : Int) * step ≤ j * step :=
    Int.mul_le_mul_of_nonneg_right (Int.ofNat_le.2 hij) (Int.le_of_lt hstep)
  rw [Int.natCast_add, Int.add_mul, Int.natCast_one, Int.one_mul] at hfar
  exact .inl (by omega)

theorem pairwise_covering (start dest : Int) (hstep : 0 < step) :
    (Plan.covering start dest step).Pairwise (Clear step) := by
  rw [covering_eq start dest hstep, List.pairwise_map]
  refine List.pairwise_lt_range.imp fun {i j} hij => ?_
  have hfar := clear_of_lt 0 hstep hij
  unfold Clear heading at *
  split <;> omega

end Covering

/-- What the footprint of a type code takes up of the grid after some quarter turns. -/
def extent (code : Int32) (turns : Nat) : Cell :=
  let s := footprint code
  if turns % 2 = 0 then s else ⟨s.z, s.y, s.x⟩

/-- Two cells are so far apart along some axis that stones of one size have room in both. -/
def Apart (size c d : Cell) : Prop := Clear size.x c.x d.x ∨ Clear size.y c.y d.y ∨ Clear size.z c.z d.z

namespace Brush

variable (b : Brush)

/-- What the stones of the brush take up of the grid. -/
def extent (b : Brush) : Cell := Masonry.extent b.code b.turns

/-- A brush that is turned sideways has its length along `z`. -/
theorem extent_eq : b.extent =
    if b.sideways then ⟨(footprint b.code).z, (footprint b.code).y, (footprint b.code).x⟩
    else footprint b.code := by
  unfold extent Masonry.extent sideways
  by_cases hturns : b.turns % 2 = 0 <;> simp [hturns]

theorem extent_y : b.extent.y = b.size.y := by
  rw [extent_eq, size]
  split <;> split <;> rfl

theorem extent_of_filled (h : b.filled = true) : b.extent = b.size := by
  rw [extent_eq, size, h, Bool.true_and]

theorem size_of_not_filled (h : b.filled = false) : b.size = footprint b.code := by
  rw [size, h]
  rfl

/-- Along their long axis the stones of a wall are as long as the brush. -/
theorem apart_put_longAxis (h : b.filled = false) (start : Cell) {v w : Int}
    (hclear : Clear b.size.x v w) :
    Apart b.extent (b.longAxis.put start v) (b.longAxis.put start w) := by
  rw [b.size_of_not_filled h] at hclear
  rw [extent_eq, longAxis]
  cases b.sideways with
  | false => exact .inl hclear
  | true => exact .inr (.inr hclear)

end Brush

namespace Plan

variable {b : Brush}

/-- The stones of a list are those of the brush as it lies, and no two of them are in each other's
way. -/
structure Spaced (b : Brush) (ps : List Placement) : Prop where
  lying : ∀ p ∈ ps, p = b.stone false p.cell
  apart : ps.Pairwise fun p q => Apart b.extent p.cell q.cell

/-- The cell of the first stone of a layer of a straight wall. -/
def straightStart (b : Brush) (row : Nat) (anchor drag : Cell) : Cell :=
  if row % 2 = 0 then anchor
  else b.longAxis.move anchor (if b.longAxis.of drag ≥ b.longAxis.of anchor then 2 else -2)

theorem straightStart_y (b : Brush) (row : Nat) (anchor drag : Cell) :
    (straightStart b row anchor drag).y = anchor.y := by
  unfold straightStart
  split
  · rfl
  · exact Axis.y_put _ _ _

/-- A layer of a straight wall covers the way from its first stone. -/
theorem straightLayer_eq (b : Brush) (row : Nat) (anchor drag : Cell) :
    let start := straightStart b row anchor drag
    straightLayer b row anchor drag =
      (covering (b.longAxis.of start) (b.longAxis.of drag) b.size.x).map
        fun v => b.stone false (b.longAxis.put start v) := by
  intro start
  have hstart : (if row % 2 = 0 then anchor else b.longAxis.move anchor
      (if decide (b.longAxis.of drag ≥ b.longAxis.of anchor) then 2 else -2)) = start := by
    simp only [decide_eq_true_eq]
    rfl
  rw [straightLayer, covering, List.map_cons, Axis.put_of]
  simp only [hstart, walk, if_true, List.append_nil, Side.cells, Side.coordinates, List.map_map]
  rfl

/-- No stone of a layer is in the way of another, nor off the level on which the layer starts. -/
structure LayerSpaced (b : Brush) (level : Int) (ps : List Placement) : Prop extends Spaced b ps where
  onLevel : ∀ p ∈ ps, p.cell.y = level

theorem layerSpaced_slabLayer (h : b.filled = true) (hx : 0 < b.size.x) (hz : 0 < b.size.z)
    (anchor drag : Cell) : LayerSpaced b anchor.y (slabLayer b anchor drag) := by
  have hcell : ∀ p ∈ slabLayer b anchor drag, ∃ x z, b.stone false ⟨x, anchor.y, z⟩ = p := by
    intro p hp
    obtain ⟨x, -, hp⟩ := List.mem_flatMap.1 hp
    obtain ⟨z, -, hp⟩ := List.mem_map.1 hp
    exact ⟨x, z, hp⟩
  refine ⟨⟨fun p hp => ?_, ?_⟩, fun p hp => ?_⟩
  · obtain ⟨x, z, rfl⟩ := hcell p hp
    rfl
  · -- Of one column the stones are apart along `z`, those of two columns along `x`.
    rw [b.extent_of_filled h]
    refine List.pairwise_flatMap.2 ⟨fun x _ => ?_, ?_⟩
    · exact List.pairwise_map.2 ((pairwise_covering _ _ hz).imp fun hclear => .inr (.inr hclear))
    · refine (pairwise_covering anchor.x drag.x hx).imp fun hclear p hp q hq => ?_
      obtain ⟨_, -, rfl⟩ := List.mem_map.1 hp
      obtain ⟨_, -, rfl⟩ := List.mem_map.1 hq
      exact .inl hclear
  · obtain ⟨x, z, rfl⟩ := hcell p hp
    rfl

theorem layerSpaced_straightLayer (h : b.filled = false) (hx : 0 < b.size.x) (row : Nat)
    (anchor drag : Cell) : LayerSpaced b anchor.y (straightLayer b row anchor drag) := by
  rw [straightLayer_eq]
  refine ⟨⟨fun p hp => ?_, ?_⟩, fun p hp => ?_⟩
  · obtain ⟨v, -, rfl⟩ := List.mem_map.1 hp
    rfl
  · exact List.pairwise_map.2
      ((pairwise_covering _ _ hx).imp fun hclear => b.apart_put_longAxis h _ hclear)
  · obtain ⟨v, -, rfl⟩ := List.mem_map.1 hp
    exact (Axis.y_put _ _ _).trans (straightStart_y b row anchor drag)

/-- Slabs and straight walls consist of spaced layers. -/
theorem layerSpaced_layer (hx : 0 < b.size.x) (hz : 0 < b.size.z) (row : Nat) (start dest : Cell)
    (hplan : b.filled = true ∨ b.longAxis.other.of dest = b.longAxis.other.of start) :
    LayerSpaced b start.y (layer b row start dest) := by
  unfold layer
  cases hfilled : b.filled with
  | true => exact layerSpaced_slabLayer hfilled hx hz start dest
  | false =>
    rw [if_neg Bool.false_ne_true, if_pos (hplan.resolve_left (by simp [hfilled]))]
    exact layerSpaced_straightLayer hfilled hx row start dest

/-- So the plans of slabs and straight walls are spaced, however high they are stacked. -/
theorem spaced_drag {anchor dest : Cell}
    (hplan : b.filled = true ∨ b.longAxis.other.of dest = b.longAxis.other.of anchor) :
    Spaced b (drag b anchor dest) := by
  unfold drag
  split
  · exact ⟨nofun, .nil⟩
  rename_i hextents
  simp only [not_or, Int.not_le] at hextents
  obtain ⟨hx, hy, hz⟩ := hextents
  have hlayer (row : Nat) : LayerSpaced b (anchor.y + row * b.size.y)
      (layer b row { anchor with y := anchor.y + row * b.size.y } dest) := by
    refine layerSpaced_layer hx hz row { anchor with y := anchor.y + row * b.size.y } dest ?_
    rwa [Axis.of_level _ anchor]
  rw [layers, List.flatMap_map]
  refine ⟨fun p hp => ?_, List.pairwise_flatMap.2 ⟨fun row _ => (hlayer row).apart, ?_⟩⟩
  · obtain ⟨row, -, hp⟩ := List.mem_flatMap.1 hp
    exact (hlayer row).lying p hp
  · refine List.pairwise_lt_range.imp fun {i j} hij p hp q hq => .inr (.inl ?_)
    rw [(hlayer i).onLevel p hp, (hlayer j).onLevel q hq, b.extent_y]
    exact clear_of_lt anchor.y hy hij

end Plan

end Masonry
