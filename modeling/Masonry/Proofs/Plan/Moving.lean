import Mathlib.Data.List.Basic
import Masonry.Plan
import Masonry.Proofs.Plan.Run

/-!
# Plans elsewhere on the grid

A wall is planned alike wherever it stands: moved with its anchor and its drag by some cells, and,
with the brush a quarter turn further, with columns and rows exchanged. Both are motions that carry an
axis to an axis and keep the direction along it, and the runs of a wall depend on nothing else. They
are carried from one side to a walk of sides, and from there to the layers and the plan. What exchanging
columns and rows does not keep is the choice of two adjacent sides of a border.
-/

namespace Masonry

/-- A motion of the grid that keeps directions, and what becomes of brushes and stones under it. -/
structure Motion where
  cell : Cell → Cell
  /-- The axis onto which a horizontal axis goes. -/
  axis : Axis → Axis
  /-- By how much the coordinates along a horizontal axis grow. -/
  offset : Axis → Int
  /-- By how much levels grow. -/
  rise : Int
  /-- The quarter turns of a brush after the motion. -/
  brushTurns : Nat → Nat
  /-- The quarter turns of a stone after the motion. -/
  stoneTurns : Nat → Nat
  axis_other : ∀ a, axis a.other = (axis a).other
  of_cell : ∀ a c, (axis a).of (cell c) = a.of c + offset a
  put_cell : ∀ a c value, (axis a).put (cell c) (value + offset a) = cell (a.put c value)
  cell_level : ∀ (c : Cell) (y : Int), cell { c with y } = { cell c with y := y + rise }
  longAxis_turned : ∀ b : Brush, { b with turns := brushTurns b.turns }.longAxis = axis b.longAxis
  foldTurns_turned : ∀ turns more : Nat,
    foldTurns (brushTurns turns + more) = stoneTurns (foldTurns (turns + more))

/-- Steps between coordinates that have grown alike. -/
theorem stepsToward_add (dest step offset : Int) (n : Nat) (value : Int) :
    stepsToward (dest + offset) step n (value + offset) =
      (stepsToward dest step n value).map fun v => v + offset := by
  induction n generalizing value with
  | zero => rfl
  | succ n ih =>
    have hnext : stepToward (value + offset) (dest + offset) step =
        stepToward value dest step + offset := by
      unfold stepToward
      split <;> split <;> omega
    rw [stepsToward, stepsToward, List.map_cons, hnext, ih]

namespace Motion

variable (m : Motion)

theorem move_cell (a : Axis) (c : Cell) (offset : Int) :
    (m.axis a).move (m.cell c) offset = m.cell (a.move c offset) := by
  rw [Axis.move, m.of_cell, Int.add_right_comm, m.put_cell, Axis.move]

/-- The brush after the motion. -/
def brush (b : Brush) : Brush := { b with turns := m.brushTurns b.turns }

/-- The stone after the motion. -/
def placement (p : Placement) : Placement :=
  { p with turns := m.stoneTurns p.turns, cell := m.cell p.cell }

theorem longAxis_brush (b : Brush) : (m.brush b).longAxis = m.axis b.longAxis := m.longAxis_turned b

/-- Unless it is filled, turning a brush leaves its extents as they are. -/
theorem size_brush {b : Brush} (hwall : b.filled = false) : (m.brush b).size = b.size := by
  simp [Brush.size, brush, hwall]

theorem stone_brush (b : Brush) (across : Bool) (c : Cell) :
    (m.brush b).stone across (m.cell c) = m.placement (b.stone across c) := by
  have hturns := m.foldTurns_turned b.turns (if across then 1 else 0)
  simp only [Brush.stone, Placement.folded, placement, brush, Placement.mk.injEq, true_and, and_true]
  cases across <;> exact hturns

/-- The side after the motion. -/
def side (s : Side) : Side := { s with axis := m.axis s.axis, dest := s.dest + m.offset s.axis }

variable (s : Side) (length width : Int) (start : Cell)

theorem coordinates_side : (m.side s).coordinates length (m.cell start) =
    (s.coordinates length start).map fun value => value + m.offset s.axis := by
  have hgap : s.axis.of start + m.offset s.axis - (s.dest + m.offset s.axis) =
      s.axis.of start - s.dest := by omega
  rw [Side.coordinates, Side.coordinates]
  simp only [side, m.of_cell, wholeSteps, hgap, stepsToward_add]

theorem cells_side :
    (m.side s).cells length (m.cell start) = (s.cells length start).map m.cell := by
  rw [Side.cells, coordinates_side, Side.cells, List.map_map, List.map_map]
  exact List.map_congr_left fun value _ => m.put_cell s.axis start value

theorem cornerOffset_side : (m.side s).cornerOffset length width (m.cell start) =
    s.cornerOffset length width start := by
  have hgap (value : Int) :
      value + m.offset s.axis - (s.dest + m.offset s.axis) = value - s.dest := by omega
  rw [Side.cornerOffset, coordinates_side, List.getLast?_map, side, m.of_cell,
    Option.getD_map (fun value => value + m.offset s.axis), hgap, Side.cornerOffset]

/-- The next side starts where the motion takes its start. -/
theorem nextStart_side : (m.side s).nextStart length width (m.cell start) =
    m.cell (s.nextStart length width start) := by
  have honward (offset : Int) :
      (if (m.side s).axis.of (m.cell start) ≤ (m.side s).dest then offset else -offset) =
        if s.axis.of start ≤ s.dest then offset else -offset :=
    if_congr (by rw [side, m.of_cell, Int.add_le_add_iff_right]) rfl rfl
  rw [Side.nextStart, cells_side, List.getLast?_map, Option.getD_map, cornerOffset_side, honward,
    Side.nextStart, ← m.move_cell, ← m.move_cell, m.axis_other]
  rfl

end Motion

namespace Plan

section Walls

variable {b : Brush} (m : Motion) (hwall : b.filled = false)
include hwall

theorem walk_moved (start : Cell) (sides : List Side) :
    walk (m.brush b) (m.cell start) (sides.map m.side) = (walk b start sides).map m.placement := by
  induction sides generalizing start with
  | nil => rfl
  | cons s sides ih =>
    refine walk_cons_eq_map rfl ?_ (m.stone_brush b s.across) ?_
    · rw [m.size_brush hwall, m.cells_side]
    · rw [m.size_brush hwall, m.nextStart_side, ih]

theorem straightLayer_moved (row : Nat) (anchor dest : Cell) :
    straightLayer (m.brush b) row (m.cell anchor) (m.cell dest) =
      (straightLayer b row anchor dest).map m.placement := by
  unfold straightLayer
  simp only [m.longAxis_brush, m.of_cell, m.move_cell, List.map_cons, ← m.stone_brush,
    ← walk_moved m hwall, ge_iff_le, Int.add_le_add_iff_right]
  split <;> rfl

variable {anchor dest : Cell}

section Border

variable (hsides : placedSides (m.brush b) (m.cell anchor) (m.cell dest) = placedSides b anchor dest)
include hsides

theorem evenLayer_moved : evenLayer (m.brush b) (m.cell anchor) (m.cell dest) =
    (evenLayer b anchor dest).map m.placement := by
  unfold evenLayer
  rw [hsides]
  obtain ⟨near, far⟩ := placedSides b anchor dest
  simp only [m.longAxis_brush, ← m.axis_other, m.of_cell, ge_iff_le, Int.add_le_add_iff_right,
    List.map_append, ← walk_moved m hwall]
  cases near with
  | false => rfl
  | true => simp [m.stone_brush, Motion.side]

theorem oddLayer_moved : oddLayer (m.brush b) (m.cell anchor) (m.cell dest) =
    (oddLayer b anchor dest).map m.placement := by
  have hedge : (m.brush b).edgeOnly = b.edgeOnly := rfl
  unfold oddLayer
  rw [hsides]
  obtain ⟨near, far⟩ := placedSides b anchor dest
  simp only [m.longAxis_brush, hedge, ← m.axis_other, m.of_cell, m.move_cell, ge_iff_le,
    Int.add_le_add_iff_right, List.map_append, ← walk_moved m hwall]
  cases b.edgeOnly with
  | false => simp [m.stone_brush, Motion.side]
  | true => rfl

end Border

variable (hsides : b.longAxis.other.of dest = b.longAxis.other.of anchor ∨
  placedSides (m.brush b) (m.cell anchor) (m.cell dest) = placedSides b anchor dest)
include hsides

theorem layer_moved (row : Nat) : layer (m.brush b) row (m.cell anchor) (m.cell dest) =
    (layer b row anchor dest).map m.placement := by
  have hfilled : (m.brush b).filled = false := hwall
  have hstraight : (m.brush b).longAxis.other.of (m.cell dest) =
      (m.brush b).longAxis.other.of (m.cell anchor) ↔
        b.longAxis.other.of dest = b.longAxis.other.of anchor := by
    rw [m.longAxis_brush, ← m.axis_other, m.of_cell, m.of_cell, Int.add_left_inj]
  rw [layer, hfilled, if_neg Bool.false_ne_true, layer, hwall, if_neg Bool.false_ne_true]
  by_cases hcross : b.longAxis.other.of dest = b.longAxis.other.of anchor
  · rw [if_pos hcross, if_pos (hstraight.2 hcross)]
    exact straightLayer_moved m hwall row anchor dest
  · have hborder := hsides.resolve_left hcross
    rw [if_neg hcross, if_neg (mt hstraight.1 hcross)]
    split
    · exact evenLayer_moved m hwall hborder
    · exact oddLayer_moved m hwall hborder

/-- The plan of a wall moves with the brush, the anchor and the drag, if the wall is straight or the
same sides of the border are placed. -/
theorem drag_moved : drag (m.brush b) (m.cell anchor) (m.cell dest) =
    (drag b anchor dest).map m.placement := by
  have hlayers : (m.brush b).layers = b.layers := rfl
  have hlevel : (m.cell anchor).y = anchor.y + m.rise :=
    congrArg Vec3.y (m.cell_level anchor anchor.y)
  unfold drag
  rw [m.size_brush hwall]
  split
  · rfl
  · rw [layers, layers, hlayers, m.size_brush hwall, List.map_flatMap, List.flatMap_map,
      List.flatMap_map]
    refine List.flatMap_congr fun row _ => ?_
    have hstart : m.cell { anchor with y := anchor.y + row * b.size.y } =
        { m.cell anchor with y := (m.cell anchor).y + row * b.size.y } := by
      rw [hlevel, Int.add_right_comm]
      exact m.cell_level anchor _
    show layer (m.brush b) row { m.cell anchor with y := _ } _ = _
    rw [← hstart]
    refine layer_moved m hwall (hsides.imp (fun hcross => ?_) fun hborder => ?_) row
    · rwa [Axis.of_level _ anchor]
    · rw [hstart]
      exact hborder

end Walls

end Plan

namespace Motion

/-- Moving by some cells. -/
def shift (offset : Cell) : Motion where
  cell c := c + offset
  axis a := a
  offset a := a.of offset
  rise := offset.y
  brushTurns turns := turns
  stoneTurns turns := turns
  axis_other _ := rfl
  of_cell a c := by cases a <;> rfl
  put_cell a c value := by cases a <;> rfl
  cell_level _ _ := rfl
  longAxis_turned _ := rfl
  foldTurns_turned _ _ := rfl

end Motion

/-- The cell with its column and its row exchanged. -/
def Vec3.transposed (c : Cell) : Cell := ⟨c.z, c.y, c.x⟩

namespace Motion

/-- Exchanging columns and rows, which turns brushes and stones by a quarter. -/
def transpose : Motion where
  cell := Vec3.transposed
  axis := Axis.other
  offset _ := 0
  rise := 0
  brushTurns turns := turns + 1
  stoneTurns turns := (turns + 1) % 4
  axis_other _ := rfl
  of_cell a c := by cases a <;> simp [Axis.of, Axis.other, Vec3.transposed]
  put_cell a c value := by cases a <;> simp [Axis.put, Axis.other, Vec3.transposed]
  cell_level c y := by simp [Vec3.transposed]
  longAxis_turned b := by
    have hparity : (b.turns + 1) % 2 = 1 - b.turns % 2 := by omega
    rcases Nat.mod_two_eq_zero_or_one b.turns with h | h <;>
      simp [Brush.longAxis, Brush.sideways, hparity, h, Axis.other]
  foldTurns_turned turns more := by
    unfold foldTurns
    omega

end Motion

namespace Plan

/-- Which sides of a border are placed depends on the direction of the drag only. -/
theorem placedSides_shifted (b : Brush) (anchor dest offset : Cell) :
    placedSides b (anchor + offset) (dest + offset) = placedSides b anchor dest := by
  have hof (c d o : Int) : decide (c + o ≥ d + o) = decide (c ≥ d) :=
    decide_eq_decide.2 (Int.add_le_add_iff_right o)
  unfold placedSides
  rw [← hof dest.x anchor.x offset.x, ← hof dest.z anchor.z offset.z]
  rfl

variable {b : Brush} (hwall : b.filled = false)
include hwall

/-- With columns and rows exchanged and the brush a quarter turn further, a wall is planned stone by
stone as before, each in the cell exchanged alike and a quarter turn further, if all sides of a border
are placed or the wall is straight. -/
theorem drag_transposed {anchor dest : Cell}
    (hsides : b.edgeOnly = false ∨ b.longAxis.other.of dest = b.longAxis.other.of anchor) :
    drag { b with turns := b.turns + 1 } anchor.transposed dest.transposed =
      (drag b anchor dest).map fun p =>
        { p with turns := (p.turns + 1) % 4, cell := p.cell.transposed } := by
  refine drag_moved .transpose hwall (hsides.symm.imp_right fun hedge => ?_)
  have hedge' : (Motion.transpose.brush b).edgeOnly = false := hedge
  rw [placedSides, placedSides, hedge, hedge']
  rfl

omit hwall in
/-- A wall two layers high around six times four cells, and the one around four times six. -/
theorem drag_transposed_hut :
    let wall : Brush := ⟨432, .white, 0, 2, false, false⟩
    wall.filled = false ∧
      (wall.edgeOnly = false ∨
        wall.longAxis.other.of ⟨6, 0, -4⟩ = wall.longAxis.other.of ⟨0, 0, 0⟩) ∧
      drag ⟨432, .white, 1, 2, false, false⟩ ⟨0, 0, 0⟩ ⟨-4, 0, 6⟩ =
        (drag wall ⟨0, 0, 0⟩ ⟨6, 0, -4⟩).map fun p =>
          { p with turns := (p.turns + 1) % 4, cell := p.cell.transposed } :=
  ⟨rfl, .inl rfl, @drag_transposed ⟨432, .white, 0, 2, false, false⟩ rfl ⟨0, 0, 0⟩ ⟨6, 0, -4⟩ (.inl rfl)⟩

end Plan

end Masonry
