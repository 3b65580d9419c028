import Mathlib.Data.List.Basic
import Masonry.Plan
import Masonry.Proofs.Plan.Run

/-!
# Mirrored walls

A drag and its reverse wall the same rectangle from opposite corners, so the wall of one should be
that of the other turned half around the middle of the rectangle. Every side of a wall is turned with
its start and its destination, unless it starts at its destination: such a side counts as going
upward, turned or not, and where a corner is more than one cell wide this shows. It happens to the
first side of an odd layer when the drag leads one cell along the short axis; at all other drags the
walls are mirrored.
-/

namespace Masonry

/-- The cell across the middle of a rectangle, two of whose opposite corners add up to `sum`. -/
def opposite (sum c : Cell) : Cell := ⟨sum.x - c.x, c.y, sum.z - c.z⟩

/-- The same stone across the middle. -/
def Placement.opposite (sum : Cell) (p : Placement) : Placement :=
  { p with cell := Masonry.opposite sum p.cell }

/-- The corners of the rectangle lie across the middle from one another, on every level. -/
theorem opposite_add_left (anchor dest : Cell) (y : Int) :
    opposite (anchor + dest) { anchor with y } = { dest with y } := by
  show (⟨anchor.x + dest.x - anchor.x, y, anchor.z + dest.z - anchor.z⟩ : Cell) = ⟨dest.x, y, dest.z⟩
  rw [Int.add_comm anchor.x, Int.add_comm anchor.z, Int.add_sub_cancel, Int.add_sub_cancel]

theorem opposite_add_right (anchor dest : Cell) :
    opposite (anchor + dest) dest = { anchor with y := dest.y } := by
  show (⟨anchor.x + dest.x - dest.x, dest.y, anchor.z + dest.z - dest.z⟩ : Cell) =
    ⟨anchor.x, dest.y, anchor.z⟩
  rw [Int.add_sub_cancel, Int.add_sub_cancel]

@[simp] theorem Axis.of_opposite (a : Axis) (sum c : Cell) :
    a.of (opposite sum c) = a.of sum - a.of c := by
  cases a <;> rfl

theorem Axis.put_opposite (a : Axis) (sum c : Cell) (value : Int) :
    a.put (opposite sum c) (a.of sum - value) = opposite sum (a.put c value) := by
  cases a <;> rfl

theorem Axis.move_opposite (a : Axis) (sum c : Cell) (offset : Int) :
    a.move (opposite sum c) (-offset) = opposite sum (a.move c offset) := by
  rw [move, move, ← put_opposite, of_opposite]
  congr 1
  omega

theorem Brush.stone_opposite (b : Brush) (across : Bool) (sum c : Cell) :
    b.stone across (opposite sum c) = (b.stone across c).opposite sum := rfl

/-- Steps with room for them are turned with where they start and where they lead. -/
theorem stepsToward_opposite {sum dest step : Int} (hstep : 0 < step) {n : Nat} {value : Int}
    (hroom : n * step ≤ (value - dest).natAbs) :
    stepsToward (sum - dest) step n (sum - value) =
      (stepsToward dest step n value).map fun v => sum - v := by
  induction n generalizing value with
  | zero => rfl
  | succ n ih =>
    obtain ⟨hfirst, hrest⟩ := room_stepToward hstep hroom
    have hnext : stepToward (sum - value) (sum - dest) step = sum - stepToward value dest step := by
      unfold stepToward
      split <;> split <;> omega
    rw [stepsToward, stepsToward, List.map_cons, hnext, ih hrest]

namespace Side

/-- The side across the middle. -/
def opposite (sum : Cell) (s : Side) : Side :=
  { s with dest := s.axis.of sum - s.dest, cornerBack := !s.cornerBack }

@[simp] theorem axis_opposite (sum : Cell) (s : Side) : (s.opposite sum).axis = s.axis := rfl

@[simp] theorem dest_opposite (sum : Cell) (s : Side) :
    (s.opposite sum).dest = s.axis.of sum - s.dest := rfl

@[simp] theorem cornerBack_opposite (sum : Cell) (s : Side) :
    (s.opposite sum).cornerBack = !s.cornerBack := rfl

/-- Whether the next side starts the same way from a side and from the one across the middle: it does
unless the side starts at its destination and turns a corner. -/
def Turns (s : Side) (length width : Int) (start : Cell) : Prop :=
  s.axis.of start = s.dest → s.cornerOffset length width start = 0

variable (s : Side) {length width : Int} (sum start : Cell)

theorem turns_of_ne (h : s.axis.of start ≠ s.dest) : s.Turns length width start :=
  fun heq => absurd heq h

theorem coordinates_opposite (hlength : 0 < length) :
    (s.opposite sum).coordinates length (Masonry.opposite sum start) =
      (s.coordinates length start).map fun v => s.axis.of sum - v := by
  have hgap : s.axis.of sum - s.axis.of start - (s.axis.of sum - s.dest) =
      -(s.axis.of start - s.dest) := by omega
  have hsteps : wholeSteps (s.axis.of sum - s.axis.of start) (s.axis.of sum - s.dest) length =
      wholeSteps (s.axis.of start) s.dest length := by
    rw [wholeSteps, hgap, Int.natAbs_neg, wholeSteps]
  rw [coordinates, axis_opposite, dest_opposite, Axis.of_opposite, hsteps]
  exact stepsToward_opposite hlength (room_wholeSteps _ _ hlength)

theorem cells_opposite (hlength : 0 < length) :
    (s.opposite sum).cells length (Masonry.opposite sum start) =
      (s.cells length start).map (Masonry.opposite sum) := by
  rw [cells, axis_opposite, coordinates_opposite s sum start hlength, cells, List.map_map,
    List.map_map]
  exact List.map_congr_left fun v _ => Axis.put_opposite s.axis sum start v

theorem finish_opposite (hlength : 0 < length) :
    (s.opposite sum).finish length (Masonry.opposite sum start) =
      s.axis.of sum - s.finish length start := by
  show ((Side.coordinates _ _ _).getLast?).getD (s.axis.of (Masonry.opposite sum start)) =
    s.axis.of sum - ((s.coordinates length start).getLast?).getD (s.axis.of start)
  rw [coordinates_opposite s sum start hlength, List.getLast?_map, Axis.of_opposite]
  cases (s.coordinates length start).getLast? <;> rfl

theorem cornerOffset_opposite (hlength : 0 < length) (width : Int) :
    (s.opposite sum).cornerOffset length width (Masonry.opposite sum start) =
      s.cornerOffset length width start := by
  have hgap : ((s.opposite sum).finish length (Masonry.opposite sum start) -
      (s.opposite sum).dest).natAbs = (s.finish length start - s.dest).natAbs := by
    rw [finish_opposite s sum start hlength, dest_opposite]
    omega
  rw [cornerOffset_eq, cornerOffset_eq, hgap]

/-- A side that starts at its destination and turns leads on from there. -/
theorem of_nextStart_of_turns (hlength : 0 < length) (h : s.Turns length width start)
    (hstart : s.axis.of start = s.dest) :
    s.axis.of (s.nextStart length width start) = s.axis.of start := by
  rw [of_nextStart, h hstart, s.finish_of_eq_dest start hlength hstart, hstart]
  simp

/-- The next side starts across the middle, too. -/
theorem nextStart_opposite (hlength : 0 < length) (h : s.Turns length width start) :
    (s.opposite sum).nextStart length width (Masonry.opposite sum start) =
      Masonry.opposite sum (s.nextStart length width start) := by
  have honward : (if s.axis.of (Masonry.opposite sum start) ≤ (s.opposite sum).dest
        then s.cornerOffset length width start else -s.cornerOffset length width start) =
      -(if s.axis.of start ≤ s.dest
        then s.cornerOffset length width start else -s.cornerOffset length width start) := by
    rw [Axis.of_opposite, dest_opposite]
    unfold Turns at h
    split <;> split <;> omega
  have hsideward : (if (s.opposite sum).cornerBack
        then -s.cornerOffset length width start else s.cornerOffset length width start) =
      -(if s.cornerBack
        then -s.cornerOffset length width start else s.cornerOffset length width start) := by
    rw [cornerBack_opposite]
    cases s.cornerBack <;> simp
  rw [nextStart, nextStart, getLast_cells, getLast_cells, cornerOffset_opposite s sum start hlength,
    finish_opposite s sum start hlength, hsideward, axis_opposite, honward, Axis.put_opposite,
    Axis.move_opposite, Axis.move_opposite]

end Side

namespace Plan

variable {b : Brush}

/-- All sides but the last, walked from a cell, lead on to the next one the same way from across the
middle. -/
def Turns (b : Brush) : Cell → List Side → Prop
  | _, [] => True
  | start, s :: sides =>
    (sides = [] ∨ s.Turns b.size.x b.size.z start) ∧
      Turns b (s.nextStart b.size.x b.size.z start) sides

/-- Sides walked across the middle place their stones across the middle. -/
theorem walk_opposite (hlength : 0 < b.size.x) (sum : Cell) {start : Cell} {sides : List Side}
    (h : Turns b start sides) :
    walk b (opposite sum start) (sides.map (Side.opposite sum)) =
      (walk b start sides).map (Placement.opposite sum) := by
  induction sides generalizing start with
  | nil => rfl
  | cons s sides ih =>
    obtain ⟨hcorner, hsides⟩ := h
    have hrest : walk b ((s.opposite sum).nextStart b.size.x b.size.z (opposite sum start))
        (sides.map (Side.opposite sum)) =
          (walk b (s.nextStart b.size.x b.size.z start) sides).map (Placement.opposite sum) := by
      obtain rfl | hcorner := hcorner
      · rfl
      · rw [s.nextStart_opposite sum start hlength hcorner, ih hsides]
    exact walk_cons_eq_map rfl (s.cells_opposite sum start hlength) (b.stone_opposite s.across sum) hrest

/-- Three sides around a rectangle, in the order of a border, and a fourth: the first corner leads
away from where the second side goes, the second away from where the third does, so neither of these
starts at its destination. -/
theorem turns_around (hlength : 0 < b.size.x) (hwidth : 0 < b.size.z) {a o : Axis}
    (hother : a.other = o) {anchor dest start : Cell} (halong : a.of dest ≠ a.of anchor)
    (haside : o.of dest ≠ o.of anchor) {s₁ s₂ s₃ : Side} (s₄ : Side)
    (h₁ : s₁.axis = a ∧ s₁.dest = a.of dest ∧
      s₁.cornerBack = decide (o.of dest ≥ o.of anchor))
    (h₂ : s₂.axis = o ∧ s₂.dest = o.of dest ∧
      s₂.cornerBack = !decide (a.of dest ≥ a.of anchor))
    (h₃ : s₃.axis = a ∧ s₃.dest = a.of anchor)
    (hbefore : if a.of dest ≥ a.of anchor then a.of anchor ≤ a.of start ∧ a.of start ≤ a.of dest
      else a.of dest ≤ a.of start ∧ a.of start ≤ a.of anchor)
    (hbeside : if o.of dest ≥ o.of anchor then o.of start ≤ o.of anchor
      else o.of anchor ≤ o.of start)
    (hfirst : s₁.Turns b.size.x b.size.z start) :
    Turns b start [s₁, s₂, s₃, s₄] := by
  subst hother
  have hoffset₁ := s₁.cornerOffset_nonneg start hlength hwidth
  have hoffset₂ := s₂.cornerOffset_nonneg (s₁.nextStart b.size.x b.size.z start) hlength hwidth
  have honward := s₁.nextStart_onward start hlength hwidth
  have hstay := s₁.of_nextStart_of_turns start hlength hfirst
  have haside₁ := s₁.of_other_nextStart start b.size.x b.size.z
  have haside₂ := s₂.of_other_nextStart (s₁.nextStart b.size.x b.size.z start) b.size.x b.size.z
  obtain ⟨haxis₁, hdest₁, hback₁⟩ := h₁
  obtain ⟨haxis₂, hdest₂, hback₂⟩ := h₂
  obtain ⟨haxis₃, hdest₃⟩ := h₃
  rw [haxis₁, hdest₁] at honward hstay
  rw [haxis₁, hback₁] at haside₁
  rw [haxis₂, hback₂, Axis.other_other] at haside₂
  refine ⟨.inr hfirst, .inr (s₂.turns_of_ne _ ?_), .inr (s₃.turns_of_ne _ ?_), .inl rfl, trivial⟩
  · rw [haxis₂, hdest₂, haside₁]
    simp only [decide_eq_true_eq]
    split at hbeside <;> split <;> omega
  · rw [haxis₃, hdest₃, haside₂]
    simp only [Bool.not_eq_true', decide_eq_false_iff_not]
    split at hbefore <;> split <;> omega

section Layers

variable (hlength : 0 < b.size.x) (hwidth : 0 < b.size.z) (sum : Cell) {anchor dest : Cell}
  (hx : dest.x ≠ anchor.x) (hz : dest.z ≠ anchor.z)
include hx hz

theorem of_ne (a : Axis) : a.of dest ≠ a.of anchor := by
  cases a
  · exact hx
  · exact hz

/-- Across the middle a drag goes the other way along both axes. -/
theorem decide_ge_opposite (a : Axis) :
    decide (a.of sum - a.of dest ≥ a.of sum - a.of anchor) =
      !decide (a.of dest ≥ a.of anchor) := by
  have hne := of_ne hx hz a
  rw [← decide_not]
  exact decide_eq_decide.2 (by omega)

/-- The same sides are placed. -/
theorem placedSides_opposite :
    placedSides b (opposite sum anchor) (opposite sum dest) = placedSides b anchor dest := by
  have hrows : decide ((opposite sum dest).x ≥ (opposite sum anchor).x) =
      !decide (dest.x ≥ anchor.x) := decide_ge_opposite sum hx hz .x
  have hcolumns : decide ((opposite sum dest).z ≥ (opposite sum anchor).z) =
      !decide (dest.z ≥ anchor.z) := decide_ge_opposite sum hx hz .z
  have hsame : ∀ p q : Bool, ((!p) == !q) = (p == q) := by decide
  unfold placedSides
  rw [hrows, hcolumns, hsame]

include hlength hwidth

theorem evenLayer_opposite : evenLayer b (opposite sum anchor) (opposite sum dest) =
    (evenLayer b anchor dest).map (Placement.opposite sum) := by
  have hforward := decide_ge_opposite sum hx hz b.longAxis
  have hsideward := decide_ge_opposite sum hx hz b.longAxis.other
  have halong := of_ne hx hz b.longAxis
  have haside := of_ne hx hz b.longAxis.other
  unfold evenLayer
  rw [placedSides_opposite sum hx hz]
  obtain ⟨near, far⟩ := placedSides b anchor dest
  simp only [Axis.of_opposite, hforward, hsideward, List.map_append]
  rw [← walk_opposite hlength sum]
  · simp only [List.map_cons, List.map_nil, Side.opposite]
    cases near <;> rfl
  · exact turns_around hlength hwidth rfl halong haside _ ⟨rfl, rfl, rfl⟩ ⟨rfl, rfl, rfl⟩ ⟨rfl, rfl⟩
      (by split <;> omega) (by split <;> omega) (Side.turns_of_ne _ _ halong.symm)

theorem oddLayer_opposite (hwide : b.size.z = 1 ∨
      (b.longAxis.other.of dest - b.longAxis.other.of anchor).natAbs ≠ 1) :
    oddLayer b (opposite sum anchor) (opposite sum dest) =
      (oddLayer b anchor dest).map (Placement.opposite sum) := by
  have hforward := decide_ge_opposite sum hx hz b.longAxis
  have hsideward := decide_ge_opposite sum hx hz b.longAxis.other
  have halong := of_ne hx hz b.longAxis
  have haside := of_ne hx hz b.longAxis.other
  unfold oddLayer
  rw [placedSides_opposite sum hx hz]
  obtain ⟨near, far⟩ := placedSides b anchor dest
  simp only [Axis.of_opposite, hforward, hsideward, List.map_append]
  have hstart : ∀ forward sideward : Bool,
      b.longAxis.other.move (b.longAxis.move (opposite sum anchor) (if !forward then -1 else 1))
          (if !sideward then 1 else -1) =
        opposite sum (b.longAxis.other.move (b.longAxis.move anchor (if forward then -1 else 1))
          (if sideward then 1 else -1)) := by
    intro forward sideward
    rw [← Axis.move_opposite, ← Axis.move_opposite]
    cases forward <;> cases sideward <;> rfl
  rw [hstart, ← walk_opposite hlength sum]
  · simp only [List.map_cons, List.map_nil, Side.opposite]
    cases b.edgeOnly <;> simp
    rfl
  · refine turns_around hlength hwidth (Axis.other_other _) haside halong _ ⟨rfl, rfl, rfl⟩
      ⟨rfl, rfl, rfl⟩ ⟨rfl, rfl⟩ ?_ ?_ ?_
    · simp only [Axis.of_move, Axis.of_other_move, decide_eq_true_eq]
      split <;> omega
    · simp only [Axis.of_move_other, Axis.of_move, decide_eq_true_eq]
      split <;> omega
    · intro hzero
      have hone : (b.longAxis.other.of dest - b.longAxis.other.of anchor).natAbs = 1 := by
        rw [Axis.of_move, Axis.of_other_move] at hzero
        simp only [decide_eq_true_eq] at hzero
        split at hzero <;> omega
      rw [Side.cornerOffset_of_eq_dest _ _ hlength hwidth hzero]
      omega

/-- A layer of a wall, across the middle; in odd layers, if corners are one cell wide or the drag leads
more than one cell along the short axis. -/
theorem layer_opposite (hfilled : b.filled = false) {row : Nat}
    (hwide : row = 0 ∨ b.size.z = 1 ∨
      (b.longAxis.other.of dest - b.longAxis.other.of anchor).natAbs ≠ 1) :
    layer b row (opposite sum anchor) (opposite sum dest) =
      (layer b row anchor dest).map (Placement.opposite sum) := by
  have haside := of_ne hx hz b.longAxis.other
  have haside' : b.longAxis.other.of (opposite sum dest) ≠ b.longAxis.other.of (opposite sum anchor) := by
    rw [Axis.of_opposite, Axis.of_opposite]
    omega
  rw [layer, layer, hfilled, if_neg Bool.false_ne_true, if_neg Bool.false_ne_true, if_neg haside,
    if_neg haside']
  split
  · exact evenLayer_opposite hlength hwidth sum hx hz
  · refine oddLayer_opposite hlength hwidth sum hx hz (hwide.resolve_left ?_)
    rintro rfl
    contradiction

end Layers

/-- Reversing a drag across a rectangle mirrors the wall around it, stone by stone, if the wall has one
layer, or its stones are one cell wide, or the drag leads more than one cell along the short axis. -/
theorem drag_reversed (b : Brush) (anchor dest : Cell) (hfilled : b.filled = false)
    (hy : dest.y = anchor.y) (hx : dest.x ≠ anchor.x) (hz : dest.z ≠ anchor.z)
    (hwide : b.layers ≤ 1 ∨ b.size.z = 1 ∨
      (b.longAxis.other.of dest - b.longAxis.other.of anchor).natAbs ≠ 1) :
    drag b dest anchor = (drag b anchor dest).map (Placement.opposite (anchor + dest)) := by
  unfold drag
  split
  · rfl
  · next hsize =>
    obtain ⟨hlength, -, hwidth⟩ : 0 < b.size.x ∧ 0 < b.size.y ∧ 0 < b.size.z := by omega
    rw [List.map_flatMap, layers, layers, List.flatMap_map, List.flatMap_map]
    refine List.flatMap_congr fun row hrow => ?_
    have hwide : row = 0 ∨ b.size.z = 1 ∨ (b.longAxis.other.of dest -
        b.longAxis.other.of { anchor with y := anchor.y + row * b.size.y }).natAbs ≠ 1 := by
      rw [Axis.of_level _ anchor]
      exact hwide.imp_left fun hone => Nat.lt_one_iff.1 (Nat.lt_of_lt_of_le (List.mem_range.1 hrow) hone)
    have hx : dest.x ≠ ({ anchor with y := anchor.y + row * b.size.y } : Cell).x := hx
    calc layer b row { dest with y := dest.y + row * b.size.y } anchor
        = layer b row (opposite (anchor + dest) { anchor with y := anchor.y + row * b.size.y })
            (opposite (anchor + dest) dest) := by rw [opposite_add_left, opposite_add_right, hy]
      _ = _ := layer_opposite hlength hwidth (anchor + dest) hx hz hfilled hwide

/-- A wall two layers high around four times six cells, and the drag that mirrors it. -/
theorem drag_reversed_hut :
    drag ⟨432, .white, 0, 2, false, false⟩ ⟨4, 0, 6⟩ ⟨0, 0, 0⟩ =
      (drag ⟨432, .white, 0, 2, false, false⟩ ⟨0, 0, 0⟩ ⟨4, 0, 6⟩).map
        (Placement.opposite ⟨4, 0, 6⟩) :=
  drag_reversed ⟨432, .white, 0, 2, false, false⟩ ⟨0, 0, 0⟩ ⟨4, 0, 6⟩ rfl rfl (by decide) (by decide)
    (.inr (.inr (by decide)))

/-- One cell along the short axis is too little: the second layer of this wall is not mirrored. -/
theorem drag_not_mirrored_lane :
    ¬ (drag ⟨432, .white, 0, 2, false, false⟩ ⟨4, 0, 1⟩ ⟨0, 0, 0⟩).Perm
      ((drag ⟨432, .white, 0, 2, false, false⟩ ⟨0, 0, 0⟩ ⟨4, 0, 1⟩).map
        (Placement.opposite ⟨4, 0, 1⟩)) := by
  decide +kernel

end Plan

end Masonry
