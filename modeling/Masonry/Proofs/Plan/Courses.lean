import Mathlib.Data.Int.Order.Basic
import Mathlib.Tactic.Ring
import Masonry.Proofs.Plan.Mirror
import Masonry.Proofs.Plan.Spacing

/-!
# Where the stones of slabs and straight walls lie

Stones that cover a way lie at the multiples of their length from where it starts, in the direction in
which it leads, as many as fit (`covering_toward`). A slab covers a way along either axis, and so is an
array of stones. A straight wall covers the way of the drag, from the anchor in its even courses and
from two cells further on in its odd ones. Only over a single cell does an odd course start beyond the
end of the drag; the way then leads back, with room for one more stone if stones are one cell long.
-/

namespace Masonry

/-- Stones of the type code take up room along every axis. -/
structure Solid (code : Int32) : Prop where
  length : 0 < (footprint code).x
  height : 0 < (footprint code).y
  width : 0 < (footprint code).z

theorem foldTurns_natCast (turns : Nat) : foldTurns turns = turns % 4 := by
  unfold foldTurns
  omega

/-- The coordinate some way from one coordinate toward another. -/
def toward (start dest offset : Int) : Int := start + (dest - start).sign * offset

theorem toward_of_lt {start dest : Int} (h : start < dest) (offset : Int) :
    toward start dest offset = start + offset := by
  rw [toward, Int.sign_eq_one_of_pos (by omega), Int.one_mul]

theorem toward_of_gt {start dest : Int} (h : dest < start) (offset : Int) :
    toward start dest offset = start - offset := by
  rw [toward, Int.sign_eq_neg_one_of_neg (by omega)]
  omega

section Covering

theorem exists_distance (start dest : Int) : ∃ (sign : Int) (distance : Nat),
    (sign = 1 ∨ sign = -1) ∧ dest = start + sign * distance := by
  rcases Int.le_total start dest with h | h
  · exact ⟨1, (dest - start).natAbs, .inl rfl, by omega⟩
  · exact ⟨-1, (dest - start).natAbs, .inr rfl, by omega⟩

variable {sign : Int} (hsign : sign = 1 ∨ sign = -1) {distance : Nat} (start : Int)
include hsign

theorem natAbs_distance : (start + sign * distance - start).natAbs = distance := by
  rcases hsign with rfl | rfl <;> omega

theorem toward_eq (hdistance : 0 < distance) (offset : Int) :
    toward start (start + sign * distance) offset = start + sign * offset := by
  rcases hsign with rfl | rfl
  · rw [toward_of_lt (by omega), Int.one_mul]
  · rw [toward_of_gt (by omega)]
    omega

/-- A way is covered by the multiples of the step that fit into its length. -/
theorem covering_toward {step : Int} (hstep : 0 < step) :
    Plan.covering start (start + sign * distance) step =
      (List.range (distance / step.toNat + 1)).map fun (k : Nat) => start + sign * (k * step) := by
  obtain ⟨length, rfl⟩ := Int.eq_ofNat_of_zero_le (Int.le_of_lt hstep)
  have hsteps : wholeSteps start (start + sign * distance) length = distance / length := by
    have hgap : (start - (start + sign * distance)).natAbs = distance := by
      rcases hsign with rfl | rfl <;> omega
    rw [wholeSteps, hgap]
    rfl
  rw [covering_eq _ _ hstep, hsteps]
  refine List.map_congr_left fun k hk => ?_
  rcases Nat.eq_zero_or_pos distance with rfl | hdistance
  · -- Nowhere to go: the only stone lies at the start, whatever the direction.
    obtain rfl : k = 0 := by simpa using hk
    simp
  · have hheading : heading start (start + sign * distance) = sign := by
      unfold heading
      rcases hsign with rfl | rfl <;> split <;> omega
    rw [hheading]

omit hsign in
theorem covering_eq_toward (dest : Int) {step : Int} (hstep : 0 < step) :
    Plan.covering start dest step = (List.range ((dest - start).natAbs / step.toNat + 1)).map
      fun (k : Nat) => toward start dest (k * step) := by
  obtain ⟨sign, distance, hsign, rfl⟩ := exists_distance start dest
  rw [covering_toward hsign start hstep, natAbs_distance hsign]
  refine List.map_congr_left fun k hk => ?_
  rcases Nat.eq_zero_or_pos distance with rfl | hdistance
  · obtain rfl : k = 0 := by simpa using hk
    simp [toward]
  · rw [toward_eq hsign start hdistance]

end Covering

namespace Brush

variable (b : Brush)

theorem stone_false (cell : Cell) : b.stone false cell = ⟨b.code, b.color, b.turns % 4, cell⟩ := by
  simp [stone, Placement.folded, foldTurns_natCast]

variable {b}

theorem size_pos (h : Solid b.code) : 0 < b.size.x ∧ 0 < b.size.y ∧ 0 < b.size.z := by
  obtain ⟨hlength, hheight, hwidth⟩ := h
  unfold size
  split
  · exact ⟨hwidth, hheight, hlength⟩
  · exact ⟨hlength, hheight, hwidth⟩

theorem extent_pos (h : Solid b.code) : 0 < b.extent.x ∧ 0 < b.extent.y ∧ 0 < b.extent.z := by
  obtain ⟨hlength, hheight, hwidth⟩ := h
  rw [extent_eq]
  split
  · exact ⟨hwidth, hheight, hlength⟩
  · exact ⟨hlength, hheight, hwidth⟩

end Brush

namespace Plan

variable {b : Brush}

/-- The plan of a drag, layer by layer. -/
theorem drag_eq_layers (hsolid : Solid b.code) (anchor dest : Cell) :
    drag b anchor dest = (List.range b.layers).flatMap fun (row : Nat) =>
      layer b row { anchor with y := anchor.y + row * b.size.y } dest := by
  have hsize := b.size_pos hsolid
  rw [drag, if_neg (by omega), layers, List.flatMap_map]

/-- Slabs and straight walls have no two stones in one cell. -/
theorem nodup_cells_drag (hsolid : Solid b.code) {anchor dest : Cell}
    (hplan : b.filled = true ∨ b.longAxis.other.of dest = b.longAxis.other.of anchor) :
    ((drag b anchor dest).map Placement.cell).Nodup := by
  have hextent := b.extent_pos hsolid
  refine List.pairwise_map.2 ((spaced_drag hplan).apart.imp fun {p q} hapart hsame => ?_)
  rw [hsame] at hapart
  unfold Apart Clear at hapart
  omega

section Slab

/-- A layer of a slab is an array of stones. -/
theorem slabLayer_eq (hx : 0 < b.size.x) (hz : 0 < b.size.z) (start dest : Cell) :
    slabLayer b start dest =
      (List.range ((dest.x - start.x).natAbs / b.size.x.toNat + 1)).flatMap fun (i : Nat) =>
        (List.range ((dest.z - start.z).natAbs / b.size.z.toNat + 1)).map fun (j : Nat) =>
          b.stone false ⟨toward start.x dest.x (i * b.size.x), start.y,
            toward start.z dest.z (j * b.size.z)⟩ := by
  rw [slabLayer, covering_eq_toward _ _ hx, covering_eq_toward _ _ hz, List.flatMap_map]
  simp only [List.map_map]
  rfl

variable (hfilled : b.filled = true) (hsolid : Solid b.code)
include hfilled hsolid

/-- How high the drag leads makes no difference to a slab. -/
theorem drag_level (anchor dest : Cell) (y : Int) :
    drag b anchor { dest with y } = drag b anchor dest := by
  rw [drag_eq_layers hsolid, drag_eq_layers hsolid]
  refine List.flatMap_congr fun row _ => ?_
  rw [layer, if_pos hfilled, layer, if_pos hfilled]
  rfl

/-- A slab is laid layer by layer, and in a layer column by column from the anchor, as many stones
along either axis as fit into the drag. No two of them share a cell, and the level to which the drag
leads makes no difference. -/
theorem drag_slab (anchor dest : Cell) :
    (drag b anchor dest =
      (List.range b.layers).flatMap fun (r : Nat) =>
        (List.range ((dest.x - anchor.x).natAbs / b.extent.x.toNat + 1)).flatMap fun (i : Nat) =>
          (List.range ((dest.z - anchor.z).natAbs / b.extent.z.toNat + 1)).map fun (j : Nat) =>
            ⟨b.code, b.color, b.turns % 4,
              ⟨anchor.x + (dest.x - anchor.x).sign * (i * b.extent.x), anchor.y + r * b.extent.y,
                anchor.z + (dest.z - anchor.z).sign * (j * b.extent.z)⟩⟩) ∧
      ((drag b anchor dest).map Placement.cell).Nodup ∧
      ∀ y, drag b anchor { dest with y } = drag b anchor dest := by
  refine ⟨?_, nodup_cells_drag hsolid (.inl hfilled), drag_level hfilled hsolid anchor dest⟩
  obtain ⟨hx, -, hz⟩ := b.size_pos hsolid
  rw [drag_eq_layers hsolid, b.extent_of_filled hfilled]
  refine List.flatMap_congr fun r _ => ?_
  rw [layer, if_pos hfilled, slabLayer_eq hx hz]
  simp only [b.stone_false, toward]

end Slab

/-- Two layers of stones that lie across, away from the anchor along `x` and back along `z`. -/
theorem drag_slab_across :
    let slab : Brush := ⟨432, .white, 1, 2, true, false⟩
    slab.filled = true ∧ Solid slab.code ∧
      drag slab ⟨0, 0, 0⟩ ⟨3, 7, -4⟩ =
        [⟨432, .white, 1, ⟨0, 0, 0⟩⟩, ⟨432, .white, 1, ⟨0, 0, -4⟩⟩, ⟨432, .white, 1, ⟨2, 0, 0⟩⟩,
          ⟨432, .white, 1, ⟨2, 0, -4⟩⟩, ⟨432, .white, 1, ⟨0, 3, 0⟩⟩, ⟨432, .white, 1, ⟨0, 3, -4⟩⟩,
          ⟨432, .white, 1, ⟨2, 3, 0⟩⟩, ⟨432, .white, 1, ⟨2, 3, -4⟩⟩] :=
  have hsolid : Solid 432 := ⟨by decide, by decide, by decide⟩
  ⟨rfl, hsolid, (@drag_slab ⟨432, .white, 1, 2, true, false⟩ rfl hsolid ⟨0, 0, 0⟩ ⟨3, 7, -4⟩).1.trans
    (by decide)⟩

section Wall

/-- How far from the anchor the stones of a course of a straight wall start, over a distance: every
stone's length, in odd courses from two cells on. Over a single cell an odd course leads back from
there. -/
def courseOffsets (length distance row : Nat) : List Nat :=
  if row % 2 = 0 then (List.range (distance / length + 1)).map fun k => k * length
  else if 2 ≤ distance then (List.range ((distance - 2) / length + 1)).map fun k => 2 + k * length
  else if length = 1 then [2, 1] else [2]

/-- A course of a straight wall: stones in line with the anchor, lying as the brush does. -/
def course (b : Brush) (anchor dest : Cell) (row : Nat) : List Placement :=
  (courseOffsets (footprint b.code).x.toNat (b.longAxis.of dest - b.longAxis.of anchor).natAbs row).map
    fun (offset : Nat) => ⟨b.code, b.color, b.turns % 4,
      b.longAxis.put { anchor with y := anchor.y + row * (footprint b.code).y }
        (toward (b.longAxis.of anchor) (b.longAxis.of dest) offset)⟩

theorem covering_course {start dest : Int} (hne : dest ≠ start) (length : Nat) (hlength : 0 < length)
    (row : Nat) :
    covering (if row % 2 = 0 then start else toward start dest 2) dest length =
      (courseOffsets length (dest - start).natAbs row).map fun (offset : Nat) =>
        toward start dest offset := by
  have hstep : 0 < (length : Int) := by omega
  obtain ⟨sign, distance, hsign, rfl⟩ := exists_distance start dest
  have hdistance : 0 < distance := Nat.pos_of_ne_zero fun hzero => hne (by simp [hzero])
  simp only [natAbs_distance hsign, toward_eq hsign start hdistance]
  unfold courseOffsets
  split
  · rw [covering_toward hsign start hstep, List.map_map]
    refine List.map_congr_left fun k _ => ?_
    simp
  split
  · -- What is left of the way after the first two cells leads on in the same direction.
    have hrest : start + sign * distance = start + sign * 2 + sign * (distance - 2 : Nat) := by
      rcases hsign with rfl | rfl <;> omega
    rw [hrest, covering_toward hsign _ hstep, List.map_map]
    refine List.map_congr_left fun k _ => ?_
    simp only [Function.comp_apply, Nat.cast_add, Nat.cast_mul, Nat.cast_ofNat]
    ring
  · -- Two cells are one too many, so the way leads back.
    obtain rfl : distance = 1 := by omega
    have hback : -sign = 1 ∨ -sign = -1 := by omega
    have hrest : start + sign * (1 : Nat) = start + sign * 2 + -sign * (1 : Nat) := by
      rcases hsign with rfl | rfl <;> omega
    rw [hrest, covering_toward hback _ hstep, Int.toNat_natCast]
    split
    · next hone =>
      subst hone
      simp [List.range_succ]
      ring
    · rw [Nat.div_eq_of_lt (by omega)]
      simp

variable {anchor dest : Cell}

/-- The first stone of a course lies at the anchor or two cells on, the way the drag leads. -/
theorem of_straightStart (row : Nat) (hlong : b.longAxis.of dest ≠ b.longAxis.of anchor) :
    b.longAxis.of (straightStart b row anchor dest) =
      if row % 2 = 0 then b.longAxis.of anchor
      else toward (b.longAxis.of anchor) (b.longAxis.of dest) 2 := by
  unfold straightStart
  split
  · rfl
  · rw [Axis.of_move]
    rcases Int.lt_or_gt_of_ne hlong with h | h
    · rw [if_neg (by omega), toward_of_gt h]
      rfl
    · rw [if_pos (by omega), toward_of_lt h]

theorem put_straightStart (row : Nat) (value : Int) :
    b.longAxis.put (straightStart b row anchor dest) value = b.longAxis.put anchor value := by
  unfold straightStart
  split
  · rfl
  · rw [Axis.put_move]

theorem straightLayer_eq_course (hwall : b.filled = false) (hlength : 0 < (footprint b.code).x)
    (hlong : b.longAxis.of dest ≠ b.longAxis.of anchor) (row : Nat) :
    straightLayer b row { anchor with y := anchor.y + row * b.size.y } dest =
      course b anchor dest row := by
  have hcover := covering_course hlong (footprint b.code).x.toNat (by omega) row
  rw [Int.toNat_of_nonneg (Int.le_of_lt hlength)] at hcover
  rw [straightLayer_eq, of_straightStart row (by rwa [Axis.of_level _ anchor]),
    Axis.of_level _ anchor, b.size_of_not_filled hwall, hcover, List.map_map, course]
  refine List.map_congr_left fun offset _ => ?_
  rw [Function.comp_apply, put_straightStart, b.stone_false]

/-- Turned around, a drag lays the same course across the middle. -/
theorem course_reversed (hy : dest.y = anchor.y) (row : Nat) :
    course b dest anchor row =
      (course b anchor dest row).map (Placement.opposite (anchor + dest)) := by
  have hgap : b.longAxis.of anchor - b.longAxis.of dest =
      -(b.longAxis.of dest - b.longAxis.of anchor) := by omega
  have htoward (offset : Int) : toward (b.longAxis.of dest) (b.longAxis.of anchor) offset =
      b.longAxis.of (anchor + dest) -
        toward (b.longAxis.of anchor) (b.longAxis.of dest) offset := by
    have hsum : b.longAxis.of (anchor + dest) = b.longAxis.of anchor + b.longAxis.of dest := by
      cases b.longAxis <;> rfl
    rw [toward, toward, hsum, hgap, Int.sign_neg]
    ring
  unfold course
  rw [List.map_map, hgap, Int.natAbs_neg]
  refine List.map_congr_left fun offset _ => ?_
  rw [Function.comp_apply, Placement.opposite, ← Axis.put_opposite, opposite_add_left, htoward, hy]

variable (hwall : b.filled = false) (hsolid : Solid b.code)
  (hcross : b.longAxis.other.of dest = b.longAxis.other.of anchor)
  (hlong : b.longAxis.of dest ≠ b.longAxis.of anchor)
include hwall hsolid hcross hlong

theorem drag_eq_courses :
    drag b anchor dest = (List.range b.layers).flatMap (course b anchor dest) := by
  rw [drag_eq_layers hsolid]
  refine List.flatMap_congr fun row _ => ?_
  rw [layer, hwall, if_neg Bool.false_ne_true, if_pos (by rw [Axis.of_level _ anchor, hcross])]
  exact straightLayer_eq_course hwall hsolid.length hlong row

/-- A drag along the long axis of the brush lays courses one above the other, whichever sides of a
border are placed; turned around on its level, it lays them across the middle. -/
theorem drag_straight :
    drag b anchor dest = (List.range b.layers).flatMap (course b anchor dest) ∧
      (dest.y = anchor.y → drag b dest anchor = (List.range b.layers).flatMap fun row =>
        (course b anchor dest row).map (Placement.opposite (anchor + dest))) := by
  refine ⟨drag_eq_courses hwall hsolid hcross hlong, fun hy => ?_⟩
  rw [drag_eq_courses hwall hsolid hcross.symm hlong.symm]
  exact List.flatMap_congr fun row _ => course_reversed hy row

end Wall

/-- Two courses of three-cell stones over ten cells, laid forward and back. -/
theorem drag_straight_ten :
    let wall : Brush := ⟨331, .white, 0, 2, false, true⟩
    wall.filled = false ∧ Solid wall.code ∧
      wall.longAxis.other.of ⟨10, 0, 0⟩ = wall.longAxis.other.of ⟨0, 0, 0⟩ ∧
      wall.longAxis.of ⟨10, 0, 0⟩ ≠ wall.longAxis.of ⟨0, 0, 0⟩ ∧
      (drag wall ⟨0, 0, 0⟩ ⟨10, 0, 0⟩).map Placement.cell =
        [⟨0, 0, 0⟩, ⟨3, 0, 0⟩, ⟨6, 0, 0⟩, ⟨9, 0, 0⟩, ⟨2, 3, 0⟩, ⟨5, 3, 0⟩, ⟨8, 3, 0⟩] ∧
      (drag wall ⟨10, 0, 0⟩ ⟨0, 0, 0⟩).map Placement.cell =
        [⟨10, 0, 0⟩, ⟨7, 0, 0⟩, ⟨4, 0, 0⟩, ⟨1, 0, 0⟩, ⟨8, 3, 0⟩, ⟨5, 3, 0⟩, ⟨2, 3, 0⟩] := by
  intro wall
  have hsolid : Solid 331 := ⟨by decide, by decide, by decide⟩
  have hplans := @drag_straight wall ⟨0, 0, 0⟩ ⟨10, 0, 0⟩ rfl hsolid rfl (by decide)
  refine ⟨rfl, hsolid, rfl, by decide, ?_, ?_⟩
  · rw [hplans.1]
    decide
  · rw [hplans.2 rfl]
    decide

end Plan

end Masonry
