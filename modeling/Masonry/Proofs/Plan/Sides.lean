import Mathlib.Data.List.Flatten
import Masonry.Proofs.Plan.Courses

/-!
# Sides that are left out

A side of a border that is not placed is walked all the same, so that the sides after it start where they
would if it were. Leaving out sides therefore takes stones out of a plan and leaves the others as they are
and in their order (`walk_sublist`), for a whole plan as for one walk (`drag_edgeOnly`).
-/

namespace Masonry

variable (b : Brush)

@[simp] theorem Brush.longAxis_edgeOnly (edgeOnly : Bool) :
    ({ b with edgeOnly } : Brush).longAxis = b.longAxis := rfl

namespace Plan

/-- Which sides of a border a brush places makes no difference to a walk of given sides. -/
theorem walk_edgeOnly (edgeOnly : Bool) (start : Cell) (sides : List Side) :
    walk { b with edgeOnly } start sides = walk b start sides := by
  induction sides generalizing start with
  | nil => rfl
  | cons s sides ih =>
    rw [walk, walk]
    exact congrArg _ (ih _)

/-- A walk has stones of the walk in which every side is laid, in the same order. -/
theorem walk_sublist (start : Cell) (sides : List Side) :
    (walk b start sides).Sublist (walk b start (sides.map fun s => { s with laid := true })) := by
  induction sides generalizing start with
  | nil => exact .slnil
  | cons s sides ih =>
    rw [List.map_cons, walk, walk]
    refine .append ?_ (ih _)
    split
    · exact .refl _
    · exact List.nil_sublist _

/-- A straight wall has no sides to leave out. -/
theorem straightLayer_edgeOnly (edgeOnly : Bool) (row : Nat) (start dest : Cell) :
    straightLayer { b with edgeOnly } row start dest = straightLayer b row start dest := by
  unfold straightLayer
  exact congrArg (List.cons _) (walk_edgeOnly b edgeOnly _ _)

theorem evenLayer_sublist (start dest : Cell) :
    (evenLayer { b with edgeOnly := true } start dest).Sublist
      (evenLayer { b with edgeOnly := false } start dest) := by
  have hall : placedSides { b with edgeOnly := false } start dest = (true, true) := rfl
  unfold evenLayer
  rw [hall]
  obtain ⟨near, far⟩ := placedSides { b with edgeOnly := true } start dest
  simp only [walk_edgeOnly]
  refine .append ?_ (walk_sublist b start _)
  cases near with
  | false => exact List.nil_sublist _
  | true => exact .refl _

theorem oddLayer_sublist (start dest : Cell) :
    (oddLayer { b with edgeOnly := true } start dest).Sublist
      (oddLayer { b with edgeOnly := false } start dest) := by
  have hall : placedSides { b with edgeOnly := false } start dest = (true, true) := rfl
  unfold oddLayer
  rw [hall]
  obtain ⟨near, far⟩ := placedSides { b with edgeOnly := true } start dest
  simp only [walk_edgeOnly]
  exact .append (List.nil_sublist _) (walk_sublist b _ _)

theorem layer_sublist (row : Nat) (start dest : Cell) :
    (layer { b with edgeOnly := true } row start dest).Sublist
      (layer { b with edgeOnly := false } row start dest) := by
  simp only [layer, Brush.longAxis_edgeOnly, straightLayer_edgeOnly]
  split
  · exact .refl _
  split
  · exact .refl _
  split
  · exact evenLayer_sublist b start dest
  · exact oddLayer_sublist b start dest

theorem layer_edgeOnly_of_straight (row : Nat) {start dest : Cell}
    (hcross : b.longAxis.other.of dest = b.longAxis.other.of start) :
    layer { b with edgeOnly := true } row start dest =
      layer { b with edgeOnly := false } row start dest := by
  simp only [layer, Brush.longAxis_edgeOnly, straightLayer_edgeOnly, if_pos hcross]
  rfl

variable {b}

/-- The plan that places two sides of a border has stones of the plan that places all sides, in the same
order. Where the drag leads along the long axis of the brush there is no border, and the plans are the
same. -/
theorem drag_edgeOnly (hsolid : Solid b.code) (anchor dest : Cell) :
    (drag { b with edgeOnly := true } anchor dest).Sublist
        (drag { b with edgeOnly := false } anchor dest) ∧
      (b.longAxis.other.of dest = b.longAxis.other.of anchor →
        drag { b with edgeOnly := true } anchor dest =
          drag { b with edgeOnly := false } anchor dest) := by
  have hedge := drag_eq_layers (b := { b with edgeOnly := true }) hsolid anchor dest
  have hall := drag_eq_layers (b := { b with edgeOnly := false }) hsolid anchor dest
  rw [hedge, hall]
  refine ⟨.flatMap_right _ fun row _ => layer_sublist b row _ dest, fun hcross => ?_⟩
  refine List.flatMap_congr fun row _ => layer_edgeOnly_of_straight b row ?_
  rwa [Axis.of_level _ anchor]

/-- Around eight by six cells two sides are placed: the first two, and in the second layer, which is laid
the other way around, the last two. Of a straight wall nothing is left out. -/
theorem drag_edgeOnly_yard :
    let room : Brush := ⟨432, .white, 0, 2, false, false⟩
    let yard : Brush := { room with edgeOnly := true }
    Solid room.code ∧
      (drag yard ⟨0, 0, 0⟩ ⟨8, 0, 6⟩).map Placement.cell =
        [⟨0, 0, 0⟩, ⟨4, 0, 0⟩, ⟨8, 0, 0⟩, ⟨9, 0, 3⟩, ⟨9, 3, 5⟩, ⟨9, 3, 1⟩, ⟨6, 3, 0⟩, ⟨2, 3, 0⟩] ∧
      (drag yard ⟨0, 0, 0⟩ ⟨8, 0, 6⟩).Sublist (drag room ⟨0, 0, 0⟩ ⟨8, 0, 6⟩) ∧
      drag yard ⟨0, 0, 0⟩ ⟨8, 0, 0⟩ = drag room ⟨0, 0, 0⟩ ⟨8, 0, 0⟩ := by
  intro room yard
  have hsolid : Solid 432 := ⟨by decide, by decide, by decide⟩
  exact ⟨hsolid, by decide, (@drag_edgeOnly room hsolid ⟨0, 0, 0⟩ ⟨8, 0, 6⟩).1,
    (@drag_edgeOnly room hsolid ⟨0, 0, 0⟩ ⟨8, 0, 0⟩).2 rfl⟩

end Plan

end Masonry
