import Masonry.Proofs.Plan.Courses

/-!
# Joints of straight walls

In running bond the joints of a course lie off those of the courses above and below it. A straight wall
shifts every second course by two cells, so joints line up where two cells are a whole number of stone
lengths (`joints_align_iff`): with stones two cells long, on drags that are long enough for a joint to
lie between two others.
-/

namespace Masonry

namespace Plan

section Offsets

/-- A stone at some distance from the anchor is followed by another. -/
def Followed (length distance row offset : Nat) : Prop :=
  offset ∈ courseOffsets length distance row ∧ offset + length ∈ courseOffsets length distance row

variable {length distance row : Nat} (hlength : 2 ≤ length)
include hlength

theorem mem_courseOffsets_even (hrow : row % 2 = 0) (offset : Nat) :
    offset ∈ courseOffsets length distance row ↔ length ∣ offset ∧ offset ≤ distance := by
  have hpos : 0 < length := by omega
  rw [courseOffsets, if_pos hrow, List.mem_map]
  constructor
  · rintro ⟨k, hk, rfl⟩
    have hle : k ≤ distance / length := Nat.le_of_lt_succ (List.mem_range.1 hk)
    exact ⟨Nat.dvd_mul_left _ _, (Nat.le_div_iff_mul_le hpos).1 hle⟩
  · rintro ⟨⟨k, rfl⟩, hle⟩
    rw [Nat.mul_comm] at hle
    have hk : k ≤ distance / length := (Nat.le_div_iff_mul_le hpos).2 hle
    exact ⟨k, List.mem_range.2 (Nat.lt_succ_of_le hk), Nat.mul_comm _ _⟩

/-- Stones longer than one cell make an odd course an even one, two cells on. -/
theorem courseOffsets_odd (hrow : row % 2 ≠ 0) : courseOffsets length distance row =
    (courseOffsets length (distance - 2) 0).map fun offset => 2 + offset := by
  rw [courseOffsets, if_neg hrow, courseOffsets, if_pos rfl, List.map_map]
  split
  · rfl
  · rw [if_neg (by omega), Nat.sub_eq_zero_of_le (by omega)]
    simp

theorem followed_even_iff (hrow : row % 2 = 0) (offset : Nat) :
    Followed length distance row offset ↔ length ∣ offset ∧ offset + length ≤ distance := by
  rw [Followed, mem_courseOffsets_even hlength hrow, mem_courseOffsets_even hlength hrow,
    Nat.dvd_add_self_right]
  omega

theorem followed_odd_iff (hrow : row % 2 ≠ 0) (offset : Nat) :
    Followed length distance row offset ↔
      2 ≤ offset ∧ length ∣ offset - 2 ∧ offset + length ≤ distance := by
  have heven : Followed length (distance - 2) 0 (offset - 2) ↔
      length ∣ offset - 2 ∧ offset - 2 + length ≤ distance - 2 := followed_even_iff hlength rfl _
  unfold Followed at heven ⊢
  rw [courseOffsets_odd hlength hrow, List.mem_map, List.mem_map]
  constructor
  · rintro ⟨⟨first, hfirst, rfl⟩, second, hsecond, hnext⟩
    obtain rfl : second = first + length := by omega
    rw [Nat.add_sub_cancel_left] at heven
    obtain ⟨hdvd, hle⟩ := heven.1 ⟨hfirst, hsecond⟩
    rw [Nat.add_sub_cancel_left]
    exact ⟨by omega, hdvd, by omega⟩
  · rintro ⟨htwo, hdvd, hle⟩
    obtain ⟨hfirst, hsecond⟩ := heven.2 ⟨hdvd, by omega⟩
    exact ⟨⟨offset - 2, hfirst, by omega⟩, offset - 2 + length, hsecond, by omega⟩

/-- An even course and an odd one have a joint at one distance if and only if the length of the stones
divides the shift and some way is left after it. -/
theorem followed_both_iff {even odd : Nat} (heven : even % 2 = 0) (hodd : odd % 2 ≠ 0) :
    (∃ offset, Followed length distance even offset ∧ Followed length distance odd offset) ↔
      length = 2 ∧ 4 ≤ distance := by
  simp only [followed_even_iff hlength heven, followed_odd_iff hlength hodd]
  constructor
  · rintro ⟨offset, ⟨hdvd, -⟩, htwo, hdvd', hle⟩
    have hshift : length ∣ 2 := by
      have hsub := Nat.dvd_sub hdvd hdvd'
      rwa [Nat.sub_sub_self htwo] at hsub
    have hle' := Nat.le_of_dvd (by decide) hshift
    omega
  · rintro ⟨rfl, hfour⟩
    exact ⟨2, ⟨Nat.dvd_refl 2, hfour⟩, Nat.le_refl 2, Nat.dvd_zero 2, hfour⟩

theorem followed_next_iff (distance row : Nat) :
    (∃ offset, Followed length distance row offset ∧ Followed length distance (row + 1) offset) ↔
      length = 2 ∧ 4 ≤ distance := by
  by_cases heven : row % 2 = 0
  · exact followed_both_iff hlength heven (by omega)
  · exact (exists_congr fun _ => and_comm).trans (followed_both_iff hlength (by omega) heven)

end Offsets

/-- Two stones of the list meet on a level: one of them ends at the coordinate along the axis, and the
other starts there. -/
def Joint (ps : List Placement) (a : Axis) (length level c : Int) : Prop :=
  (∃ p ∈ ps, p.cell.y = level ∧ a.of p.cell = c - length) ∧
    ∃ p ∈ ps, p.cell.y = level ∧ a.of p.cell = c

instance (ps : List Placement) (a : Axis) (length level c : Int) :
    Decidable (Joint ps a length level c) :=
  inferInstanceAs (Decidable (_ ∧ _))

section Wall

variable {b : Brush} {anchor dest : Cell} (hwall : b.filled = false) (hsolid : Solid b.code)
  (hcross : b.longAxis.other.of dest = b.longAxis.other.of anchor)
  (hlong : b.longAxis.of dest ≠ b.longAxis.of anchor)
include hwall hsolid hcross hlong

/-- The stones on a level of a straight wall are those of one course. -/
theorem exists_mem_drag_iff {row : Nat} (hrow : row < b.layers) (value : Int) :
    (∃ p ∈ drag b anchor dest, p.cell.y = anchor.y + row * (footprint b.code).y ∧
        b.longAxis.of p.cell = value) ↔
      ∃ offset ∈ courseOffsets (footprint b.code).x.toNat
          (b.longAxis.of dest - b.longAxis.of anchor).natAbs row,
        value = toward (b.longAxis.of anchor) (b.longAxis.of dest) (offset : Nat) := by
  rw [drag_eq_courses hwall hsolid hcross hlong]
  constructor
  · rintro ⟨p, hp, hlevel, rfl⟩
    obtain ⟨other, -, hp⟩ := List.mem_flatMap.1 hp
    obtain ⟨offset, hoffset, rfl⟩ := List.mem_map.1 hp
    rw [Axis.y_put] at hlevel
    have hheights := Int.eq_of_mul_eq_mul_right (Int.ne_of_gt hsolid.height)
      (Int.add_left_cancel hlevel)
    obtain rfl : other = row := Int.ofNat_inj.1 hheights
    exact ⟨offset, hoffset, Axis.of_put _ _ _⟩
  · rintro ⟨offset, hoffset, rfl⟩
    exact ⟨_, List.mem_flatMap.2 ⟨row, List.mem_range.2 hrow, List.mem_map.2 ⟨offset, hoffset, rfl⟩⟩,
      Axis.y_put _ _ _, Axis.of_put _ _ _⟩

/-- Where two stones meet, one of them follows the other on the way from the anchor: the joint lies at
the far end of the nearer stone if the wall leads upward along the axis, and else at its start. -/
theorem joint_iff {row : Nat} (hrow : row < b.layers) (c : Int) :
    Joint (drag b anchor dest) b.longAxis (footprint b.code).x
        (anchor.y + row * (footprint b.code).y) c ↔
      ∃ offset, Followed (footprint b.code).x.toNat
          (b.longAxis.of dest - b.longAxis.of anchor).natAbs row offset ∧
        c = toward (b.longAxis.of anchor) (b.longAxis.of dest) (offset : Nat) +
          if b.longAxis.of anchor < b.longAxis.of dest then (footprint b.code).x else 0 := by
  have hlength := hsolid.length
  rw [Joint, exists_mem_drag_iff hwall hsolid hcross hlong hrow,
    exists_mem_drag_iff hwall hsolid hcross hlong hrow]
  rcases Int.lt_or_gt_of_ne hlong with h | h
  · simp only [toward_of_gt h, if_neg (Int.lt_asymm h)]
    constructor
    · rintro ⟨⟨far, hfar, hc⟩, near, hnear, rfl⟩
      obtain rfl : far = near + (footprint b.code).x.toNat := by omega
      exact ⟨near, ⟨hnear, hfar⟩, by omega⟩
    · rintro ⟨near, ⟨hnear, hfar⟩, rfl⟩
      exact ⟨⟨_, hfar, by omega⟩, near, hnear, by omega⟩
  · simp only [toward_of_lt h, if_pos h]
    constructor
    · rintro ⟨⟨near, hnear, hc⟩, far, hfar, rfl⟩
      obtain rfl : far = near + (footprint b.code).x.toNat := by omega
      exact ⟨near, ⟨hnear, hfar⟩, by omega⟩
    · rintro ⟨near, ⟨hnear, hfar⟩, rfl⟩
      exact ⟨⟨near, hnear, by omega⟩, _, hfar, by omega⟩

/-- A course of a straight wall and the one above it have a joint in one place if and only if the stones
are two cells long and the drag leads four cells or more. -/
theorem joints_align_iff (hlength : 2 ≤ (footprint b.code).x) {row : Nat}
    (hrow : row + 1 < b.layers) :
    (∃ c, Joint (drag b anchor dest) b.longAxis (footprint b.code).x
          (anchor.y + row * (footprint b.code).y) c ∧
        Joint (drag b anchor dest) b.longAxis (footprint b.code).x
          (anchor.y + (row + 1 : Nat) * (footprint b.code).y) c) ↔
      (footprint b.code).x = 2 ∧ 4 ≤ (b.longAxis.of dest - b.longAxis.of anchor).natAbs := by
  have hlower := joint_iff hwall hsolid hcross hlong (Nat.lt_of_succ_lt hrow)
  have hupper := joint_iff hwall hsolid hcross hlong hrow
  have hcells : 2 ≤ (footprint b.code).x.toNat := by omega
  have hoffsets := followed_next_iff hcells (b.longAxis.of dest - b.longAxis.of anchor).natAbs row
  have htwo : (footprint b.code).x.toNat = 2 ↔ (footprint b.code).x = 2 := by omega
  rw [← htwo, ← hoffsets]
  constructor
  · rintro ⟨c, hc, hc'⟩
    obtain ⟨offset, hfollowed, rfl⟩ := (hlower c).1 hc
    obtain ⟨offset', hfollowed', hplace⟩ := (hupper _).1 hc'
    -- Along the way of the drag, different distances lead to different places.
    obtain rfl : offset = offset' := by
      rcases Int.lt_or_gt_of_ne hlong with h | h
      · rw [toward_of_gt h, toward_of_gt h] at hplace
        omega
      · rw [toward_of_lt h, toward_of_lt h] at hplace
        omega
    exact ⟨offset, hfollowed, hfollowed'⟩
  · rintro ⟨offset, hfollowed, hfollowed'⟩
    exact ⟨_, (hlower _).2 ⟨offset, hfollowed, rfl⟩, (hupper _).2 ⟨offset, hfollowed', rfl⟩⟩

end Wall

/-- Stones three cells long: no joint of the second course lies over one of the first. -/
theorem joints_apart_bricks :
    let wall : Brush := ⟨331, .white, 0, 2, false, true⟩
    wall.filled = false ∧ Solid wall.code ∧
      wall.longAxis.other.of ⟨-10, 0, 0⟩ = wall.longAxis.other.of ⟨0, 0, 0⟩ ∧
      wall.longAxis.of ⟨-10, 0, 0⟩ ≠ wall.longAxis.of ⟨0, 0, 0⟩ ∧
      2 ≤ (footprint wall.code).x ∧ 0 + 1 < wall.layers ∧
      ¬ ∃ c, Joint (drag wall ⟨0, 0, 0⟩ ⟨-10, 0, 0⟩) .x 3 0 c ∧
        Joint (drag wall ⟨0, 0, 0⟩ ⟨-10, 0, 0⟩) .x 3 3 c := by
  intro wall
  have hsolid : Solid 331 := ⟨by decide, by decide, by decide⟩
  have halign := @joints_align_iff wall ⟨0, 0, 0⟩ ⟨-10, 0, 0⟩ rfl hsolid rfl (by decide) (by decide) 0
    (by decide)
  have hsize : footprint wall.code = ⟨3, 3, 1⟩ := by decide
  rw [hsize] at halign
  exact ⟨rfl, hsolid, rfl, by decide, by decide, by decide, fun h => absurd (halign.1 h).1 (by decide)⟩

/-- Stones two cells long over four cells: both courses have a joint at the fourth cell. -/
theorem joints_align_pairs :
    let wall : Brush := ⟨211, .white, 0, 2, false, false⟩
    Solid wall.code ∧ 2 ≤ (footprint wall.code).x ∧
      ¬ ∀ c, Joint (drag wall ⟨0, 0, 0⟩ ⟨4, 0, 0⟩) wall.longAxis (footprint wall.code).x 0 c →
        ¬ Joint (drag wall ⟨0, 0, 0⟩ ⟨4, 0, 0⟩) wall.longAxis (footprint wall.code).x 1 c := by
  intro wall
  refine ⟨⟨by decide, by decide, by decide⟩, by decide, fun hapart => ?_⟩
  exact hapart 4 (by decide) (by decide)

end Plan

end Masonry
