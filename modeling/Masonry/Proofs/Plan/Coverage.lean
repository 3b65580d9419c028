import Mathlib.Data.List.Count
import Masonry.Proofs.Plan.Layers

/-!
# What a slab covers

A stone extends from its cell toward higher coordinates, whichever way the drag leads. Drawn toward higher
coordinates a slab therefore covers the rectangle of the drag and a little more where its stones do not fit
into it. Drawn toward lower ones it ends with the cell of the last stone that fits: what is left beyond it
is not covered (`Reached`). No cell is covered twice. So a slab covers its rectangle if and only if the
drag leads up, or down by a whole number of stones, along either axis (`slab_covers_iff`).
-/

namespace Masonry

/-- The coordinate lies on the way between two others, both included. -/
def Between (start dest v : Int) : Prop := min start dest ≤ v ∧ v ≤ max start dest

/-- A stretch of some length that starts at a coordinate holds another one. -/
def Spans (length start v : Int) : Prop := start ≤ v ∧ v < start + length

/-- A way that is covered in steps is covered as far as the coordinate: it leads up, or the last step
downward is not below the coordinate's. -/
def Reached (start dest step v : Int) : Prop :=
  start ≤ dest ∨ start - (start - dest) / step * step ≤ v

/-- A stone of the given extent covers a column of the grid. -/
def Placement.Covers (size : Cell) (p : Placement) (x z : Int) : Prop :=
  Spans size.x p.cell.x x ∧ Spans size.z p.cell.z z

instance (start dest v : Int) : Decidable (Between start dest v) :=
  inferInstanceAs (Decidable (_ ∧ _))

instance (length start v : Int) : Decidable (Spans length start v) :=
  inferInstanceAs (Decidable (_ ∧ _))

instance (start dest step v : Int) : Decidable (Reached start dest step v) :=
  inferInstanceAs (Decidable (_ ∨ _))

instance (size : Cell) (p : Placement) (x z : Int) : Decidable (p.Covers size x z) :=
  inferInstanceAs (Decidable (_ ∧ _))

section Way

variable {start dest step v : Int} (hstep : 0 < step)
include hstep

/-- The stones that cover a way lie at the multiples of the step that fit into it. -/
theorem mem_covering_iff {sign : Int} (hsign : sign = 1 ∨ sign = -1) {distance : Nat} {c : Int} :
    c ∈ Plan.covering start (start + sign * distance) step ↔
      ∃ k : Nat, k * step ≤ distance ∧ c = start + sign * (k * step) := by
  obtain ⟨length, rfl⟩ := Int.eq_ofNat_of_zero_le (Int.le_of_lt hstep)
  have hlength : 0 < length := by omega
  have hfits (k : Nat) : (k : Int) * length ≤ distance ↔ k ∈ List.range (distance / length + 1) := by
    rw [List.mem_range, Nat.lt_succ_iff, Nat.le_div_iff_mul_le hlength]
    exact_mod_cast Iff.rfl
  rw [covering_toward hsign start hstep, List.mem_map]
  refine exists_congr fun k => ?_
  rw [hfits k]
  exact and_congr_right fun _ => eq_comm

/-- Of all multiples of a step only one is at the start of the step that holds a coordinate. -/
theorem spans_iff (e : Int) : Spans step (start + e * step) v ↔ e = (v - start) / step := by
  rw [eq_comm, Int.ediv_eq_iff_of_pos hstep, Spans]
  omega

/-- Upward all of a way is covered. -/
theorem exists_covering_up {distance : Nat} (hv : start ≤ v) (hend : v ≤ start + distance) :
    ∃ c ∈ Plan.covering start (start + 1 * distance) step, Spans step c v := by
  obtain ⟨k, hk⟩ : ∃ k : Nat, (v - start) / step = k :=
    Int.eq_ofNat_of_zero_le (Int.ediv_nonneg (by omega) (Int.le_of_lt hstep))
  have hfits : k * step ≤ v - start := hk ▸ Int.ediv_mul_le (v - start) (Int.ne_of_gt hstep)
  have hspans : Spans step (start + k * step) v := (spans_iff hstep k).2 hk.symm
  refine ⟨_, (mem_covering_iff hstep (.inl rfl)).2 ⟨k, by omega, rfl⟩, ?_⟩
  rwa [Int.one_mul]

/-- Downward a way is covered as far as the last stone that fits into it. -/
theorem exists_covering_down_iff {distance : Nat} (hv : v ≤ start) :
    (∃ c ∈ Plan.covering start (start + -1 * distance) step, Spans step c v) ↔
      start - distance / step * step ≤ v := by
  have hcell (k : Nat) : start + -1 * (k * step) = start + -k * step := by
    rw [Int.neg_one_mul, Int.neg_mul]
  constructor
  · rintro ⟨c, hc, hspans⟩
    obtain ⟨k, hk, rfl⟩ := (mem_covering_iff hstep (.inr rfl)).1 hc
    have hle : k * step ≤ distance / step * step := Int.mul_le_mul_of_nonneg_right
      ((Int.le_ediv_iff_mul_le hstep).2 hk) (Int.le_of_lt hstep)
    have hstart := hspans.1
    omega
  · intro hlast
    have hdown : (v - start) / step ≤ 0 := Int.ediv_nonpos_of_nonpos_of_neg (by omega) hstep
    obtain ⟨k, hk⟩ := Int.exists_eq_neg_ofNat hdown
    -- The stone that holds the coordinate is not beyond the last one.
    have hfits : k ≤ (distance : Int) / step := by
      have hquot : -((distance : Int) / step) ≤ (v - start) / step := by
        rw [Int.le_ediv_iff_mul_le hstep, Int.neg_mul]
        omega
      omega
    have hspans : Spans step (start + -k * step) v := (spans_iff hstep (-k)).2 hk.symm
    refine ⟨_, (mem_covering_iff hstep (.inr rfl)).2 ⟨k, ?_, rfl⟩, ?_⟩
    · exact (Int.le_ediv_iff_mul_le hstep).1 hfits
    · rwa [hcell]

/-- Between the ends of a way the stones that cover it in steps reach as far as they do. -/
theorem exists_covering_iff (hv : Between start dest v) :
    (∃ c ∈ Plan.covering start dest step, Spans step c v) ↔ Reached start dest step v := by
  obtain ⟨hlower, hupper⟩ := hv
  rcases Int.le_total start dest with hup | hdown
  · obtain ⟨distance, hdistance⟩ := Int.eq_ofNat_of_zero_le (Int.sub_nonneg_of_le hup)
    obtain rfl : dest = start + 1 * distance := by omega
    exact iff_of_true (exists_covering_up hstep (by omega) (by omega)) (.inl hup)
  · obtain ⟨distance, hdistance⟩ := Int.eq_ofNat_of_zero_le (Int.sub_nonneg_of_le hdown)
    obtain rfl : dest = start + -1 * distance := by omega
    rw [exists_covering_down_iff hstep (by omega), Reached, hdistance]
    refine ⟨.inr, fun h => h.elim (fun hstart => ?_) id⟩
    obtain rfl : distance = 0 := by omega
    simp
    omega

/-- All of a way is covered if and only if it leads up, or down by a whole number of steps. -/
theorem forall_reached_iff :
    (∀ v, Between start dest v → Reached start dest step v) ↔ start ≤ dest ∨ step ∣ start - dest := by
  constructor
  · intro h
    refine (h dest ?_).imp_right fun hlast => ?_
    · unfold Between
      omega
    · have hle := Int.ediv_mul_le (start - dest) (Int.ne_of_gt hstep)
      exact ⟨(start - dest) / step, by rw [Int.mul_comm]; omega⟩
  · rintro h v ⟨hlower, -⟩
    rcases Int.le_total start dest with hup | hdown
    · exact .inl hup
    · refine h.imp_right fun hdvd => ?_
      rw [Int.ediv_mul_cancel hdvd]
      omega

end Way

/-- At most one element of a list passes a test that no two of them pass. -/
theorem countP_le_one {β : Type} {test : β → Bool} {l : List β}
    (h : l.Pairwise fun a b => ¬(test a = true ∧ test b = true)) : l.countP test ≤ 1 := by
  induction l with
  | nil => simp
  | cons a l ih =>
    obtain ⟨hfirst, hrest⟩ := List.pairwise_cons.1 h
    rw [List.countP_cons]
    split
    · next ha =>
      have hnone : l.countP test = 0 := List.countP_eq_zero.2 fun b hb hp => hfirst b hb ⟨ha, hp⟩
      omega
    · exact ih hrest

namespace Plan

/-- How many stones of a row of the plan cover a column of the grid. -/
def stonesOver (b : Brush) (anchor dest : Cell) (row : Nat) (x z : Int) : Nat :=
  (onLevel (anchor.y + row * b.extent.y) (drag b anchor dest)).countP fun p => p.Covers b.extent x z

section Slab

variable {b : Brush} (hfilled : b.filled = true) (hsolid : Solid b.code) {anchor dest : Cell}
include hfilled hsolid

/-- No two stones of a row cover the same column. -/
theorem stonesOver_le_one (row : Nat) (x z : Int) : stonesOver b anchor dest row x z ≤ 1 := by
  have hheight : 0 < b.extent.y := (b.extent_pos hsolid).2.1
  have hspaced : (drag b anchor dest).Pairwise fun p q => Apart b.extent p.cell q.cell :=
    (spaced_drag (.inl hfilled)).apart
  refine countP_le_one (List.Pairwise.imp_of_mem ?_ (hspaced.sublist List.filter_sublist))
  rintro p q hp hq hapart ⟨hcover, hcover'⟩
  have hlevel := of_decide_eq_true (List.mem_filter.1 hp).2
  have hlevel' := of_decide_eq_true (List.mem_filter.1 hq).2
  have hover : p.Covers b.extent x z := of_decide_eq_true hcover
  have hover' : q.Covers b.extent x z := of_decide_eq_true hcover'
  unfold Placement.Covers Spans at hover hover'
  unfold Apart Clear at hapart
  omega

/-- A row of a slab covers a column if the ways along both axes reach it. -/
theorem stonesOver_pos_iff {row : Nat} (hrow : row < b.layers) {x z : Int}
    (hx : Between anchor.x dest.x x) (hz : Between anchor.z dest.z z) :
    0 < stonesOver b anchor dest row x z ↔
      Reached anchor.x dest.x b.extent.x x ∧ Reached anchor.z dest.z b.extent.z z := by
  obtain ⟨hlength, -, hwidth⟩ := b.size_pos hsolid
  rw [stonesOver, b.extent_of_filled hfilled, onLevel_drag hsolid hrow, layer, if_pos hfilled,
    List.countP_pos_iff, ← exists_covering_iff hlength hx, ← exists_covering_iff hwidth hz, slabLayer]
  constructor
  · rintro ⟨p, hp, hcover⟩
    obtain ⟨hspans, hspans'⟩ := of_decide_eq_true hcover
    obtain ⟨v, hv, hp⟩ := List.mem_flatMap.1 hp
    obtain ⟨w, hw, rfl⟩ := List.mem_map.1 hp
    exact ⟨⟨v, hv, hspans⟩, w, hw, hspans'⟩
  · rintro ⟨⟨v, hv, hspans⟩, w, hw, hspans'⟩
    exact ⟨_, List.mem_flatMap.2 ⟨v, hv, List.mem_map.2 ⟨w, hw, rfl⟩⟩, decide_eq_true ⟨hspans, hspans'⟩⟩

theorem stonesOver_eq {row : Nat} (hrow : row < b.layers) {x z : Int}
    (hx : Between anchor.x dest.x x) (hz : Between anchor.z dest.z z) :
    stonesOver b anchor dest row x z =
      if Reached anchor.x dest.x b.extent.x x ∧ Reached anchor.z dest.z b.extent.z z then 1
      else 0 := by
  have hle : stonesOver b anchor dest row x z ≤ 1 := stonesOver_le_one hfilled hsolid row x z
  have hpos := stonesOver_pos_iff hfilled hsolid hrow hx hz
  split
  · next hreached =>
    have := hpos.2 hreached
    omega
  · next hreached =>
    have := mt hpos.1 hreached
    omega

/-- A slab has one stone over each column of its rectangle that it reaches, in each of its layers, and none
over the others. It covers the whole rectangle if and only if the drag leads up, or down by a whole number
of stones, along either axis. -/
theorem slab_covers_iff (hlayers : 0 < b.layers) :
    (∀ row < b.layers, ∀ x z, Between anchor.x dest.x x → Between anchor.z dest.z z →
      stonesOver b anchor dest row x z =
        if Reached anchor.x dest.x b.extent.x x ∧ Reached anchor.z dest.z b.extent.z z then 1
        else 0) ∧
    ((∀ row < b.layers, ∀ x z, Between anchor.x dest.x x → Between anchor.z dest.z z →
      stonesOver b anchor dest row x z = 1) ↔
        (anchor.x ≤ dest.x ∨ b.extent.x ∣ anchor.x - dest.x) ∧
          (anchor.z ≤ dest.z ∨ b.extent.z ∣ anchor.z - dest.z)) := by
  obtain ⟨hlength, -, hwidth⟩ := b.extent_pos hsolid
  refine ⟨fun row hrow x z hx hz => stonesOver_eq hfilled hsolid hrow hx hz, ?_⟩
  rw [← forall_reached_iff hlength, ← forall_reached_iff hwidth]
  have hstart (a d : Int) : Between a d a := by
    unfold Between
    omega
  constructor
  · intro hcovers
    have hone {x z : Int} (hx : Between anchor.x dest.x x) (hz : Between anchor.z dest.z z) :=
      (stonesOver_pos_iff hfilled hsolid hlayers hx hz).1 (by rw [hcovers 0 hlayers x z hx hz]; decide)
    exact ⟨fun x hx => (hone hx (hstart _ _)).1, fun z hz => (hone (hstart _ _) hz).2⟩
  · rintro ⟨hreachedX, hreachedZ⟩ row hrow x z hx hz
    rw [stonesOver_eq hfilled hsolid hrow hx hz, if_pos ⟨hreachedX x hx, hreachedZ z hz⟩]

end Slab

/-- Down eight cells, two stones of four, and up three, one stone of two and one over the edge: every
column of the rectangle has a stone over it in both layers. -/
theorem slab_covers_terrace :
    let slab : Brush := ⟨432, .white, 0, 2, true, false⟩
    slab.filled = true ∧ Solid slab.code ∧ 0 < slab.layers ∧
      ∀ row < 2, ∀ x z, Between 0 (-8) x → Between 0 3 z →
        stonesOver slab ⟨0, 0, 0⟩ ⟨-8, 5, 3⟩ row x z = 1 := by
  intro slab
  have hsolid : Solid 432 := ⟨by decide, by decide, by decide⟩
  have hcovers := @slab_covers_iff slab rfl hsolid ⟨0, 0, 0⟩ ⟨-8, 5, 3⟩ (by decide)
  exact ⟨rfl, hsolid, by decide, hcovers.2.2 ⟨.inr (by decide), .inl (by decide)⟩⟩

/-- Drawn down by two cells, a slab of stones four cells long has none over the last two. -/
theorem slab_leaves_edge :
    let slab : Brush := ⟨432, .white, 0, 1, true, false⟩
    slab.filled = true ∧ Solid slab.code ∧
      ¬ ∀ row < slab.layers, ∀ x z, Between 0 (-2) x → Between 0 0 z →
        stonesOver slab ⟨0, 0, 0⟩ ⟨-2, 0, 0⟩ row x z = 1 := by
  intro slab
  refine ⟨rfl, ⟨by decide, by decide, by decide⟩, fun hcovers => ?_⟩
  exact absurd (hcovers 0 (by decide) (-2) 0 (by decide) (by decide)) (by decide)

end Plan

end Masonry
