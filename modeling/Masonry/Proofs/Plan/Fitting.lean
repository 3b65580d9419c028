import Mathlib.Data.Rat.Cast.Order
import Mathlib.Tactic.Linarith
import Masonry.Proofs.Model.Batch
import Masonry.Proofs.Plan.Spacing
import Masonry.Scalar.Exact

/-!
# Plans that fit

Over exact numbers, with shapes that fill their footprint, the stones of a plan that are spaced on the
grid do not collide. So a slab and a straight wall are placed to the last stone where nothing else
stands.
-/

namespace Masonry

/-- The unselected stone that a placement becomes with a box; its id is open. -/
def Placement.boxed {α : Type} (p : Placement) (insertId : Int32) (box : Box α) : Stone α :=
  ⟨0, insertId, p.color, p.code, foldTurns p.turns, p.cell, false, box⟩

theorem Placement.placement_boxed {α : Type} {p : Placement} (h : p.turns < 4) (insertId : Int32)
    (box : Box α) : (p.boxed insertId box).placement = p := by
  rw [boxed, Stone.placement, foldTurns_of_lt h]

namespace Model

variable {α : Type} [Scalar α] {c : Catalog α}

theorem candidate?_eq_boxed {p : Placement} {box : Box α}
    (h : c.boxAt? p.code (degrees (foldTurns p.turns)) = some box) (insertId : Int32) :
    candidate? c insertId p = some (p.boxed insertId box) :=
  candidate?_eq_some_iff.2 ⟨box, h, rfl⟩

/-- Placements none of which collides with a stone of the model or with another of them are all
placed, in their order. -/
theorem placeAll_of_apart {insertId : Int32} {stone : Placement → Stone α} {ps : List Placement}
    (hstone : ∀ p ∈ ps, candidate? c insertId p = some (stone p)) {m : Model α}
    (hroom : ∀ p ∈ ps, m.blocks (stone p) = false)
    (hapart : ps.Pairwise fun p q => (m.core (stone p)).overlaps (m.core (stone q)) = false) :
    (m.placeAll c insertId ps).1 = ps.length ∧
      (m.placeAll c insertId ps).2.stones.map Stone.placement =
        m.stones.map Stone.placement ++ ps.map fun p => (stone p).placement := by
  have hcore : ∀ p ∈ ps, m.coreAt? c p = some (m.core (stone p)) := by
    intro p hp
    rw [coreAt?_eq_map_candidate? m insertId, hstone p hp]
    rfl
  have haccepted : m.accepted c ps = ps :=
    accepted_eq_self hcore (fun p hp => blocks_eq_false_iff.1 (hroom p hp)) hapart
  obtain ⟨hcount, hgains⟩ := placeAll_gains m c insertId ps
  rw [haccepted] at hcount hgains
  obtain ⟨added, hstones, hadded⟩ := hgains.realized
  refine ⟨hcount, ?_⟩
  rw [hstones, List.map_append, map_placement_of_realizes hadded]
  refine congrArg _ (List.map_congr_left fun p hp => ?_)
  exact (realizes_candidate? (hstone p hp) 0).placement_eq.symm

end Model

/-- In every quarter turn the box of the type code's shape is as large as its footprint, counted in
unit cells and levels. -/
def Catalog.Fills (c : Catalog Rat) (code : Int32) : Prop :=
  ∀ turns < 4, (c.boxAt? code (degrees turns)).map Box.size = some (Grid.corner (extent code turns))

instance (c : Catalog Rat) (code : Int32) : Decidable (c.Fills code) :=
  inferInstanceAs (Decidable (∀ turns < 4, _))

namespace Box

/-- Two intervals of one length that start at least that length apart keep apart when both are pulled
in by a margin. -/
theorem apart_of_clear {low high length p q margin : Rat} (hlength : high - low = length)
    (hmargin : 0 ≤ margin) (h : p + length ≤ q ∨ q + length ≤ p) :
    low + p + margin ≥ high + q - margin ∨ high + p - margin ≤ low + q + margin := by
  rcases h with h | h
  · exact .inr (by linarith)
  · exact .inl (by linarith)

theorem clear_cast {length a b : Int} (h : Clear length a b) {unit : Rat} (hunit : 0 ≤ unit)
    (o : Rat) : a * unit + o + length * unit ≤ b * unit + o ∨
      b * unit + o + length * unit ≤ a * unit + o := by
  have hscale {i j : Int} (hij : i + length ≤ j) : i * unit + length * unit ≤ j * unit := by
    have hcast : (i : Rat) + length ≤ j := by exact_mod_cast hij
    rw [← add_mul]
    exact mul_le_mul_of_nonneg_right hcast hunit
  rcases h with h | h
  · exact .inl (by have := hscale h; linarith)
  · exact .inr (by have := hscale h; linarith)

/-- A box of some cells' size does not overlap with itself in a cell that far apart. -/
theorem overlaps_eq_false_of_apart {box : Box Rat} {size c d : Cell}
    (hsize : box.size = Grid.corner size) (h : Apart size c d) (origin : Vec3 Rat) :
    ((box.shifted (Grid.corner c + origin)).shrunk Grid.clearance).overlaps
      ((box.shifted (Grid.corner d + origin)).shrunk Grid.clearance) = false := by
  have hx : box.upper.x - box.lower.x = size.x := congrArg Vec3.x hsize
  have hy : box.upper.y - box.lower.y = size.y * (Grid.levelHeight : Rat) := congrArg Vec3.y hsize
  have hz : box.upper.z - box.lower.z = size.z := congrArg Vec3.z hsize
  have hmargin : (0 : Rat) ≤ Grid.clearance := by decide +kernel
  have hlevel : (0 : Rat) ≤ Grid.levelHeight := by decide +kernel
  rw [Bool.eq_false_iff]
  intro hover
  obtain ⟨h₁, h₂, h₃, h₄, h₅, h₆⟩ := overlaps_eq_true_iff.1 hover
  rcases h with h | h | h
  · have hclear := clear_cast h zero_le_one origin.x
    simp only [mul_one] at hclear
    exact (apart_of_clear hx hmargin hclear).elim h₁ h₄
  · exact (apart_of_clear hy hmargin (clear_cast h hlevel origin.y)).elim h₂ h₅
  · have hclear := clear_cast h zero_le_one origin.z
    simp only [mul_one] at hclear
    exact (apart_of_clear hz hmargin hclear).elim h₃ h₆

end Box

namespace Brush

variable (b : Brush)

/-- Only the parity of the turns shows in what a stone takes up. -/
theorem extent_foldTurns : Masonry.extent b.code (foldTurns b.turns) = b.extent := by
  have hparity : foldTurns b.turns % 2 = b.turns % 2 := by
    unfold foldTurns
    omega
  rw [extent, Masonry.extent, Masonry.extent, hparity]

theorem turns_stone (cell : Cell) : (b.stone false cell).turns = foldTurns b.turns := by
  simp [stone, Placement.folded]

end Brush

namespace Plan

variable {b : Brush} {ps : List Placement} {p : Placement}

theorem Spaced.code_eq (h : Spaced b ps) (hp : p ∈ ps) : p.code = b.code := by
  rw [h.lying p hp]
  rfl

theorem Spaced.turns_eq (h : Spaced b ps) (hp : p ∈ ps) : p.turns = foldTurns b.turns := by
  rw [h.lying p hp, b.turns_stone]

end Plan

namespace Model

variable {c : Catalog Rat} {b : Brush} {m : Model Rat}

/-- Stones of a brush that are spaced on the grid are all placed in a model without stones. -/
theorem placeAll_of_spaced (hc : c.Fills b.code) {ps : List Placement} (hps : Plan.Spaced b ps)
    (hm : m.stones = []) (insertId : Int32) :
    (m.placeAll c insertId ps).1 = ps.length ∧
      (m.placeAll c insertId ps).2.stones.map Stone.placement = ps := by
  obtain ⟨box, hbox, hsize⟩ := Option.map_eq_some_iff.1 (hc (foldTurns b.turns) (foldTurns_lt _))
  rw [b.extent_foldTurns] at hsize
  have hturns : ∀ p ∈ ps, p.turns < 4 := fun p hp => hps.turns_eq hp ▸ foldTurns_lt _
  have hstone : ∀ p ∈ ps, candidate? c insertId p = some (p.boxed insertId box) := by
    intro p hp
    apply candidate?_eq_boxed
    rw [foldTurns_of_lt (hturns p hp), hps.turns_eq hp, hps.code_eq hp]
    exact hbox
  have hempty : ∀ p ∈ ps, m.blocks (p.boxed insertId box) = false := by
    intro p _
    rw [blocks, hm]
    rfl
  have hapart : ps.Pairwise fun p q =>
      (m.core (p.boxed insertId box)).overlaps (m.core (q.boxed insertId box)) = false :=
    hps.apart.imp fun h => Box.overlaps_eq_false_of_apart hsize h m.origin
  obtain ⟨hcount, hstones⟩ := placeAll_of_apart hstone hempty hapart
  refine ⟨hcount, hstones.trans ?_⟩
  have hsame : ps.map (fun p => (p.boxed insertId box).placement) = ps.map id :=
    List.map_congr_left fun p hp => Placement.placement_boxed (hturns p hp) insertId box
  rw [hm, hsame, List.map_id]
  rfl

/-- A slab, and a wall straight along the brush, is placed to its last stone in a model without stones:
no stone of the plan is in the way of another. -/
theorem placeAll_drag (hc : c.Fills b.code) {anchor dest : Cell}
    (hplan : b.filled = true ∨ b.longAxis.other.of dest = b.longAxis.other.of anchor)
    (hm : m.stones = []) (insertId : Int32) :
    (m.placeAll c insertId (Plan.drag b anchor dest)).1 = (Plan.drag b anchor dest).length ∧
      (m.placeAll c insertId (Plan.drag b anchor dest)).2.stones.map Stone.placement =
        Plan.drag b anchor dest :=
  placeAll_of_spaced hc (Plan.spaced_drag hplan) hm insertId

/-- The catalog of one brick, four by two cells wide and three levels high. -/
def oneBrick : Catalog Rat :=
  ⟨[{ Shape.blank "s432" with id := 432, vertices := [⟨0, 0, 0⟩, ⟨4, 1.2, 2⟩] }]⟩

/-- Two layers of bricks that lie across, away from the anchor along `x` and back along `z`. -/
theorem placeAll_drag_slab :
    let slab : Brush := ⟨432, .white, 1, 2, true, false⟩
    oneBrick.Fills slab.code ∧ slab.filled = true ∧ (empty : Model Rat).stones = [] ∧
      ((empty : Model Rat).placeAll oneBrick 0 (Plan.drag slab ⟨0, 0, 0⟩ ⟨5, 0, -7⟩)).1 = 12 :=
  have hfills : oneBrick.Fills 432 := by decide +kernel
  ⟨hfills, rfl, rfl, (placeAll_drag hfills (.inl rfl) rfl 0).1⟩

end Model

end Masonry
