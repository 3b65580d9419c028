import Masonry.Space.Vector

/-!
# Boxes

Boxes with faces along the axes, given by their lower and upper corner. Two boxes overlap when they
share interior points; boxes that only touch do not.
-/

namespace Masonry

/-- A box with faces along the axes. -/
structure Box (α : Type) where
  lower : Vec3 α
  upper : Vec3 α
  deriving DecidableEq, Repr, Inhabited

namespace Box

variable {α : Type} [Scalar α]

instance : Zero (Box α) := ⟨⟨0, 0⟩⟩

/-- The least box that holds the box and the point. -/
def enlarge (b : Box α) (p : Vec3 α) : Box α := ⟨b.lower.least p, b.upper.greatest p⟩

/-- The bounding box of a list of points, which has one if it has a point. -/
def ofPoints? : List (Vec3 α) → Option (Box α)
  | [] => none
  | p :: ps => some (ps.foldl enlarge ⟨p, p⟩)

/-- The extents along the axes. -/
def size (b : Box α) : Vec3 α := b.upper - b.lower

/-- The box moved by an offset. -/
def shifted (b : Box α) (offset : Vec3 α) : Box α := ⟨b.lower + offset, b.upper + offset⟩

/-- The box with every face pulled in by a margin. -/
def shrunk (b : Box α) (margin : α) : Box α :=
  ⟨b.lower + Vec3.splat margin, b.upper - Vec3.splat margin⟩

/-- The boxes are not separated along any axis. -/
def overlaps (a b : Box α) : Bool :=
  !(decide (a.lower.x ≥ b.upper.x) || decide (a.lower.y ≥ b.upper.y) ||
    decide (a.lower.z ≥ b.upper.z) || decide (a.upper.x ≤ b.lower.x) ||
    decide (a.upper.y ≤ b.lower.y) || decide (a.upper.z ≤ b.lower.z))

theorem overlaps_eq_true_iff {a b : Box α} : a.overlaps b = true ↔
    ¬a.lower.x ≥ b.upper.x ∧ ¬a.lower.y ≥ b.upper.y ∧ ¬a.lower.z ≥ b.upper.z ∧
      ¬a.upper.x ≤ b.lower.x ∧ ¬a.upper.y ≤ b.lower.y ∧ ¬a.upper.z ≤ b.lower.z := by
  simp [overlaps, and_assoc]

/-- Overlap does not depend on which box is named first. -/
theorem overlaps_comm (a b : Box α) : a.overlaps b = b.overlaps a := by
  rw [Bool.eq_iff_iff, overlaps_eq_true_iff, overlaps_eq_true_iff]
  constructor <;> rintro ⟨h₁, h₂, h₃, h₄, h₅, h₆⟩ <;> exact ⟨h₄, h₅, h₆, h₁, h₂, h₃⟩

/-- The point lies above, below or in the box: its `x` and `z` are in range. -/
def holdsColumn (b : Box α) (p : Vec3 α) : Bool :=
  decide (p.x ≥ b.lower.x) && decide (p.x ≤ b.upper.x) &&
    decide (p.z ≥ b.lower.z) && decide (p.z ≤ b.upper.z)

end Box

end Masonry
