import Mathlib.Algebra.Order.Ring.Rat
import Mathlib.Data.Rat.Cast.Order
import Masonry.Scalar.Exact
import Masonry.Space.Box
import Masonry.Space.Grid

/-!
# Boxes moved together

Over exact numbers a box that is moved twice has moved by the sum of both offsets, cells add up like
their corners, and boxes that are moved by one offset overlap just as they did before
(`Box.overlaps_shifted`). With numbers that are rounded none of this holds.
-/

namespace Masonry

theorem Vec3.add_swap (u v w : Vec3 Rat) : u + v + w = u + w + v := by
  show (⟨u.x + v.x + w.x, u.y + v.y + w.y, u.z + v.z + w.z⟩ : Vec3 Rat) =
    ⟨u.x + w.x + v.x, u.y + w.y + v.y, u.z + w.z + v.z⟩
  simp only [add_right_comm]

theorem Grid.corner_add (c d : Cell) :
    (Grid.corner (c + d) : Vec3 Rat) = Grid.corner c + Grid.corner d := by
  show (⟨((c.x + d.x : Int) : Rat), ((c.y + d.y : Int) : Rat) * Grid.levelHeight,
      ((c.z + d.z : Int) : Rat)⟩ : Vec3 Rat) = ⟨c.x + d.x, c.y * Grid.levelHeight + d.y * Grid.levelHeight, c.z + d.z⟩
  rw [Int.cast_add, Int.cast_add, Int.cast_add, add_mul]

theorem Grid.corner_zero : (Grid.corner 0 : Vec3 Rat) = 0 := by
  show (⟨((0 : Int) : Rat), ((0 : Int) : Rat) * Grid.levelHeight, ((0 : Int) : Rat)⟩ : Vec3 Rat) = ⟨0, 0, 0⟩
  rw [Int.cast_zero, zero_mul]

namespace Box

variable (a b : Box Rat) (v w : Vec3 Rat)

theorem shifted_zero : b.shifted 0 = b := by
  have hzero (p : Vec3 Rat) : p + 0 = p := by
    show (⟨p.x + 0, p.y + 0, p.z + 0⟩ : Vec3 Rat) = p
    simp only [add_zero]
  exact congrArg₂ Box.mk (hzero b.lower) (hzero b.upper)

theorem shifted_shifted : (b.shifted v).shifted w = b.shifted (v + w) := by
  have hassoc (p : Vec3 Rat) : p + v + w = p + (v + w) := by
    show (⟨p.x + v.x + w.x, p.y + v.y + w.y, p.z + v.z + w.z⟩ : Vec3 Rat) =
      ⟨p.x + (v.x + w.x), p.y + (v.y + w.y), p.z + (v.z + w.z)⟩
    simp only [add_assoc]
  exact congrArg₂ Box.mk (hassoc b.lower) (hassoc b.upper)

theorem shifted_swap : (b.shifted v).shifted w = (b.shifted w).shifted v :=
  congrArg₂ Box.mk (Vec3.add_swap b.lower v w) (Vec3.add_swap b.upper v w)

theorem shrunk_shifted (margin : Rat) : (b.shifted v).shrunk margin = (b.shrunk margin).shifted v := by
  have hupper (p : Vec3 Rat) : p + v - Vec3.splat margin = p - Vec3.splat margin + v := by
    show (⟨p.x + v.x - margin, p.y + v.y - margin, p.z + v.z - margin⟩ : Vec3 Rat) =
      ⟨p.x - margin + v.x, p.y - margin + v.y, p.z - margin + v.z⟩
    simp only [add_sub_right_comm]
  exact congrArg₂ Box.mk (Vec3.add_swap b.lower v _) (hupper b.upper)

/-- Overlap looks at where boxes lie from each other, and not at where they are. -/
theorem overlaps_shifted : (a.shifted v).overlaps (b.shifted v) = a.overlaps b := by
  have hle (p q o : Rat) : p + o ≥ q + o ↔ p ≥ q := add_le_add_iff_right o
  rw [Bool.eq_iff_iff, overlaps_eq_true_iff, overlaps_eq_true_iff]
  exact and_congr (not_congr (hle _ _ _)) (and_congr (not_congr (hle _ _ _))
    (and_congr (not_congr (hle _ _ _)) (and_congr (not_congr (hle _ _ _))
      (and_congr (not_congr (hle _ _ _)) (not_congr (hle _ _ _))))))

end Box

end Masonry
