import Masonry.Scalar

/-!
# Vectors

Triples along the axes `x`, `y` (upward) and `z`, with componentwise arithmetic. A `Cell` is a triple
of integers: a column, a level and a row of the building grid.
-/

namespace Masonry

/-- Three components along the axes. -/
structure Vec3 (α : Type) where
  x : α
  y : α
  z : α
  deriving DecidableEq, Repr, Inhabited

/-- A cell of the grid: `x` and `z` count unit cells, `y` counts levels. -/
abbrev Cell := Vec3 Int

namespace Vec3

variable {α β : Type}

/-- The vector with the images of the components. -/
def map (f : α → β) (v : Vec3 α) : Vec3 β := ⟨f v.x, f v.y, f v.z⟩

/-- The vector with one value in every component. -/
def splat (a : α) : Vec3 α := ⟨a, a, a⟩

instance [Zero α] : Zero (Vec3 α) := ⟨splat 0⟩
instance [One α] : One (Vec3 α) := ⟨splat 1⟩
instance [Add α] : Add (Vec3 α) := ⟨fun v w => ⟨v.x + w.x, v.y + w.y, v.z + w.z⟩⟩
instance [Sub α] : Sub (Vec3 α) := ⟨fun v w => ⟨v.x - w.x, v.y - w.y, v.z - w.z⟩⟩
instance [Mul α] : Mul (Vec3 α) := ⟨fun v w => ⟨v.x * w.x, v.y * w.y, v.z * w.z⟩⟩

/-- Every component times one factor. -/
def scaled [Mul α] (v : Vec3 α) (a : α) : Vec3 α := ⟨v.x * a, v.y * a, v.z * a⟩

/-- The sum of the products of the components. -/
def dot [Add α] [Mul α] (v w : Vec3 α) : α := v.x * w.x + v.y * w.y + v.z * w.z

/-- The vector perpendicular to both, by the right-hand rule. -/
def cross [Sub α] [Mul α] (v w : Vec3 α) : Vec3 α :=
  ⟨v.y * w.z - w.y * v.z, v.z * w.x - w.z * v.x, v.x * w.y - w.x * v.y⟩

variable [Scalar α]

/-- The componentwise smaller of two vectors. -/
def least (v w : Vec3 α) : Vec3 α :=
  ⟨Scalar.least v.x w.x, Scalar.least v.y w.y, Scalar.least v.z w.z⟩

/-- The componentwise larger of two vectors. -/
def greatest (v w : Vec3 α) : Vec3 α :=
  ⟨Scalar.greatest v.x w.x, Scalar.greatest v.y w.y, Scalar.greatest v.z w.z⟩

/-- The distance between two points. -/
def distance (v w : Vec3 α) : α := Scalar.sqrt ((v - w).dot (v - w))

/-- The vector brought to length one, or zero where its length has no usable inverse. -/
def normalized (v : Vec3 α) : Vec3 α :=
  let inverse := 1 / Scalar.sqrt (v.dot v)
  if Scalar.isFinite inverse && inverse > 0 then v.scaled inverse else 0

/-- A cell's corner counted in whole units on every axis. -/
def ofCell (c : Cell) : Vec3 α := c.map Scalar.ofInt

end Vec3

end Masonry
