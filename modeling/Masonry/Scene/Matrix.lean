import Masonry.Space.Vector

/-!
# Transforms of drawn stones

A drawn stone is turned about the vertical axis and then moved. `Transform.matrix` gives that as a
matrix over a type of numbers that the transform's own numbers are narrowed to.
-/

namespace Masonry

/-- A column of four numbers. -/
structure Column (α : Type) where
  x : α
  y : α
  z : α
  w : α
  deriving DecidableEq, Repr, Inhabited

/-- A matrix by its four columns. -/
structure Matrix (α : Type) where
  x : Column α
  y : Column α
  z : Column α
  w : Column α
  deriving DecidableEq, Repr, Inhabited

namespace Column

variable {α : Type}

/-- Every component times one factor. -/
def scaled [Mul α] (c : Column α) (a : α) : Column α := ⟨c.x * a, c.y * a, c.z * a, c.w * a⟩

instance [Add α] : Add (Column α) := ⟨fun c d => ⟨c.x + d.x, c.y + d.y, c.z + d.z, c.w + d.w⟩⟩

/-- The components from the first to the last. -/
def toList (c : Column α) : List α := [c.x, c.y, c.z, c.w]

end Column

namespace Matrix

variable {α : Type}

/-- The image of a column. -/
def apply [Add α] [Mul α] (m : Matrix α) (c : Column α) : Column α :=
  m.x.scaled c.x + m.y.scaled c.y + m.z.scaled c.z + m.w.scaled c.w

instance [Add α] [Mul α] : Mul (Matrix α) :=
  ⟨fun m n => ⟨m.apply n.x, m.apply n.y, m.apply n.z, m.apply n.w⟩⟩

/-- The numbers column by column. -/
def toList (m : Matrix α) : List α := m.x.toList ++ m.y.toList ++ m.z.toList ++ m.w.toList

variable [Scalar α]

/-- Moves points by a vector. -/
def shift (v : Vec3 α) : Matrix α :=
  ⟨⟨1, 0, 0, 0⟩, ⟨0, 1, 0, 0⟩, ⟨0, 0, 1, 0⟩, ⟨v.x, v.y, v.z, 1⟩⟩

/-- Turns points about the vertical axis by an angle, in the scalar's unit. -/
def turn (angle : α) : Matrix α :=
  let s := Scalar.sin angle
  let c := Scalar.cos angle
  ⟨⟨c, 0, -s, 0⟩, ⟨0, 1, 0, 0⟩, ⟨s, 0, c, 0⟩, ⟨0, 0, 0, 1⟩⟩

/-- The image of a point. -/
def applyPoint (m : Matrix α) (p : Vec3 α) : Vec3 α :=
  let c := m.apply ⟨p.x, p.y, p.z, 1⟩
  ⟨c.x, c.y, c.z⟩

end Matrix

/-- Where a shape is drawn. -/
structure Transform (α : Type) where
  position : Vec3 α
  /-- The turn about the vertical axis, in degrees. -/
  degrees : α
  deriving DecidableEq, Repr, Inhabited

namespace Transform

/-- The matrix of a transform, over the narrower numbers. -/
def matrix {α β : Type} [Scalar β] (narrow : α → β) (t : Transform α) : Matrix β :=
  Matrix.shift (t.position.map narrow) *
    Matrix.turn (narrow t.degrees * (Scalar.halfTurn / Scalar.ofInt 180))

end Transform

end Masonry
