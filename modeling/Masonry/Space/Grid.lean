import Masonry.Space.Vector

/-!
# The building grid

Columns and rows are one unit wide and levels are `0.4` units high.
-/

namespace Masonry.Grid

variable {α : Type} [Scalar α]

/-- The height of a level. -/
def levelHeight : α := 0.4

/-- Boxes are pulled in by this margin before they are tested for overlap, so that stones that share
a face do not collide. -/
def clearance : α := 0.01

/-- How far above the base of the selection its handle floats. -/
def handleLift : α := 0.3

/-- The height at which a level begins. -/
def height (level : Int) : α := Scalar.ofInt level * levelHeight

/-- The point at which a cell begins. -/
def corner (c : Cell) : Vec3 α := ⟨Scalar.ofInt c.x, height c.y, Scalar.ofInt c.z⟩

/-- The cell on a given level whose column holds the point. -/
def snap (p : Vec3 α) (level : Int) : Cell := ⟨Scalar.floor p.x, level, Scalar.floor p.z⟩

end Masonry.Grid
