import Masonry.Catalog
import Masonry.Color
import Masonry.Space.Grid

/-!
# Stones

A placement says what stone to put where; a stone is a placement that a model holds, with the
identities it has there and the bounding box of its shape.
-/

namespace Masonry

/-- A number of quarter turns, folded into `0..3`. -/
def foldTurns (turns : Int) : Nat := (turns % 4).toNat

theorem foldTurns_lt (turns : Int) : foldTurns turns < 4 := by
  unfold foldTurns
  omega

/-- Folding changes nothing that is folded. -/
theorem foldTurns_of_lt {turns : Nat} (h : turns < 4) : foldTurns turns = turns := by
  unfold foldTurns
  omega

/-- A stone to be placed. -/
structure Placement where
  /-- The id of the stone's shape, which also gives its footprint. -/
  code : Int32
  color : Color
  /-- Quarter turns about the vertical axis. -/
  turns : Nat
  cell : Cell
  deriving DecidableEq, Repr, Inhabited

namespace Placement

/-- The placement with any number of quarter turns, folded. -/
def folded (code : Int32) (color : Color) (turns : Int) (cell : Cell) : Placement :=
  ⟨code, color, foldTurns turns, cell⟩

/-- The placement moved by a number of cells. -/
def shifted (p : Placement) (offset : Cell) : Placement := { p with cell := p.cell + offset }

end Placement

/-- A stone of a model. -/
structure Stone (α : Type) where
  id : Int32
  /-- Shared by stones that were placed or joined together. -/
  insertId : Int32
  color : Color
  code : Int32
  /-- Quarter turns about the vertical axis, in `0..3`. -/
  turns : Nat
  cell : Cell
  selected : Bool
  /-- The box of the shape in this rotation, before the stone is put into its cell. -/
  box : Box α
  deriving DecidableEq, Repr, Inhabited

/-- The angle of a number of quarter turns, in degrees. -/
def degrees {α : Type} [Scalar α] (turns : Nat) : α := Scalar.ofInt turns * Scalar.ofInt 90

namespace Stone

variable {α : Type}

/-- What the stone was placed as, in its present cell. -/
def placement (s : Stone α) : Placement := ⟨s.code, s.color, s.turns, s.cell⟩

/-- The stone selected or not. -/
def select (s : Stone α) (selected : Bool) : Stone α := { s with selected }

/-- The box of the stone in the world, for a model with the given origin. -/
def boxFrom [Scalar α] (s : Stone α) (origin : Vec3 α) : Box α :=
  s.box.shifted (Grid.corner s.cell + origin)

end Stone

end Masonry
