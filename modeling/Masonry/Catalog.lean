import Masonry.Shape

/-!
# Catalogs

A catalog lists shapes in the order they were described. Stones refer to a shape by its id, and of
two shapes with one id the later counts. The name of a shape is unique in a catalog read from a
source, so a name finds one shape.
-/

namespace Masonry

/-- The greatest index of an element that satisfies the test. -/
def lastIndex? {β : Type} (test : β → Bool) : List β → Option Nat
  | [] => none
  | b :: bs => match lastIndex? test bs with
    | some i => some (i + 1)
    | none => if test b then some 0 else none

/-- The shapes that stones can have. -/
structure Catalog (α : Type) where
  shapes : List (Shape α)
  deriving DecidableEq, Repr, Inhabited

namespace Catalog

variable {α : Type}

/-- No shapes. -/
def empty : Catalog α := ⟨[]⟩

/-- The catalog with a shape added at the end. -/
def push (c : Catalog α) (s : Shape α) : Catalog α := ⟨c.shapes ++ [s]⟩

/-- The number of shapes. -/
def size (c : Catalog α) : Nat := c.shapes.length

/-- The shape with an index. -/
def get? (c : Catalog α) (index : Nat) : Option (Shape α) := c.shapes[index]?

/-- The id of the shape with an index. -/
def idAt? (c : Catalog α) (index : Nat) : Option Int32 := (c.get? index).map Shape.id

/-- The shape with a name. -/
def named? (c : Catalog α) (name : String) : Option (Shape α) :=
  c.shapes.find? (·.name == name)

/-- A shape has the name. -/
def hasName (c : Catalog α) (name : String) : Bool := (c.named? name).isSome

/-- The index of the last shape with an id. -/
def indexOf? (c : Catalog α) (id : Int32) : Option Nat := lastIndex? (·.id == id) c.shapes

/-- The last shape with an id. -/
def shape? (c : Catalog α) (id : Int32) : Option (Shape α) := (c.indexOf? id).bind c.get?

/-- The bounding box of the last shape with an id, turned by an angle in degrees. -/
def boxAt? [Scalar α] (c : Catalog α) (id : Int32) (degrees : α) : Option (Box α) :=
  (c.shape? id).map (·.boxAt degrees)

end Catalog

/-- The numbers of unit cells, levels and unit cells that a type code's stone extends along the axes:
its hundreds, tens and ones. -/
def footprint (code : Int32) : Cell :=
  ⟨code.toInt.tdiv 100, (code.toInt.tdiv 10).tmod 10, code.toInt.tmod 10⟩

end Masonry
