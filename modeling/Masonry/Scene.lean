import Masonry.Model
import Masonry.Scene.Matrix
import Masonry.Shape.Triangles

/-!
# Scenes

The draws that show a model or a plan: one for each stone whose shape has triangles. The triangles of
a shape are made when it is first drawn and kept, so a `BatchCache` has to be emptied when the
catalog changes.
-/

namespace Masonry

/-- The triangles of the shapes that were asked for, by id; a shape without triangles is kept too. -/
structure BatchCache (α : Type) where
  entries : List (Int32 × Option (Batch α))
  deriving DecidableEq, Repr, Inhabited

/-- A shape to be drawn once. -/
structure Draw (α : Type) where
  shape : Int32
  batch : Batch α
  transform : Transform α
  tint : Rgb
  deriving DecidableEq, Repr, Inhabited

namespace BatchCache

variable {α : Type}

/-- Nothing kept. -/
def empty : BatchCache α := ⟨[]⟩

/-- The cache for a catalog that has changed: nothing is kept on. -/
def invalidate (_ : BatchCache α) : BatchCache α := empty

/-- The number of shapes kept. -/
def size (k : BatchCache α) : Nat := k.entries.length

variable [Scalar α]

/-- The triangles of the shape with an id, if there is such a shape and it has triangles. -/
def batch (k : BatchCache α) (c : Catalog α) (id : Int32) : Option (Batch α) × BatchCache α :=
  match k.entries.lookup id with
  | some kept => (kept, k)
  | none => match c.shape? id with
    | none => (none, k)
    | some s => (s.batch.toOption, ⟨(id, s.batch.toOption) :: k.entries⟩)

end BatchCache

namespace Scene

variable {α : Type} [Scalar α]

/-- Where a placement is drawn, for a model with the given origin. -/
def transformOf (origin : Vec3 α) (p : Placement) : Transform α :=
  ⟨origin + Grid.corner p.cell, degrees p.turns⟩

/-- The draws for placements, each with its tint. -/
def draws (origin : Vec3 α) (c : Catalog α) :
    BatchCache α → List (Placement × Rgb) → List (Draw α) × BatchCache α
  | k, [] => ([], k)
  | k, (p, tint) :: rest =>
    let (batch, k) := k.batch c p.code
    let (more, k) := draws origin c k rest
    match batch with
    | some batch => (⟨p.code, batch, transformOf origin p, tint⟩ :: more, k)
    | none => (more, k)

/-- The draws for the stones of a model; selected stones are highlighted. -/
def ofModel (m : Model α) (c : Catalog α) (k : BatchCache α) : List (Draw α) × BatchCache α :=
  draws m.origin c k <| m.stones.map fun s =>
    (s.placement, if s.selected then .highlight else s.color.rgb)

/-- The draws for a plan in one tint, for a model with the given origin. -/
def ofPlan (plan : List Placement) (origin : Vec3 α) (c : Catalog α) (k : BatchCache α)
    (tint : Rgb) : List (Draw α) × BatchCache α :=
  draws origin c k (plan.map fun p => (p, tint))

end Scene

end Masonry
