import Masonry.Space.Box

/-!
# Shapes

A shape is a named form of stone: vertices, faces over them, and the texture coordinates of the
faces, with a scale and a shift that apply to every vertex. Its `id` is the type code that
stones refer to it by.
-/

namespace Masonry

/-- A position on a texture, in pixels. -/
structure Pixel where
  x : Int
  y : Int
  deriving DecidableEq, Repr, Inhabited

/-- The texture coordinates of one or more faces. -/
inductive TexCoords where
  /-- Two opposite corners of a rectangle, for faces of up to four vertices. -/
  | corners (first second : Pixel)
  /-- One position for each vertex of a face. -/
  | points (list : List Pixel)
  deriving DecidableEq, Repr, Inhabited

/-- A polygon, as indices of vertices, and the index of its texture coordinates. -/
structure Face where
  vertices : List Nat
  texCoords : Nat
  deriving DecidableEq, Repr, Inhabited

/-- A named form of stone. -/
structure Shape (α : Type) where
  id : Int32
  name : String
  caption : String
  scale : Vec3 α
  shift : Vec3 α
  /-- The edge length of the square texture, in pixels. -/
  texSize : Nat
  texFile : String
  vertices : List (Vec3 α)
  texCoords : List TexCoords
  faces : List Face
  deriving DecidableEq, Repr, Inhabited

/-- A rotation about the vertical axis, by the sine and cosine of its angle. -/
structure Rotation (α : Type) where
  sin : α
  cos : α
  deriving DecidableEq, Repr, Inhabited

namespace Rotation

variable {α : Type} [Scalar α]

/-- The turn about the upward axis by an angle in degrees. By the right-hand rule it goes from `z` to
`x`, so as a rotation from `x` to `z` its angle is negative. -/
def turn (degrees : α) : Rotation α :=
  let angle := -(degrees / Scalar.ofInt 360 * Scalar.ofInt 2 * Scalar.halfTurn)
  ⟨Scalar.sin angle, Scalar.cos angle⟩

/-- The point after the rotation, which goes from `x` to `z`. -/
def apply (r : Rotation α) (p : Vec3 α) : Vec3 α :=
  ⟨p.x * r.cos - p.z * r.sin, p.y, p.x * r.sin + p.z * r.cos⟩

end Rotation

namespace Shape

variable {α : Type} [Scalar α]

/-- The shape that a description begins with: no vertices, natural size, a texture of 512 pixels. -/
def blank (name : String) : Shape α where
  id := 0
  name := name
  caption := ""
  scale := 1
  shift := 0
  texSize := 512
  texFile := ""
  vertices := []
  texCoords := []
  faces := []

omit [Scalar α] in
/-- The same shape under another name. -/
def renamed (s : Shape α) (name : String) : Shape α := { s with name }

/-- A vertex after scale and shift. -/
def placed (s : Shape α) (v : Vec3 α) : Vec3 α := v * s.scale + s.shift

/-- The vertex with an index, after scale and shift. -/
def vertex? (s : Shape α) (index : Nat) : Option (Vec3 α) := s.vertices[index]?.map s.placed

/-- The bounding box of the shape turned by an angle in degrees; the zero box for a shape without
vertices. -/
def boxAt (s : Shape α) (degrees : α) : Box α :=
  let turn := Rotation.turn degrees
  (Box.ofPoints? (s.vertices.map fun v => turn.apply (s.placed v))).getD 0

end Shape

end Masonry
