import Masonry.Scalar.Binary
import Masonry.Shape

/-!
# Triangles of a shape

Each face is cut into the fan of triangles from its first vertex. A triangle has one normal, that of
the vertices before scale and shift, and takes its texture positions from the texture
coordinates of its face: a rectangle serves the first two triangles, a list of points gives each
vertex of the face its own.
-/

namespace Masonry

/-- A corner of a triangle that is ready to be drawn. -/
structure Vertex (α : Type) where
  position : Vec3 α
  normal : Vec3 α
  /-- The texture position to the right, from the left edge. -/
  u : α
  /-- The texture position upward, from the bottom edge. -/
  v : α
  deriving DecidableEq, Repr, Inhabited

/-- Vertices, three for each triangle. -/
structure Batch (α : Type) where
  vertices : List (Vertex α)
  deriving DecidableEq, Repr, Inhabited

/-- Why a shape has no triangles; `face` is the index of the face at fault. -/
inductive BatchFault where
  | noVertex (face index : Nat)
  | noTexCoords (face index : Nat)
  /-- A face has more vertices than its list of points. -/
  | tooFewPoints (face needed got : Nat)
  /-- A face has more vertices than a rectangle serves. -/
  | tooManyTriangles (face : Nat)
  deriving DecidableEq, Repr

namespace BatchFault

/-- The words for a fault. -/
def message : BatchFault → String
  | .noVertex face index => s!"face {face}: vertex index {index} out of range"
  | .noTexCoords face index => s!"face {face}: texture coordinate set {index} out of range"
  | .tooFewPoints face needed got =>
    s!"face {face}: needs {needed} texture coordinates, got {got}"
  | .tooManyTriangles face =>
    s!"face {face}: too many triangles for rectangle texture coordinates"

end BatchFault

namespace Face

/-- The triangles of a face, each with its number, counted from one, and its three vertices. -/
def fan (f : Face) : List (Nat × Nat × Nat × Nat) :=
  match f.vertices with
  | [] => []
  | a :: rest => ((rest.zip rest.tail).zipIdx 1).map fun ((b, c), i) => (i, a, b, c)

end Face

namespace TexCoords

/-- The texture positions of the triangle with a number in the fan of a face. -/
def ofTriangle (t : TexCoords) (face i : Nat) : Except BatchFault (Pixel × Pixel × Pixel) :=
  match t with
  | .corners p q =>
    match i with
    | 1 => .ok (p, ⟨p.x, q.y⟩, q)
    | 2 => .ok (p, q, ⟨q.x, p.y⟩)
    | _ => .error (.tooManyTriangles face)
  | .points ps =>
    match ps[0]?, ps[i]?, ps[i + 1]? with
    | some a, some b, some c => .ok (a, b, c)
    | _, _, _ => .error (.tooFewPoints face (i + 2) ps.length)

end TexCoords

namespace Shape

variable {α : Type} [Scalar α]

/-- The corner of a triangle at a vertex; texture positions are those of the centers of pixels. -/
def vertex (s : Shape α) (normal v : Vec3 α) (p : Pixel) : Vertex α where
  position := s.placed v
  normal := normal
  u := (Scalar.ofInt p.x + 0.5) / Scalar.ofInt s.texSize
  v := 1 - (Scalar.ofInt p.y + 0.5) / Scalar.ofInt s.texSize

omit [Scalar α] in
/-- The vertex that a face refers to. -/
def vertexOf (s : Shape α) (face index : Nat) : Except BatchFault (Vec3 α) :=
  match s.vertices[index]? with
  | some v => .ok v
  | none => .error (.noVertex face index)

/-- The vertices of a triangle of a face. -/
def triangle (s : Shape α) (face : Nat) (t : TexCoords) :
    Nat × Nat × Nat × Nat → Except BatchFault (List (Vertex α))
  | (i, a, b, c) => do
    let va ← s.vertexOf face a
    let vb ← s.vertexOf face b
    let vc ← s.vertexOf face c
    let (pa, pb, pc) ← t.ofTriangle face i
    let normal := ((vb - va).cross (vc - va)).normalized
    return [s.vertex normal va pa, s.vertex normal vb pb, s.vertex normal vc pc]

/-- The vertices of the triangles of a face. -/
def faceTriangles (s : Shape α) (f : Face) (face : Nat) : Except BatchFault (List (Vertex α)) :=
  match s.texCoords[f.texCoords]? with
  | none => .error (.noTexCoords face f.texCoords)
  | some t => return (← f.fan.mapM (s.triangle face t)).flatten

/-- The triangles of a shape, face by face. -/
def batch (s : Shape α) : Except BatchFault (Batch α) := do
  return ⟨(← s.faces.zipIdx.mapM fun (f, i) => s.faceTriangles f i).flatten⟩

end Shape

namespace Vertex

variable {α β : Type}

/-- The vertex with the images of its numbers. -/
def map (f : α → β) (v : Vertex α) : Vertex β := ⟨v.position.map f, v.normal.map f, f v.u, f v.v⟩

/-- The numbers of a vertex, in the order they are stored. -/
def numbers (v : Vertex α) : List α :=
  [v.position.x, v.position.y, v.position.z, v.normal.x, v.normal.y, v.normal.z, v.u, v.v]

end Vertex

namespace Batch

variable {α : Type}

/-- The number of triangles. -/
def triangles (b : Batch α) : Nat := b.vertices.length / 3

/-- The batch in single precision. -/
def narrow (b : Batch Binary64) : Batch Binary32 := ⟨b.vertices.map (·.map Binary64.narrow)⟩

/-- The numbers of all vertices, each as the four bytes of its word from the lowest. -/
def bytes (b : Batch Binary32) : List UInt8 :=
  b.vertices.flatMap fun v => v.numbers.flatMap fun n =>
    [0, 8, 16, 24].map fun shift => (n.word >>> shift).toUInt8

end Batch

end Masonry
