import Masonry.Space.Box

/-!
# Rays

A ray runs from its origin along a direction of any length; distances along it count directions.
`Ray.enter?` finds where it first meets a box, `Ray.plane?` where its line meets a horizontal plane.
-/

namespace Masonry

/-- A half line; the direction need not have length one. -/
structure Ray (α : Type) where
  origin : Vec3 α
  direction : Vec3 α
  deriving DecidableEq, Repr, Inhabited

/-- Where a line meets a plane, and how far that is from the ray's origin. -/
structure PlaneHit (α : Type) where
  point : Vec3 α
  distance : α

namespace Ray

variable {α : Type} [Scalar α]

/-- The end of the interval that the coordinate lies beyond, if it lies outside. -/
def facing? (coordinate low high : α) : Option α :=
  if coordinate < low then some low else if coordinate > high then some high else none

/-- How far along the ray one coordinate reaches the face it looks at; `-1` without such a face. -/
def reach (coordinate direction : α) : Option α → α
  | some face => if Scalar.isZero direction then -1 else (face - coordinate) / direction
  | none => -1

/-- The coordinate at distance `t` is not outside the interval. -/
def meets (coordinate direction low high t : α) : Bool :=
  let there := coordinate + t * direction
  !(decide (there < low) || decide (there > high))

/-- The distance at which the ray first meets the box, zero from inside it.

The last face reached is where the ray enters, if the other two coordinates are in range there. -/
def enter? (r : Ray α) (b : Box α) : Option α :=
  let o := r.origin
  let d := r.direction
  let fx := facing? o.x b.lower.x b.upper.x
  let fy := facing? o.y b.lower.y b.upper.y
  let fz := facing? o.z b.lower.z b.upper.z
  if fx.isNone && fy.isNone && fz.isNone then some 0 else
  let tx := reach o.x d.x fx
  let ty := reach o.y d.y fy
  let tz := reach o.z d.z fz
  let onX := meets o.x d.x b.lower.x b.upper.x
  let onY := meets o.y d.y b.lower.y b.upper.y
  let onZ := meets o.z d.z b.lower.z b.upper.z
  if ty > tx ∧ ty > tz then
    if ty < 0 then none else if onX ty && onZ ty then some ty else none
  else if tz > tx ∧ tz > ty then
    if tz < 0 then none else if onX tz && onY tz then some tz else none
  else
    if tx < 0 then none else if onY tx && onZ tx then some tx else none

/-- Where the line of the ray meets the plane at a height; a parallel line does not. -/
def plane? (r : Ray α) (height : α) : Option (PlaneHit α) :=
  if Scalar.isZero r.direction.y then none else
  let t := (height - r.origin.y) / r.direction.y
  let point := r.origin + r.direction.scaled t
  some ⟨point, r.origin.distance point⟩

end Ray

end Masonry
