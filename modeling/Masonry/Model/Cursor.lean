import Masonry.Model

/-!
# Rays into a model

A ray from the viewer through the cursor asks which cell the cursor is over (`Model.cellAt`), or
which stone it points at (`Model.pick`).
-/

namespace Masonry.Model

variable {α : Type} [Scalar α]

/-- How many levels a stone rises above its own. -/
def levelsOf (s : Stone α) : Int := Scalar.trunc ((s.box.upper.y + Grid.clearance) / Grid.levelHeight)

/-- The cell where the ray meets a level, and how far that is. -/
def levelHit? (m : Model α) (r : Ray α) (level : Int) : Option (α × Cell) :=
  (r.plane? (m.origin.y + Grid.height level)).map fun hit =>
    (hit.distance, Grid.snap (hit.point - m.origin) level)

/-- The cell on top of a stone where the ray meets its top face, and how far that is. -/
def topHit? (m : Model α) (r : Ray α) (s : Stone α) : Option (α × Cell) :=
  let box := m.worldBox s
  match r.plane? box.upper.y with
  | none => none
  | some hit =>
    if box.holdsColumn hit.point then
      some (hit.distance, Grid.snap (hit.point - m.origin) (s.cell.y + levelsOf s))
    else none

/-- The hit of a stone's top if it is closer than the best so far. -/
def closerTop (m : Model α) (r : Ray α) (best : α × Cell) (s : Stone α) : α × Cell :=
  match m.topHit? r s with
  | some hit => if hit.1 < best.1 then hit else best
  | none => best

/-- The cell that the ray points at: on top of the stone whose top face it meets first, or on the
given level if it meets that before. The level of the answer is kept for a query that holds it, which
looks at that level only. A ray parallel to the levels has no answer. -/
def cellAt (m : Model α) (r : Ray α) (level : Int) (hold : Bool) : Option Cell × Model α :=
  if hold then ((m.levelHit? r m.lastLevel).map Prod.snd, m) else
  match m.levelHit? r level with
  | none => (none, m)
  | some hit =>
    let cell := (m.stones.foldl (m.closerTop r) hit).2
    (some cell, { m with lastLevel := cell.y })

/-- The index and distance of a stone if the ray meets it ahead and closer than the best so far. -/
def closerStone (m : Model α) (r : Ray α) (best : Option (Nat × α)) (s : Stone α × Nat) :
    Option (Nat × α) :=
  match r.enter? (m.worldBox s.1) with
  | none => best
  | some t =>
    if t > 0 then
      match best with
      | none => some (s.2, t)
      | some b => if t < b.2 then some (s.2, t) else best
    else best

/-- The index of the first stone that the ray meets ahead, and its distance. -/
def nearest? (m : Model α) (r : Ray α) : Option (Nat × α) :=
  m.stones.zipIdx.foldl (m.closerStone r) none

/-- The mean cell of the selection, at its height and lifted a little. -/
def selectionCenter? (m : Model α) : Option (Vec3 α) :=
  let cells := m.selection.map fun s => Vec3.ofCell (α := α) s.cell
  if cells.isEmpty then none else
  let sum := cells.foldl (· + ·) 0
  let count := Scalar.ofInt cells.length
  some ⟨sum.x / count, sum.y / count * Grid.levelHeight + Grid.handleLift, sum.z / count⟩

/-- No stone is selected. -/
def deselect (m : Model α) : Model α := m.mapStones (·.select false)

/-- Adds to the selection the stone with an index, and with `linked` all that share its insert id. -/
def selectAt (m : Model α) (index : Nat) (linked : Bool) : Model α :=
  match m.stones[index]? with
  | none => m
  | some hit =>
    { m with stones := m.stones.zipIdx.map fun (s, i) =>
        if i = index ∨ (linked ∧ s.insertId = hit.insertId) then s.select true else s }

/-- Selects the stone that the ray meets first, instead of the present selection or, with `additive`,
besides it. Answers the center of the new selection. -/
def pick (m : Model α) (r : Ray α) (additive linked : Bool) : Option (Vec3 α) × Model α :=
  let m := if additive then m else m.deselect
  let m := match m.nearest? r with
    | some (index, _) => m.selectAt index linked
    | none => m
  (m.selectionCenter?, m)

end Masonry.Model
