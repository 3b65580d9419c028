import Masonry.Stone
import Masonry.Space.Ray

/-!
# Models

A model holds stones in the order they were placed, and named groups of them. A stone enters only
where its box, pulled in by a small clearance, overlaps no other. Groups hold the ids of stones and
outlive them: an id without a stone is passed over.
-/

namespace Masonry

/-- A named list of stones, by their ids. -/
structure Group where
  id : Int32
  name : String
  members : List Int32
  deriving DecidableEq, Repr, Inhabited

/-- Stones, groups, and the identities that come next. -/
structure Model (α : Type) where
  /-- The point at which the cell of zeros begins. -/
  origin : Vec3 α
  stones : List (Stone α)
  nextStone : Int32
  groups : List Group
  nextGroup : Int32
  /-- The level that the last query for a cell answered. -/
  lastLevel : Int
  deriving DecidableEq, Repr, Inhabited

/-- What became of a stone that was to be placed. -/
inductive Placed where
  /-- The model holds it under this id. -/
  | stored (id : Int32)
  /-- It would overlap a stone. -/
  | blocked
  /-- No shape has its type code. -/
  | unknownShape
  /-- A stone has the id that was asked for. -/
  | idTaken (id : Int32)
  deriving DecidableEq, Repr

namespace Placed

/-- The model holds the stone. -/
def isStored : Placed → Bool
  | stored _ => true
  | _ => false

end Placed

namespace Model

variable {α : Type}

/-- The stone with an id. -/
def stone? (m : Model α) (id : Int32) : Option (Stone α) := m.stones.find? (·.id == id)

/-- The selected stones. -/
def selection (m : Model α) : List (Stone α) := m.stones.filter (·.selected)

/-- The group with an id. -/
def group? (m : Model α) (id : Int32) : Option Group := m.groups.find? (·.id == id)

/-- The stones of a group that are still there, in the order of the group. -/
def groupStones (m : Model α) (id : Int32) : List (Stone α) :=
  match m.group? id with
  | some g => g.members.filterMap m.stone?
  | none => []

/-- The model with every stone replaced. -/
def mapStones (m : Model α) (f : Stone α → Stone α) : Model α :=
  { m with stones := m.stones.map f }

/-- The model with its cell of zeros at another point; the stones come with it. -/
def withOrigin (m : Model α) (origin : Vec3 α) : Model α := { m with origin }

variable [Scalar α]

/-- No stones and no groups. -/
def empty : Model α := ⟨0, [], 0, [], 0, 0⟩

/-- The box of a stone in the world. -/
def worldBox (m : Model α) (s : Stone α) : Box α := s.boxFrom m.origin

/-- The part of a stone that no other may enter. -/
def core (m : Model α) (s : Stone α) : Box α := (m.worldBox s).shrunk Grid.clearance

/-- The unselected stone that a placement would become, if its shape is known; its id is open. -/
def candidate? (c : Catalog α) (insertId : Int32) (p : Placement) : Option (Stone α) :=
  let turns := foldTurns p.turns
  (c.boxAt? p.code (degrees turns)).map fun box =>
    ⟨0, insertId, p.color, p.code, turns, p.cell, false, box⟩

/-- A stone of the model stands in the way. -/
def blocks (m : Model α) (s : Stone α) : Bool :=
  let core := m.core s
  m.stones.any fun t => (m.core t).overlaps core

/-- Places a stone, under the given id or else under the next one.

The next id stays above every id that was given, except that it starts again from the least number
after the greatest. -/
def place (m : Model α) (c : Catalog α) (id : Option Int32) (insertId : Int32) (p : Placement) :
    Placed × Model α :=
  match candidate? c insertId p with
  | none => (.unknownShape, m)
  | some s =>
    if m.blocks s then (.blocked, m) else
    match id with
    | some id =>
      if (m.stone? id).isSome then (.idTaken id, m)
      else (.stored id,
        { m with stones := m.stones ++ [{ s with id }], nextStone := max m.nextStone (id + 1) })
    | none =>
      (.stored m.nextStone,
        { m with stones := m.stones ++ [{ s with id := m.nextStone }], nextStone := m.nextStone + 1 })

/-- Places stones one after the other under one insert id, each where nothing stands in the way, and
counts those that were placed. -/
def placeAll (m : Model α) (c : Catalog α) (insertId : Int32) : List Placement → Nat × Model α
  | [] => (0, m)
  | p :: ps =>
    let (placed, m) := m.place c none insertId p
    let (count, m) := placeAll m c insertId ps
    (if placed.isStored then count + 1 else count, m)

end Model

end Masonry
