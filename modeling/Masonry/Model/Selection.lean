import Masonry.Model.Cursor

/-!
# Edits of the selection

Deleting, moving, copying, joining and separating the selected stones, and the groups that remember
a selection.
-/

namespace Masonry.Model

variable {α : Type}

/-- Deletes the selected stones and counts them. -/
def deleteSelection (m : Model α) : Nat × Model α :=
  (m.selection.length, { m with stones := m.stones.filter (!·.selected) })

/-- Gives the selected stones an insert id. -/
def separate (m : Model α) (insertId : Int32) : Model α :=
  m.mapStones fun s => if s.selected then { s with insertId } else s

/-- Gives the selected stones the insert id of the first of them. -/
def unite (m : Model α) : Model α :=
  match m.selection with
  | [] => m
  | s :: _ => m.separate s.insertId

/-- Makes a group of the selection and answers its id. -/
def makeGroup (m : Model α) (name : String) : Int32 × Model α :=
  (m.nextGroup,
    { m with
      groups := m.groups ++ [⟨m.nextGroup, name, m.selection.map (·.id)⟩]
      nextGroup := m.nextGroup + 1 })

/-- Deletes the group with an id, if there is one. -/
def deleteGroup (m : Model α) (id : Int32) : Bool × Model α :=
  ((m.group? id).isSome, { m with groups := m.groups.eraseP (·.id == id) })

/-- Selects the stones of a group and no others. Without such a group nothing is selected. -/
def selectGroup (m : Model α) (id : Int32) : Bool × Model α :=
  match m.group? id with
  | none => (false, m.mapStones (·.select false))
  | some g => (true, m.mapStones fun s => s.select (g.members.contains s.id))

variable [Scalar α]

/-- Places stones again, moved by a number of cells, under their own ids, and counts those for which
there was room. -/
def replaceAll (m : Model α) (c : Catalog α) (offset : Cell) : List (Stone α) → Nat × Model α
  | [] => (0, m)
  | s :: rest =>
    let (placed, m) := m.place c (some s.id) s.insertId (s.placement.shifted offset)
    let (count, m) := replaceAll m c offset rest
    (if placed.isStored then count + 1 else count, m)

/-- Moves the selection by a number of cells and counts the stones that are still there: all selected
stones are taken out first, and one for which there is no room at its new cell is lost. -/
def moveSelection (m : Model α) (c : Catalog α) (offset : Cell) : Nat × Model α :=
  { m with stones := m.stones.filter (!·.selected) }.replaceAll c offset m.selection

/-- Copies the selection, moved by a number of cells, under an insert id, and counts the copies for
which there was room. -/
def copySelection (m : Model α) (c : Catalog α) (offset : Cell) (insertId : Int32) : Nat × Model α :=
  m.placeAll c insertId (m.selection.map (·.placement.shifted offset))

end Masonry.Model
