import Masonry.Model.Selection
import Masonry.Plan
import Masonry.Save.Document
import Masonry.Settings

/-!
# Editing sessions

A session is a document together with the state of the hand that edits it. It answers signals of the
pointer, the keyboard and the menu. While stones are inserted it keeps a preview of the stones that
would be placed: a stack at the anchor cell, or while the button is held the plan of the drag from
the anchor. Releasing the button places the preview.
-/

namespace Masonry

/-- What the pointer does. -/
inductive Mode where
  /-- Clicks pick stones. -/
  | select
  /-- The cursor shows a stack. -/
  | insert
  /-- The button is held, and the drag shows a plan. -/
  | drag
  deriving DecidableEq, Repr, Inhabited

/-- A document and the state of the hand that edits it. -/
structure Session (α : Type) where
  catalog : Catalog α
  model : Model α
  mode : Mode
  brush : Brush
  hotkeys : Vector Int32 10
  /-- The insert id that is given out next. -/
  nextInsert : Int32
  /-- The level that the cursor moves on where it is over no stone. -/
  level : Int
  shift : Bool
  anchor : Cell
  dragEnd : Cell
  preview : List Placement
  deriving DecidableEq, Repr

namespace Session

variable {α : Type}

/-- The stones that the present mode and brush ask for. -/
def planned (s : Session α) : List Placement :=
  match s.mode with
  | .select => []
  | .insert => Plan.stack s.brush s.anchor
  | .drag => Plan.drag s.brush s.anchor s.dragEnd

/-- The session with an up-to-date preview. -/
def refresh (s : Session α) : Session α := { s with preview := s.planned }

/-- Gives out the next insert id, which starts again from the least number after the greatest. -/
def takeInsert (s : Session α) : Int32 × Session α :=
  (s.nextInsert, { s with nextInsert := s.nextInsert + 1 })

/-- Changes the brush. -/
def withBrush (s : Session α) (change : Brush → Brush) : Session α :=
  { s with brush := change s.brush }.refresh

/-- The button goes down. -/
def press (s : Session α) : Session α :=
  if s.mode = .insert then { s with mode := .drag, dragEnd := s.anchor }.refresh else s

/-- A number key selects a type code, unless stones are being selected. -/
def key (s : Session α) (number : Nat) : Session α :=
  if s.mode = .select then s else
  match s.hotkeys[number]? with
  | none => s
  | some code => s.withBrush fun b => { b with code }

/-- Clicks are to pick stones. -/
def selectMode (s : Session α) : Session α := { s with mode := .select }.refresh

/-- The cursor is to insert stones. -/
def insertMode [Scalar α] (s : Session α) : Session α :=
  { s with mode := .insert, model := s.model.deselect }.refresh

/-- Gives the selected stones an insert id of their own. -/
def separate (s : Session α) : Session α :=
  let (id, s) := s.takeInsert
  { s with model := s.model.separate id }

variable [Scalar α]

/-- A session with an empty model. -/
def start (c : Catalog α) (settings : Settings) : Session α :=
  refresh {
    catalog := c
    model := .empty
    mode := .insert
    brush := { Brush.default with
      code := settings.code, color := settings.color, layers := settings.layers.toNat }
    hotkeys := settings.hotkeys
    nextInsert := 0
    level := 0
    shift := false
    anchor := ⟨0, 0, 0⟩
    dragEnd := ⟨0, 0, 0⟩
    preview := [] }

/-- The cursor keeps to the level of the last answer: during a drag, and with the shift key while
stones are inserted. -/
def holdsLevel (s : Session α) : Bool := s.mode = .drag || (s.shift && s.mode = .insert)

/-- The cursor moves: the cell that the ray points at becomes the end of a drag, or else the anchor. A
ray that points at no cell changes nothing. -/
def moveTo (s : Session α) (r : Ray α) : Session α :=
  match s.model.cellAt r s.level s.holdsLevel with
  | (none, model) => { s with model }
  | (some cell, model) =>
    if s.mode = .drag then { s with model, dragEnd := cell }.refresh
    else { s with model, anchor := cell, dragEnd := cell }.refresh

/-- The button goes up: the preview is placed, under one insert id, and the stones that were placed
are counted. -/
def release (s : Session α) : Nat × Session α :=
  if s.mode ≠ .drag then (0, s) else
  let (id, s) := s.takeInsert
  let (count, model) := s.model.placeAll s.catalog id s.preview
  (count, { s with model, mode := .insert, dragEnd := s.anchor }.refresh)

/-- A click picks the stone that the ray meets first; a double click also those that share its insert
id, and the shift key keeps the selection. -/
def click (s : Session α) (r : Ray α) (double : Bool) : Option (Vec3 α) × Session α :=
  if s.mode ≠ .select then (none, s) else
  let (center, model) := s.model.pick r s.shift double
  (center, { s with model })

/-- Copies the selection, moved by a number of cells, under an insert id of its own. -/
def copySelection (s : Session α) (offset : Cell) : Nat × Session α :=
  let (id, s) := s.takeInsert
  let (count, model) := s.model.copySelection s.catalog offset id
  (count, { s with model })

/-- Starts an empty document. -/
def clear (s : Session α) : Session α := { s with model := .empty, nextInsert := 0 }.refresh

/-- The bytes of the document. -/
def save [Stored α] (s : Session α) : Except SaveFault (List UInt8) := s.model.saved s.nextInsert

/-- Replaces the document by a saved one, if the bytes are one. -/
def load [Stored α] (s : Session α) (bytes : List UInt8) : Option SaveFault × Session α :=
  match Document.load s.catalog bytes with
  | .error fault => (some fault, s)
  | .ok d => (none, { s with model := d.model, nextInsert := d.nextInsert }.refresh)

end Session

/-- What can happen to a session. -/
inductive Signal (α : Type) where
  | moveTo (ray : Ray α)
  | press
  | release
  | click (ray : Ray α) (double : Bool)
  | key (number : Nat)
  | setCode (code : Int32)
  | setColor (color : Color)
  | setLayers (layers : Nat)
  | turnBrush
  | setFilled (filled : Bool)
  | setEdgeOnly (edgeOnly : Bool)
  | levelUp
  | levelDown
  | setShift (held : Bool)
  | selectMode
  | insertMode
  | deleteSelection
  | moveSelection (offset : Cell)
  | copySelection (offset : Cell)
  | unite
  | separate
  | makeGroup (name : String)
  | deleteGroup (id : Int32)
  | selectGroup (id : Int32)
  | clear
  | save
  | load (bytes : List UInt8)
  deriving DecidableEq, Repr

/-- What a session answers to a signal. -/
inductive Reply (α : Type) where
  | nothing
  | count (stones : Nat)
  /-- The center of the selection, if stones are selected. -/
  | center (point : Option (Vec3 α))
  | group (id : Int32)
  | found (isThere : Bool)
  | saved (bytes : Except SaveFault (List UInt8))
  | loaded (fault : Option SaveFault)

namespace Session

variable {α : Type} [Scalar α] [Stored α]

/-- What a session answers to a signal, and the session after it. -/
def handle (s : Session α) : Signal α → Reply α × Session α
  | .moveTo ray => (.nothing, s.moveTo ray)
  | .press => (.nothing, s.press)
  | .release => let (count, s) := s.release; (.count count, s)
  | .click ray double => let (center, s) := s.click ray double; (.center center, s)
  | .key number => (.nothing, s.key number)
  | .setCode code => (.nothing, s.withBrush fun b => { b with code })
  | .setColor color => (.nothing, s.withBrush fun b => { b with color })
  | .setLayers layers => (.nothing, s.withBrush fun b => { b with layers })
  | .turnBrush => (.nothing, s.withBrush fun b => { b with turns := (b.turns + 1) % 4 })
  | .setFilled filled => (.nothing, s.withBrush fun b => { b with filled })
  | .setEdgeOnly edgeOnly => (.nothing, s.withBrush fun b => { b with edgeOnly })
  | .levelUp => (.nothing, { s with level := s.level + 1 })
  | .levelDown => (.nothing, { s with level := s.level - 1 })
  | .setShift held => (.nothing, { s with shift := held })
  | .selectMode => (.nothing, s.selectMode)
  | .insertMode => (.nothing, s.insertMode)
  | .deleteSelection =>
    let (count, model) := s.model.deleteSelection; (.count count, { s with model })
  | .moveSelection offset =>
    let (count, model) := s.model.moveSelection s.catalog offset; (.count count, { s with model })
  | .copySelection offset => let (count, s) := s.copySelection offset; (.count count, s)
  | .unite => (.nothing, { s with model := s.model.unite })
  | .separate => (.nothing, s.separate)
  | .makeGroup name => let (id, model) := s.model.makeGroup name; (.group id, { s with model })
  | .deleteGroup id =>
    let (isThere, model) := s.model.deleteGroup id; (.found isThere, { s with model })
  | .selectGroup id =>
    let (isThere, model) := s.model.selectGroup id; (.found isThere, { s with model })
  | .clear => (.nothing, s.clear)
  | .save => (.saved s.save, s)
  | .load bytes => let (fault, s) := s.load bytes; (.loaded fault, s)

/-- The session after signals, one after the other. -/
def run (s : Session α) (signals : List (Signal α)) : Session α :=
  signals.foldl (fun s signal => (s.handle signal).2) s

end Session

end Masonry
