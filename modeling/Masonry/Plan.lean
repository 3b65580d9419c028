import Masonry.Stone
import Masonry.Plan.Run

/-!
# Plans

A plan lists the placements that a brush and a drag from an anchor cell to another ask for, layer by
layer. A filled brush covers the rectangle between the cells. Any other walls its border in running
bond: even layers start at the anchor, odd layers one cell diagonally off it, which sets the joints
of neighboring layers apart. A drag along the brush's long axis is a straight wall, whose odd layers
start two cells further on. With `edgeOnly` two adjacent sides of a border are placed, which two
depends on the direction of the drag; the other sides are left out.

A plan does not look at the model: stones in the way are refused when it is carried out.
-/

namespace Masonry

/-- What is placed by a drag. -/
structure Brush where
  /-- The type code of the stones. -/
  code : Int32
  color : Color
  /-- Quarter turns about the vertical axis. -/
  turns : Nat
  /-- The number of layers. -/
  layers : Nat
  /-- Cover the rectangle of the drag, instead of walling its border. -/
  filled : Bool
  /-- Place two sides of a border only. -/
  edgeOnly : Bool
  deriving DecidableEq, Repr, Inhabited

namespace Brush

/-- The brush of a new editor. -/
def default : Brush := ⟨432, .white, 0, 1, false, false⟩

/-- The brush is turned by an odd number of quarters. -/
def sideways (b : Brush) : Bool := b.turns % 2 != 0

/-- The extents of the stones: length, height in levels and width. Those of a filled brush are taken
along the axes of the grid. -/
def size (b : Brush) : Cell :=
  let s := footprint b.code
  if b.filled && b.sideways then ⟨s.z, s.y, s.x⟩ else s

/-- The axis along which the length of the stones lies. -/
def longAxis (b : Brush) : Axis := if b.sideways then .z else .x

/-- A stone of the brush in a cell, a quarter turn across if asked for. -/
def stone (b : Brush) (across : Bool) (cell : Cell) : Placement :=
  .folded b.code b.color (b.turns + if across then 1 else 0) cell

end Brush

namespace Plan

/-- The cells from which the layers of a plan start, each with the number of its layer. -/
def layers (b : Brush) (anchor : Cell) : List (Nat × Cell) :=
  (List.range b.layers).map fun row => (row, { anchor with y := anchor.y + row * b.size.y })

/-- A stack of stones at a cell; empty if the stones have no height. -/
def stack (b : Brush) (anchor : Cell) : List Placement :=
  if b.size.y ≤ 0 then [] else (layers b anchor).map fun layer => b.stone false layer.2

/-- The coordinates that cover the way from one to another in steps, the first included. -/
def covering (start dest step : Int) : List Int :=
  start :: stepsToward dest step (wholeSteps start dest step) start

/-- A layer of a filled brush. -/
def slabLayer (b : Brush) (anchor drag : Cell) : List Placement :=
  (covering anchor.x drag.x b.size.x).flatMap fun x =>
    (covering anchor.z drag.z b.size.z).map fun z => b.stone false ⟨x, anchor.y, z⟩

/-- The stones of sides that are walked one after the other. -/
def walk (b : Brush) : Cell → List Side → List Placement
  | _, [] => []
  | start, s :: sides =>
    (if s.laid then (s.cells b.size.x start).map (b.stone s.across) else []) ++
      walk b (s.nextStart b.size.x b.size.z start) sides

/-- Which of the four sides of a border are placed, in the order in which even layers of a brush
along the axis visit them: all, or the first two, or the last two. -/
def placedSides (b : Brush) (anchor drag : Cell) : Bool × Bool :=
  if !b.edgeOnly then (true, true) else
  let same := decide (drag.x ≥ anchor.x) == decide (drag.z ≥ anchor.z)
  match b.longAxis with
  | .x => (same, !same)
  | .z => (!same, same)

/-- A layer of a straight wall. -/
def straightLayer (b : Brush) (row : Nat) (anchor drag : Cell) : List Placement :=
  let long := b.longAxis
  let forward := decide (long.of drag ≥ long.of anchor)
  let start := if row % 2 = 0 then anchor else long.move anchor (if forward then 2 else -2)
  b.stone false start :: walk b start [⟨long, long.of drag, true, false, false⟩]

/-- An even layer of a border: around the rectangle from the anchor, along the long axis first. -/
def evenLayer (b : Brush) (anchor drag : Cell) : List Placement :=
  let long := b.longAxis
  let short := long.other
  let forward := decide (long.of drag ≥ long.of anchor)
  let sideward := decide (short.of drag ≥ short.of anchor)
  let (near, far) := placedSides b anchor drag
  (if near then [b.stone false anchor] else []) ++ walk b anchor
    [⟨long, long.of drag, near, false, sideward⟩, ⟨short, short.of drag, near, true, !forward⟩,
      ⟨long, long.of anchor, far, false, !sideward⟩, ⟨short, short.of anchor, far, true, forward⟩]

/-- An odd layer of a border: around the rectangle the other way, along the short axis first. -/
def oddLayer (b : Brush) (anchor drag : Cell) : List Placement :=
  let long := b.longAxis
  let short := long.other
  let forward := decide (long.of drag ≥ long.of anchor)
  let sideward := decide (short.of drag ≥ short.of anchor)
  let (near, far) := placedSides b anchor drag
  let start := short.move (long.move anchor (if forward then -1 else 1)) (if sideward then 1 else -1)
  (if b.edgeOnly then [] else [b.stone true start]) ++ walk b start
    [⟨short, short.of drag, far, true, forward⟩, ⟨long, long.of drag, far, false, !sideward⟩,
      ⟨short, short.of anchor, near, true, !forward⟩, ⟨long, long.of anchor, near, false, sideward⟩]

/-- A layer of a plan. -/
def layer (b : Brush) (row : Nat) (anchor drag : Cell) : List Placement :=
  if b.filled then slabLayer b anchor drag
  else if b.longAxis.other.of drag = b.longAxis.other.of anchor then
    straightLayer b row anchor drag
  else if row % 2 = 0 then evenLayer b anchor drag
  else oddLayer b anchor drag

/-- The stones for a drag; none if the stones have no extent along some axis. -/
def drag (b : Brush) (anchor dest : Cell) : List Placement :=
  if b.size.x ≤ 0 ∨ b.size.y ≤ 0 ∨ b.size.z ≤ 0 then [] else
  (layers b anchor).flatMap fun (row, start) => layer b row start dest

end Plan

end Masonry
