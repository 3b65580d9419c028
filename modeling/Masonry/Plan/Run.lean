import Masonry.Space.Vector

/-!
# Runs of stones

A run lays whole stones from a position along one axis toward a coordinate, and ends at the position
from which the next run starts around the corner. A side of a wall that is not laid is run through
all the same, so that the sides after it start where they should.
-/

namespace Masonry

/-- A horizontal axis. -/
inductive Axis where
  | x
  | z
  deriving DecidableEq, Repr

namespace Axis

/-- The other horizontal axis. -/
def other : Axis → Axis
  | x => z
  | z => x

/-- The coordinate of a cell along the axis. -/
def of : Axis → Cell → Int
  | x, c => c.x
  | z, c => c.z

/-- The cell with its coordinate along the axis replaced. -/
def put : Axis → Cell → Int → Cell
  | x, c, value => { c with x := value }
  | z, c, value => { c with z := value }

/-- The cell moved along the axis. -/
def move (a : Axis) (c : Cell) (offset : Int) : Cell := a.put c (a.of c + offset)

@[simp] theorem other_other (a : Axis) : a.other.other = a := by cases a <;> rfl

@[simp] theorem of_put (a : Axis) (c : Cell) (value : Int) : a.of (a.put c value) = value := by
  cases a <;> rfl

@[simp] theorem of_other_put (a : Axis) (c : Cell) (value : Int) :
    a.other.of (a.put c value) = a.other.of c := by
  cases a <;> rfl

end Axis

/-- One step from a coordinate toward another; from the destination itself it goes up. -/
def stepToward (value dest step : Int) : Int := if value > dest then value - step else value + step

/-- The coordinates after each of a number of steps toward a destination. -/
def stepsToward (dest step : Int) : Nat → Int → List Int
  | 0, _ => []
  | n + 1, value =>
    let next := stepToward value dest step
    next :: stepsToward dest step n next

@[simp] theorem length_stepsToward (dest step : Int) (n : Nat) (value : Int) :
    (stepsToward dest step n value).length = n := by
  induction n generalizing value with
  | zero => rfl
  | succ n ih => simp [stepsToward, ih]

/-- How many whole steps lie between two coordinates. -/
def wholeSteps (value dest step : Int) : Nat := ((value - dest).natAbs / step).toNat

/-- One side of a wall. -/
structure Side where
  axis : Axis
  /-- The coordinate along the axis that the side runs toward. -/
  dest : Int
  /-- The stones of the side are placed. -/
  laid : Bool
  /-- The stones lie a quarter turn across those of the brush. -/
  across : Bool
  /-- The corner at the end lies toward lower coordinates of the other axis. -/
  cornerBack : Bool
  deriving DecidableEq, Repr

namespace Side

/-- The coordinates of the stones along the axis of the side. -/
def coordinates (s : Side) (length : Int) (start : Cell) : List Int :=
  let value := s.axis.of start
  stepsToward s.dest length (wholeSteps value s.dest length) value

/-- The cells of the stones of the side. -/
def cells (s : Side) (length : Int) (start : Cell) : List Cell :=
  (s.coordinates length start).map (s.axis.put start)

/-- How far the next side starts from the last stone, along either axis: nearly a stone's length if
a stone's width is left over, else nearly its width. -/
def cornerOffset (s : Side) (length width : Int) (start : Cell) : Int :=
  let last := ((s.coordinates length start).getLast?).getD (s.axis.of start)
  if (last - s.dest).natAbs ≥ width then length - 1 else width - 1

/-- The cell from which the next side starts. -/
def nextStart (s : Side) (length width : Int) (start : Cell) : Cell :=
  let last := ((s.cells length start).getLast?).getD start
  let offset := s.cornerOffset length width start
  let onward := s.axis.move last (if s.axis.of start ≤ s.dest then offset else -offset)
  s.axis.other.move onward (if s.cornerBack then -offset else offset)

end Side

end Masonry
