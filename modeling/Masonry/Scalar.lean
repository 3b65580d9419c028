/-!
# Scalars

Coordinates are numbers of a type that the whole library is parametric in. `Scalar` lists the
operations geometry needs of them and assumes no law: `Masonry.Scalar.Binary` gives the IEEE formats
the program computes with, and every definition over a `Scalar` can also be read over exact numbers.
-/

namespace Masonry

/-- The arithmetic of a coordinate type.

The order need not be total, so a number that compares with nothing is admitted. The unit of angles
is the type's own choice, made by `halfTurn`. -/
class Scalar (α : Type) extends Zero α, One α, Add α, Sub α, Mul α, Div α, Neg α, LT α, LE α,
    OfScientific α where
  /-- Comparison can be decided. -/
  decLt : DecidableLT α
  /-- Weak comparison can be decided. -/
  decLe : DecidableLE α
  /-- The number nearest to an integer. -/
  ofInt : Int → α
  /-- The number is a zero of either sign. -/
  isZero : α → Bool
  /-- The number is neither infinite nor undefined. -/
  isFinite : α → Bool
  /-- Square root. -/
  sqrt : α → α
  /-- Sine of an angle. -/
  sin : α → α
  /-- Cosine of an angle. -/
  cos : α → α
  /-- Half a turn, in the unit of angles that `sin` and `cos` take. -/
  halfTurn : α
  /-- The greatest integer below the number, within the integers the type converts to. -/
  floor : α → Int
  /-- The number without its fraction, within the integers the type converts to. -/
  trunc : α → Int
  /-- A run of fraction digits that reads `d > 0`: `d / 10 ^ k` for the least `k` with `d ≤ 10 ^ k`. -/
  fraction : Nat → α

namespace Scalar

variable {α : Type} [Scalar α]

instance : DecidableLT α := decLt
instance : DecidableLE α := decLe

/-- The smaller of two numbers, the second where they do not compare. -/
def least (a b : α) : α := if a < b then a else b

/-- The larger of two numbers, the second where they do not compare. -/
def greatest (a b : α) : α := if a > b then a else b

/-- The number written by a sign, a whole part and an optional run of fraction digits. -/
def decimal (negative : Bool) (whole : Nat) (digits : Option Nat) : α :=
  let magnitude : α := match digits with
    | none | some 0 => ofInt whole
    | some d => ofInt whole + fraction d
  if negative then -magnitude else magnitude

end Scalar

end Masonry
