import Masonry.Scalar

/-!
# Exact numbers

Rational numbers as scalars. Angles are counted in quarter turns, so that the sine and cosine of every
whole number of quarter turns are exact; those of other angles are those of the quarter turn before.
Square roots are exact for squares of rational numbers, and otherwise those of numerator and
denominator rounded down.
-/

namespace Masonry.Exact

/-- The sine of a number of quarter turns. -/
def sinQuarter (turns : Int) : Rat :=
  if turns % 4 = 1 then 1 else if turns % 4 = 3 then -1 else 0

/-- The greatest integer whose square is at most the given one. -/
def root : Nat → Nat
  | 0 => 0
  | n + 1 =>
    let r := root n
    if (r + 1) * (r + 1) ≤ n + 1 then r + 1 else r

/-- The least power of ten, of those up to the `k`-th, that is at least `d`; the `k`-th if none is. -/
def powerAbove (d : Nat) : Nat → Nat
  | 0 => 1
  | k + 1 =>
    let p := powerAbove d k
    if d ≤ p then p else 10 * p

instance : Scalar Rat where
  zero := Rat.ofInt 0
  one := Rat.ofInt 1
  add := Rat.add
  sub := Rat.sub
  mul := Rat.mul
  div := Rat.div
  neg := Rat.neg
  lt a b := a < b
  le a b := a ≤ b
  ofScientific m s e := Rat.ofScientific m s e
  decLt a b := inferInstanceAs (Decidable (a < b))
  decLe a b := inferInstanceAs (Decidable (a ≤ b))
  ofInt n := Rat.ofInt n
  isZero a := a.num == 0
  isFinite _ := true
  sqrt a := mkRat (root a.num.toNat) (root a.den)
  sin a := sinQuarter a.floor
  cos a := sinQuarter (a.floor + 1)
  halfTurn := Rat.ofInt 2
  floor a := a.floor
  trunc a := if a < Rat.ofInt 0 then -(Rat.neg a).floor else a.floor
  fraction d := mkRat d (powerAbove d (d.log2 + 1))

end Masonry.Exact
