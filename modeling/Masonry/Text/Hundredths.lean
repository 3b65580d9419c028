import Masonry.Scalar.Binary

/-!
# Two decimal places

A number is written with two decimal places by rounding its exact value, a half to the
even neighbor. A negative sign is kept in front of zero.
-/

namespace Masonry

namespace Text

/-- The quotient rounded to the nearest integer, a half to the even one. -/
def roundHalfEven (n d : Nat) : Nat :=
  let q := n / d
  let r := n % d
  if 2 * r < d ∨ (2 * r = d ∧ q % 2 = 0) then q else q + 1

example : [roundHalfEven 1 2, roundHalfEven 3 2, roundHalfEven 5 2, roundHalfEven 7 4] = [0, 2, 2, 2] := by
  decide

/-- A number of hundredths, with a point before the last two digits. -/
def hundredths (n : Nat) : String :=
  toString (n / 100) ++ String.ofList ['.', Nat.digitChar (n / 10 % 10), Nat.digitChar (n % 10)]

/-- The text with blanks before it up to a width. -/
def padLeft (width : Nat) (text : String) : String :=
  String.ofList (List.replicate (width - text.length) ' ') ++ text

/-- The text with blanks after it up to a width. -/
def padRight (width : Nat) (text : String) : String :=
  text ++ String.ofList (List.replicate (width - text.length) ' ')

end Text

namespace Binary64

/-- The number has a negative sign, which zero can have too. -/
def isNegative (x : Binary64) : Bool := x.word >>> 63 == 1

/-- The magnitude of a finite number in units of `2 ^ -1074`, and of no other. -/
def magnitude? (x : Binary64) : Option Nat :=
  let exponent := (x.word >>> 52 &&& 0x7FF).toNat
  let fraction := (x.word &&& 0xFFFFFFFFFFFFF).toNat
  if exponent = 0x7FF then none
  else if exponent = 0 then some fraction
  else some ((0x10000000000000 + fraction) <<< (exponent - 1))

/-- The number with two decimal places. -/
def toHundredths (x : Binary64) : String :=
  let sign := if x.isNegative then "-" else ""
  match x.magnitude? with
  | some m => sign ++ Text.hundredths (Text.roundHalfEven (m * 100) (1 <<< 1074))
  | none => if x.isNaN then "NaN" else sign ++ "inf"

end Binary64

end Masonry
