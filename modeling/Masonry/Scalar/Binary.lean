import Masonry.Scalar

/-!
# IEEE binary formats

A number is held as its word, so that storing it keeps every bit, those of an undefined number
included. Arithmetic goes through the machine's floating point; a conversion to an integer clamps to
the signed 32-bit range and sends an undefined number to zero.
-/

namespace Masonry

/-- A double precision number, as its 64-bit word. -/
structure Binary64 where
  word : UInt64
  deriving DecidableEq, Repr, Inhabited

/-- A single precision number, as its 32-bit word. -/
structure Binary32 where
  word : UInt32
  deriving DecidableEq, Repr, Inhabited

namespace Binary64

/-- The number as the machine computes with it. -/
@[inline] def toFloat (x : Binary64) : Float := Float.ofBits x.word

/-- The word of a number of the machine. -/
@[inline] def ofFloat (f : Float) : Binary64 := ⟨f.toBits⟩

/-- A conversion to a signed 32-bit integer truncates and clamps; an undefined number gives zero. -/
def clamped (f : Float) : Int := f.toInt32.toInt

instance : Scalar Binary64 where
  zero := ofFloat 0
  one := ofFloat 1
  add a b := ofFloat (a.toFloat + b.toFloat)
  sub a b := ofFloat (a.toFloat - b.toFloat)
  mul a b := ofFloat (a.toFloat * b.toFloat)
  div a b := ofFloat (a.toFloat / b.toFloat)
  neg a := ofFloat (-a.toFloat)
  lt a b := a.toFloat < b.toFloat
  le a b := a.toFloat ≤ b.toFloat
  ofScientific m s e := ofFloat (OfScientific.ofScientific m s e)
  decLt a b := inferInstanceAs (Decidable (a.toFloat < b.toFloat))
  decLe a b := inferInstanceAs (Decidable (a.toFloat ≤ b.toFloat))
  ofInt n := ofFloat (Float.ofInt n)
  isZero a := a.toFloat == 0
  isFinite a := a.toFloat.isFinite
  sqrt a := ofFloat a.toFloat.sqrt
  sin a := ofFloat a.toFloat.sin
  cos a := ofFloat a.toFloat.cos
  halfTurn := ⟨0x400921fb54442d18⟩
  floor a := clamped a.toFloat.floor
  trunc a := clamped a.toFloat
  fraction d := ofFloat (Float.ofNat d / Float.pow 10 (Float.ofNat d).log10.ceil)

/-- The nearest single precision number. -/
def narrow (x : Binary64) : Binary32 := ⟨x.toFloat.toFloat32.toBits⟩

/-- The number is undefined. -/
def isNaN (x : Binary64) : Bool := x.toFloat.isNaN

end Binary64

namespace Binary32

/-- The number as the machine computes with it. -/
@[inline] def toFloat (x : Binary32) : Float32 := Float32.ofBits x.word

/-- The word of a number of the machine. -/
@[inline] def ofFloat (f : Float32) : Binary32 := ⟨f.toBits⟩

/-- A conversion to a signed 32-bit integer truncates and clamps; an undefined number gives zero. -/
def clamped (f : Float32) : Int := f.toInt32.toInt

instance : Scalar Binary32 where
  zero := ofFloat 0
  one := ofFloat 1
  add a b := ofFloat (a.toFloat + b.toFloat)
  sub a b := ofFloat (a.toFloat - b.toFloat)
  mul a b := ofFloat (a.toFloat * b.toFloat)
  div a b := ofFloat (a.toFloat / b.toFloat)
  neg a := ofFloat (-a.toFloat)
  lt a b := a.toFloat < b.toFloat
  le a b := a.toFloat ≤ b.toFloat
  ofScientific m s e := ofFloat (OfScientific.ofScientific m s e)
  decLt a b := inferInstanceAs (Decidable (a.toFloat < b.toFloat))
  decLe a b := inferInstanceAs (Decidable (a.toFloat ≤ b.toFloat))
  ofInt n := ofFloat (Float32.ofInt n)
  isZero a := a.toFloat == 0
  isFinite a := a.toFloat.isFinite
  sqrt a := ofFloat a.toFloat.sqrt
  sin a := ofFloat a.toFloat.sin
  cos a := ofFloat a.toFloat.cos
  halfTurn := ⟨0x40490fdb⟩
  floor a := clamped a.toFloat.floor
  trunc a := clamped a.toFloat
  fraction d := ofFloat (Float32.ofNat d / Float32.pow 10 (Float32.ofNat d).log10.ceil)

/-- The number is undefined. -/
def isNaN (x : Binary32) : Bool := x.toFloat.isNaN

end Binary32

/-- A scalar that is stored as a 64-bit word without loss. -/
class Stored (α : Type) where
  /-- The word that stands for a number. -/
  toWord : α → UInt64
  /-- The number that a word stands for. -/
  ofWord : UInt64 → α
  /-- Storing a number loses nothing. -/
  ofWord_toWord : ∀ x, ofWord (toWord x) = x

instance : Stored Binary64 where
  toWord := Binary64.word
  ofWord := Binary64.mk
  ofWord_toWord _ := rfl

end Masonry
