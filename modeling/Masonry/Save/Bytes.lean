import Masonry.Save.Fault

/-!
# Bytes in and out

Numbers are stored with the most significant byte first. A `Decoder` takes values from the front of
the bytes. What is written is described by a list of `Write`s, and `Write.run` carries it out on a
sink with limited or unlimited room. Main statement: a number is read back as it was written.
-/

namespace Masonry.Save

/-- The last `k` digits of a number to the base 256, most significant first. -/
def bigEndian : Nat → Nat → List UInt8
  | 0, _ => []
  | k + 1, n => bigEndian k (n / 256) ++ [UInt8.ofNat n]

/-- The number with the given digits to the base 256. -/
def ofBigEndian (bytes : List UInt8) : Nat := bytes.foldl (fun n b => 256 * n + b.toNat) 0

/-- How many numbers `k` digits to the base 256 tell apart. -/
def bigEndianBound : Nat → Nat
  | 0 => 1
  | k + 1 => 256 * bigEndianBound k

theorem length_bigEndian (k n : Nat) : (bigEndian k n).length = k := by
  induction k generalizing n with
  | zero => rfl
  | succ k ih => simp [bigEndian, ih]

theorem ofBigEndian_append_singleton (bytes : List UInt8) (b : UInt8) :
    ofBigEndian (bytes ++ [b]) = 256 * ofBigEndian bytes + b.toNat := by
  simp [ofBigEndian, List.foldl_append]

theorem ofBigEndian_bigEndian (k n : Nat) :
    ofBigEndian (bigEndian k n) = n % bigEndianBound k := by
  induction k generalizing n with
  | zero => simp [bigEndian, bigEndianBound, ofBigEndian, Nat.mod_one]
  | succ k ih =>
    have last : (UInt8.ofNat n).toNat = n % 256 := UInt8.toNat_ofNat'
    rw [bigEndian, ofBigEndian_append_singleton, ih, last, bigEndianBound, Nat.mod_mul]
    exact Nat.add_comm _ _

/-! ## Reading -/

/-- Takes a value from the front of the bytes. -/
abbrev Decoder := StateT (List UInt8) (Except SaveFault)

/-- The first `k` bytes and the rest, if there are as many. -/
def splitExactly : Nat → List UInt8 → Option (List UInt8 × List UInt8)
  | 0, bytes => some ([], bytes)
  | _ + 1, [] => none
  | k + 1, b :: bytes => (splitExactly k bytes).map fun (front, rest) => (b :: front, rest)

namespace Decoder

/-- The next `k` bytes. -/
def bytes (k : Nat) : Decoder (List UInt8) := fun input =>
  match splitExactly k input with
  | some (front, rest) => .ok (front, rest)
  | none => .error (.file .endOfInput)

/-- A number of `k` bytes. -/
def number (k : Nat) : Decoder Nat := return ofBigEndian (← bytes k)

/-- A signed number of four bytes. -/
def int32 : Decoder Int32 := return (UInt32.ofNat (← number 4)).toInt32

/-- A word of eight bytes. -/
def word64 : Decoder UInt64 := return UInt64.ofNat (← number 8)

/-- The number of elements of a list. -/
def count : Decoder Nat := do
  let n ← int32
  if n < 0 then throw (.negativeCount n)
  return n.toNatClampNeg

/-- A text after its length in two bytes. -/
def text : Decoder String := do
  match decodeText (← bytes (← number 2)) with
  | .ok text => return text
  | .error _ => throw .nameNotText

/-- As many values as given, one after the other. -/
def times {β : Type} : Nat → Decoder β → Decoder (List β)
  | 0, _ => return []
  | n + 1, d => do
    let b ← d
    let bs ← times n d
    return b :: bs

end Decoder

/-! ## Writing -/

/-- A step of writing. -/
inductive Write where
  | bytes (chunk : List UInt8)
  /-- What comes next cannot be written. -/
  | refuse (fault : SaveFault)
  deriving DecidableEq, Repr

namespace Write

/-- A signed number in four bytes. -/
def int32 (n : Int32) : Write := .bytes (bigEndian 4 n.toUInt32.toNat)

/-- A word in eight bytes. -/
def word64 (w : UInt64) : Write := .bytes (bigEndian 8 w.toNat)

/-- The number of elements of a list, which has to fit a signed number of four bytes. -/
def count (n : Nat) : Write :=
  if n < 2147483648 then int32 (Int32.ofNat n) else .refuse (.file .tooManyElements)

/-- A text after its length, which has to fit two bytes. -/
def text (s : String) : List Write :=
  let utf8 := encodeText s
  if utf8.length < 65536 then [.bytes (bigEndian 2 utf8.length), .bytes utf8]
  else [.refuse (.nameTooLong utf8.length)]

/-- Carries out the steps on a sink that takes no more than `room` bytes, or any number of them: the
bytes that were taken, and why writing stopped early. -/
def run (room : Option Nat) : List Write → List UInt8 × Option SaveFault
  | [] => ([], none)
  | .refuse fault :: _ => ([], some fault)
  | .bytes chunk :: rest =>
    match room with
    | none =>
      let (taken, fault) := run none rest
      (chunk ++ taken, fault)
    | some room =>
      if room < chunk.length then (chunk.take room, some (.file .noRoom))
      else
        let (taken, fault) := run (some (room - chunk.length)) rest
        (chunk ++ taken, fault)

end Write

end Masonry.Save
