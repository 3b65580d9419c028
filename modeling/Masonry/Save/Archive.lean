import Masonry.Model
import Masonry.Save.Bytes

/-!
# Archives

An `Archive` is what the bytes of a saved model say:

```text
archive = 4-byte magic, version, next insert id
          8-byte origin x, y, z
          stone count, stones, next stone id
          group count, next group id, groups
stone   = id, insert id, color, code, turns, cell x, y, z
group   = id, 2-byte length and UTF-8 name, member count, member ids
```

All numbers not said otherwise have four bytes. `Archive.writes` says how an archive is written and
`Archive.decode` reads one; what follows its last byte is left unread.
-/

namespace Masonry.Save

/-- A stone as it is stored: any number of quarter turns is allowed. -/
structure StoredStone where
  id : Int32
  insertId : Int32
  color : Color
  code : Int32
  turns : Int
  cell : Cell
  deriving DecidableEq, Repr, Inhabited

/-- The content of a saved model. -/
structure Archive where
  nextInsert : Int32
  /-- The words of the origin. -/
  origin : Vec3 UInt64
  stones : List StoredStone
  nextStone : Int32
  nextGroup : Int32
  groups : List Group
  deriving DecidableEq, Repr, Inhabited

/-- The word that saved models begin with: the letters `BLCS`. -/
def magic : Int32 := 0x424C4353

/-- The version of the format. -/
def version : Int32 := 1

namespace StoredStone

/-- How a stone is written. -/
def writes (s : StoredStone) : List Write :=
  [.int32 s.id, .int32 s.insertId, .int32 (Int32.ofNat s.color.index), .int32 s.code,
    .int32 (Int32.ofInt s.turns), .int32 (Int32.ofInt s.cell.x), .int32 (Int32.ofInt s.cell.y),
    .int32 (Int32.ofInt s.cell.z)]

/-- Reads a stone. -/
def decode : Decoder StoredStone := do
  let id ← Decoder.int32
  let insertId ← Decoder.int32
  let index ← Decoder.int32
  match Color.ofIndex? index.toInt with
  | none => throw (.unknownColor index)
  | some color =>
    let code ← Decoder.int32
    let turns ← Decoder.int32
    let x ← Decoder.int32
    let y ← Decoder.int32
    let z ← Decoder.int32
    return ⟨id, insertId, color, code, turns.toInt, ⟨x.toInt, y.toInt, z.toInt⟩⟩

end StoredStone

/-- How a group is written. -/
def writesGroup (g : Group) : List Write :=
  [.int32 g.id] ++ Write.text g.name ++ [Write.count g.members.length] ++ g.members.map Write.int32

/-- Reads a group. -/
def decodeGroup : Decoder Group := do
  let id ← Decoder.int32
  let name ← Decoder.text
  let members ← Decoder.times (← Decoder.count) Decoder.int32
  return ⟨id, name, members⟩

namespace Archive

/-- How an archive is written. -/
def writes (a : Archive) : List Write :=
  [.int32 magic, .int32 version, .int32 a.nextInsert,
    .word64 a.origin.x, .word64 a.origin.y, .word64 a.origin.z,
    Write.count a.stones.length] ++ a.stones.flatMap StoredStone.writes ++
  [.int32 a.nextStone, Write.count a.groups.length, .int32 a.nextGroup] ++
    a.groups.flatMap writesGroup

/-- Reads an archive; its first two words are checked before anything else is read. -/
def decode : Decoder Archive := do
  let word ← Decoder.int32
  if word ≠ magic then throw (.wrongMagic word)
  let number ← Decoder.int32
  if number ≠ version then throw (.unknownVersion number)
  let nextInsert ← Decoder.int32
  let x ← Decoder.word64
  let y ← Decoder.word64
  let z ← Decoder.word64
  let stones ← Decoder.times (← Decoder.count) StoredStone.decode
  let nextStone ← Decoder.int32
  let groupCount ← Decoder.count
  let nextGroup ← Decoder.int32
  let groups ← Decoder.times groupCount decodeGroup
  return ⟨nextInsert, ⟨x, y, z⟩, stones, nextStone, nextGroup, groups⟩

end Archive

end Masonry.Save
