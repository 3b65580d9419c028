import Masonry.Save.Archive

/-!
# Saving and loading models

A model is saved as an archive of its stones and groups, without group members whose stone is gone.
Loading places the stones of an archive one after the other, so each gets its box from the present
catalog, and those without a shape, without room or with a repeated id are left out. Nothing is
loaded unless the whole archive can be read.
-/

namespace Masonry

open Save

/-- What a saved model is loaded as. -/
structure Document (α : Type) where
  /-- The insert id that is given out next. -/
  nextInsert : Int32
  model : Model α
  deriving DecidableEq, Repr, Inhabited

namespace Stone

/-- The stone as it is stored. -/
def stored {α : Type} (s : Stone α) : StoredStone :=
  ⟨s.id, s.insertId, s.color, s.code, s.turns, s.cell⟩

end Stone

namespace Model

variable {α : Type} [Scalar α]

/-- The content that a model is saved with. -/
def archive [Stored α] (m : Model α) (nextInsert : Int32) : Archive where
  nextInsert := nextInsert
  origin := m.origin.map Stored.toWord
  stones := m.stones.map Stone.stored
  nextStone := m.nextStone
  nextGroup := m.nextGroup
  groups := m.groups.map fun g => { g with members := (m.groupStones g.id).map (·.id) }

/-- Places a stored stone, if there is a shape and room for it. -/
def placeStored (c : Catalog α) (m : Model α) (s : StoredStone) : Model α :=
  (m.place c (some s.id) s.insertId (.folded s.code s.color s.turns s.cell)).2

/-- The model that an archive describes with the shapes of a catalog. -/
def ofArchive [Stored α] (c : Catalog α) (a : Archive) : Model α :=
  let start : Model α := empty.withOrigin (a.origin.map Stored.ofWord)
  let m := a.stones.foldl (placeStored c) start
  { m with
    nextStone := max m.nextStone a.nextStone
    nextGroup := a.nextGroup
    groups := a.groups.map fun g =>
      { g with members := g.members.filter fun id => (m.stone? id).isSome } }

/-- Saves a model into a sink with limited or unlimited room: the bytes that were taken, and why
saving failed. -/
def save [Stored α] (m : Model α) (nextInsert : Int32) (room : Option Nat) :
    List UInt8 × Option SaveFault :=
  Write.run room (m.archive nextInsert).writes

/-- The bytes of a saved model. -/
def saved [Stored α] (m : Model α) (nextInsert : Int32) : Except SaveFault (List UInt8) :=
  match m.save nextInsert none with
  | (bytes, none) => .ok bytes
  | (_, some fault) => .error fault

/-- Saves a model to a file. The file is replaced before anything is written, so if saving fails it
holds the bytes up to the fault. -/
def saveTo [Stored α] (m : Model α) (nextInsert : Int32) (fs : Files) (path : String) :
    Option SaveFault × Files :=
  let (bytes, fault) := m.save nextInsert none
  match fs.write path bytes with
  | .ok fs => (fault, fs)
  | .error fault => (some (.file fault), fs)

end Model

namespace Document

variable {α : Type} [Scalar α] [Stored α]

/-- Loads a saved model from the front of the bytes, with the bytes that follow it. -/
def loadPart (c : Catalog α) (bytes : List UInt8) : Except SaveFault (Document α × List UInt8) := do
  let (a, rest) ← Archive.decode bytes
  return (⟨a.nextInsert, .ofArchive c a⟩, rest)

/-- Loads a saved model; bytes that follow it do not matter. -/
def load (c : Catalog α) (bytes : List UInt8) : Except SaveFault (Document α) :=
  (loadPart c bytes).map Prod.fst

/-- Loads a saved model from a file. -/
def loadFrom (c : Catalog α) (fs : Files) (path : String) : Except SaveFault (Document α) :=
  match fs.read path with
  | .ok bytes => load c bytes
  | .error fault => .error (.file fault)

end Document

end Masonry
