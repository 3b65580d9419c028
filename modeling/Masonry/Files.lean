/-!
# Files

Files as a table from paths to bytes, and what can go wrong with reading and writing. A path names
directories from the outermost; a directory is there if a file is in it or below it.
-/

namespace Masonry

/-- Why bytes cannot be read or written. -/
inductive FileFault where
  /-- The bytes end before a value is complete. -/
  | endOfInput
  /-- There is no room for all of the bytes. -/
  | noRoom
  /-- A list has more elements than its count can say. -/
  | tooManyElements
  /-- There is no such file, or no directory to put it in. -/
  | noSuchFile
  /-- The bytes are not UTF-8. -/
  | notText
  deriving DecidableEq, Repr

namespace FileFault

/-- The words for a fault. -/
def message : FileFault → String
  | endOfInput => "IO error: failed to fill whole buffer"
  | noRoom => "IO error: failed to write whole buffer"
  | tooManyElements => "IO error: element count exceeds i32"
  | noSuchFile => "IO error: No such file or directory (os error 2)"
  | notText => "IO error: stream did not contain valid UTF-8"

end FileFault

/-- The text that bytes encode, if they are UTF-8. -/
def decodeText (bytes : List UInt8) : Except FileFault String :=
  match String.fromUTF8? (ByteArray.mk bytes.toArray) with
  | some text => .ok text
  | none => .error .notText

/-- The bytes of a text. -/
def encodeText (text : String) : List UInt8 := text.toUTF8.toList

/-- The parts of a path between its slashes. -/
def pathParts (path : String) : List String := (path.splitOn "/")

/-- The files of a directory and the directories below it, by the parts of their paths. -/
structure Files where
  table : List (List String × List UInt8)
  deriving DecidableEq, Repr, Inhabited

namespace Files

/-- No files. -/
def empty : Files := ⟨[]⟩

/-- The path is that of a directory. -/
def isDirectory (fs : Files) (path : List String) : Bool :=
  path.isEmpty || fs.table.any fun (file, _) => path.isPrefixOf file && path.length < file.length

/-- The place that parts of a path lead to from a directory: an empty part and a dot stay in it, two
dots leave it. -/
def follow (fs : Files) : List String → List String → Option (List String)
  | here, [] => some here
  | here, part :: parts =>
    if !fs.isDirectory here then none
    else if part = "" ∨ part = "." then follow fs here parts
    else if part = ".." then if here.isEmpty then none else follow fs here.dropLast parts
    else follow fs (here ++ [part]) parts

/-- The place that a path leads to; absolute paths lead out of the table. -/
def resolve (fs : Files) (path : String) : Option (List String) :=
  match pathParts path with
  | "" :: _ => none
  | parts => fs.follow [] parts

/-- The bytes of a file. -/
def read (fs : Files) (path : String) : Except FileFault (List UInt8) :=
  match (fs.resolve path).bind fun place => fs.table.lookup place with
  | some bytes => .ok bytes
  | none => .error .noSuchFile

/-- The text of a file. -/
def readText (fs : Files) (path : String) : Except FileFault String :=
  fs.read path >>= decodeText

/-- The files after one is replaced or added. -/
def write (fs : Files) (path : String) (bytes : List UInt8) : Except FileFault Files :=
  match fs.resolve path with
  | none => .error .noSuchFile
  | some place =>
    if fs.isDirectory place then .error .noSuchFile
    else .ok ⟨(place, bytes) :: fs.table.filter (·.1 != place)⟩

end Files

end Masonry
