import Masonry.Catalog
import Masonry.Files
import Masonry.Shape.Reading

/-!
# Reading catalogs

A source describes a catalog shape by shape. Reading stops at the first fault, and the shapes that
were complete before it stay in the catalog.
-/

namespace Masonry

/-- Why a source does not describe a catalog. -/
inductive SourceFault where
  | token (fault : TokenFault)
  | shape (fault : ShapeFault)
  deriving DecidableEq, Repr

namespace SourceFault

/-- The words for a fault. -/
def message : SourceFault → String
  | .token .openLiteral => "unterminated string literal"
  | .token (.openComment line) => s!"unterminated block comment opened on line {line}"
  | .shape fault => fault.message

end SourceFault

/-- A fault and the line of the source that it is reported at. -/
structure SourceError where
  fault : SourceFault
  line : Nat
  deriving DecidableEq, Repr

namespace SourceError

/-- The line and the words of an error. -/
def message (e : SourceError) : String := s!"line {e.line}: {e.fault.message}"

end SourceError

namespace Failure

/-- The error that a failure over the given tokens is reported as: at its own line, or at that of the
first token left, or at that of the last token. -/
def toError (f : Failure) (tokens : List Token) : SourceError :=
  let here := (f.rest.head? <|> tokens.getLast?).map Token.line
  ⟨.shape f.fault, (f.line <|> here).getD 1⟩

end Failure

namespace Reader

variable {α : Type} [Scalar α]

/-- The shape that a new description starts from: a blank one, or a copy of a shape that is already
in the catalog. -/
def base (c : Catalog α) (line : Option Nat) (newName : String) : Reader (Shape α) := do
  if ← accept "CLONEOF" then
    let source ← name
    match c.named? source with
    | some s => return s.renamed newName
    | none => fail (.nothingToCopy newName source) line
  else return .blank newName

/-- Reads a shape that may copy those of a catalog. -/
def shape (c : Catalog α) : Reader (Shape α) := do
  let line := (← get).head?.map Token.line
  expect "OBJ"
  let newName ← name
  if c.hasName newName then fail (.nameTaken newName) line
  statements (← base c line newName)

end Reader

namespace Catalog

variable {α : Type} [Scalar α]

/-- Adds the shapes that the tokens describe, up to the first failure. Each shape takes a token, so
the number of tokens bounds the number of shapes. -/
def readShapes : Nat → Catalog α → List Token → Catalog α × Option Failure
  | _, c, [] => (c, none)
  | 0, c, _ => (c, none)
  | n + 1, c, t :: ts => match Reader.shape c (t :: ts) with
    | .ok (s, rest) => readShapes n (c.push s) rest
    | .error failure => (c, some failure)

/-- The catalog that the tokens describe, up to the first failure. -/
def ofTokens (tokens : List Token) : Catalog α × Option Failure :=
  readShapes tokens.length empty tokens

/-- The catalog that a source describes, up to the first error. -/
def ofSource (source : String) : Catalog α × List SourceError :=
  match Token.ofSource source with
  | .error (fault, line) => (empty, [⟨.token fault, line⟩])
  | .ok tokens =>
    let (c, failure) := ofTokens tokens
    (c, (failure.map (·.toError tokens)).toList)

/-- The catalog that a source describes, if all of it can be read. -/
def ofSource? (source : String) : Except (List SourceError) (Catalog α) :=
  match ofSource source with
  | (c, []) => .ok c
  | (_, errors) => .error errors

end Catalog

/-- Why a file does not describe a catalog. -/
inductive AssetFault where
  | file (fault : FileFault)
  | source (errors : List SourceError)
  deriving DecidableEq, Repr

namespace AssetFault

/-- The words for a fault: the errors of a source are counted and listed. -/
def message : AssetFault → String
  | file fault => fault.message
  | source errors =>
    errors.foldl (fun text e => text ++ "; " ++ e.message) s!"{errors.length} parse error(s)"

end AssetFault

namespace Catalog

variable {α : Type} [Scalar α]

/-- The catalog that a file describes, if all of it can be read. -/
def load (fs : Files) (path : String) : Except AssetFault (Catalog α) :=
  match fs.readText path with
  | .error fault => .error (.file fault)
  | .ok text => match ofSource? text with
    | .error errors => .error (.source errors)
    | .ok c => .ok c

end Catalog

end Masonry
