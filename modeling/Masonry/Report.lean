import Masonry.Catalog.Reading
import Masonry.Save.Document
import Masonry.Settings
import Masonry.Text.Hundredths

/-!
# Catalog reports

The command line that lists the shapes of a source, tells which number keys have a shape, and
describes a saved model. It runs in any monad that offers files and two streams of text: a real
console, or a `Desk` that holds the files and collects what is printed.
-/

namespace Masonry

/-- Files and two streams of text. -/
class Console (m : Type → Type) extends Monad m where
  /-- Reads a file. -/
  readFile : String → m (Except FileFault (List UInt8))
  /-- Writes a file, unless there is a fault. -/
  writeFile : String → List UInt8 → m (Option FileFault)
  /-- Prints a line. -/
  printLine : String → m Unit
  /-- Prints a line to the stream of errors. -/
  printError : String → m Unit

namespace Report

/-- How the program is used. -/
def usage : String :=
  "usage: stone_catalog [--config <editor.json>] [--init-config <editor.json>] [asset.txt] [model.blcs]"

/-- A row of the table of shapes. -/
def row (index id name caption vertices faces box : String) : String :=
  " ".intercalate [Text.padLeft 5 index, Text.padLeft 6 id, "", Text.padRight 12 name,
    Text.padRight 10 caption, Text.padLeft 5 vertices, Text.padLeft 5 faces, "", box]

/-- A point, with two decimal places. -/
def point (p : Vec3 Binary64) : String :=
  "(" ++ ", ".intercalate [p.x.toHundredths, p.y.toHundredths, p.z.toHundredths] ++ ")"

/-- The row for a shape. -/
def shapeRow (s : Shape Binary64) (index : Nat) : String :=
  let box := s.boxAt 0
  row (toString index) (toString s.id) s.name s.caption (toString s.vertices.length)
    (toString s.faces.length) (point box.lower ++ ".." ++ point box.upper)

/-- The table of the shapes of a catalog. -/
def shapes (c : Catalog Binary64) : List String :=
  row "index" "id" "name" "caption" "verts" "faces" "AABB" ::
    c.shapes.zipIdx.map fun (s, i) => shapeRow s i

/-- The line for a number key. -/
def hotkey (c : Catalog Binary64) (code : Int32) (key : Nat) : String :=
  let status := if (c.shape? code).isSome then "ok" else "missing"
  s!"  key {key} -> {code} ({status})"

/-- The report on a catalog that was read from a file, with the errors of the source. -/
def catalog (path : String) (settings : Settings) (c : Catalog Binary64)
    (errors : List SourceError) : List String :=
  [s!"{path}: {c.size} definitions"] ++ shapes c ++ ["palette hotkeys:"] ++
    (settings.hotkeys.toList.zipIdx.map fun (code, key) => hotkey c code key) ++
    errors.map fun e => "error: " ++ e.message

/-- The report on a saved model. -/
def document (path : String) (d : Document Binary64) : List String :=
  s!"{path}: {d.model.stones.length} stones ({d.model.selection.length} selected), {d.model.groups.length} groups, next insert id {d.nextInsert}" ::
    d.model.groups.map fun g => s!"  group {g.id} '{g.name}': {g.members.length} members"

/-- What the arguments ask for. -/
inductive Request where
  /-- Explain the usage: an option lacks its value. -/
  | explain
  /-- Write the default settings to a file. -/
  | writeDefaults (path : String)
  /-- Report on a source and a saved model, with the settings of a file. -/
  | report (settings : Option String) (paths : List String)
  deriving DecidableEq, Repr

/-- Reads the arguments from the first to the last. -/
def request (settings : Option String) (paths : List String) : List String → Request
  | [] => .report settings paths
  | [arg] =>
    if arg = "--config" ∨ arg = "--init-config" then .explain else .report settings (paths ++ [arg])
  | arg :: value :: rest =>
    if arg = "--config" then request (some value) paths rest
    else if arg = "--init-config" then .writeDefaults value
    else request settings (paths ++ [arg]) (value :: rest)

variable {m : Type → Type} [Console m]

/-- Reads the text of a file. -/
def readText (path : String) : m (Except FileFault String) := do
  return (← Console.readFile path) >>= decodeText

/-- The settings of a file, or the default ones. -/
def settings? : Option String → m (Option Settings)
  | none => return some .default
  | some path => do
    match ← readText path with
    | .ok text => return Settings.parse? text
    | .error _ => return none

/-- Reports on a source and, if a second path is there, on a saved model. Answers whether all went
well; after a fault of the source the saved model is reported on all the same. -/
def report (settings : Settings) (paths : List String) : m Bool := do
  let asset := paths.headD settings.asset
  match ← readText asset with
  | .error _ => return false
  | .ok source =>
    let (c, errors) := Catalog.ofSource source
    (catalog asset settings c errors).forM Console.printLine
    match paths[1]? with
    | none => return errors.isEmpty
    | some path =>
      match (← Console.readFile path).toOption.bind fun bytes => (Document.load c bytes).toOption with
      | none => return false
      | some d =>
        (document path d).forM Console.printLine
        return errors.isEmpty

/-- Does what the arguments ask for, and answers whether all went well. -/
def run (args : List String) : m Bool := do
  match request none [] args with
  | .explain =>
    Console.printError usage
    return false
  | .writeDefaults path =>
    match ← Console.writeFile path (encodeText Settings.default.print) with
    | some _ => return false
    | none =>
      Console.printLine s!"wrote {path}"
      return true
  | .report file paths =>
    match ← settings? file with
    | none => return false
    | some settings => report settings paths

end Report

/-- Files, and what was printed to either stream. -/
structure Desk where
  files : Files
  out : String
  err : String
  deriving DecidableEq, Repr, Inhabited

instance : Console (StateM Desk) where
  readFile path := return (← get).files.read path
  writeFile path bytes := do
    let desk ← get
    match desk.files.write path bytes with
    | .ok files =>
      set { desk with files }
      return none
    | .error fault => return some fault
  printLine line := modify fun desk => { desk with out := desk.out ++ line ++ "\n" }
  printError line := modify fun desk => { desk with err := desk.err ++ line ++ "\n" }

end Masonry
