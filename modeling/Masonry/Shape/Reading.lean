import Masonry.Shape
import Masonry.Shape.Token
import Masonry.Text.Digits

/-!
# Reading shapes

A shape is read from the front of a list of tokens:

```text
shape     = OBJ name [CLONEOF name] block of statements
statement = ID = integer ;        | CAPTION = literal ;     | TEX_SIZE = integer ;
          | TEX_FILE = literal ;  | SCALE = triple ;        | TRANSLATION = triple ;
          | VERT block of entries | TEX_COO block of entries | FACES block of entries
entry     = [ '[' integer ']' ] value ;
```

An entry with an index replaces the element of that index, one without is added at the end. Where
reading fails, `Failure` says why and what was left to read.
-/

namespace Masonry

/-- What a reader looked for and did not find. -/
inductive Wanted where
  | text (word : String)
  | integer
  | name
  | literal
  /-- A second corner, or more points. -/
  | moreTexCoords
  /-- More vertices of a face. -/
  | moreVertices
  | statement
  deriving DecidableEq, Repr

namespace Wanted

/-- The words for what was looked for. -/
def message : Wanted → String
  | .text word => s!"'{word}'"
  | .integer => "integer"
  | .name => "identifier"
  | .literal => "string"
  | .moreTexCoords => "':' or at least three coordinate pairs"
  | .moreVertices => "at least three vertex indices"
  | .statement => "statement or '\x7d'"

end Wanted

/-- The lists of a shape that entries are read into. -/
inductive EntryList where
  | vertices
  | texCoords
  | faces
  deriving DecidableEq, Repr

namespace EntryList

/-- The word for an element of the list. -/
def message : EntryList → String
  | .vertices => "vertex"
  | .texCoords => "texture coordinate"
  | .faces => "face"

end EntryList

/-- Why a shape cannot be read. -/
inductive ShapeFault where
  /-- Another token stands where something was wanted, or the source ends there. -/
  | unexpected (wanted : Wanted) (found : Option String)
  /-- An integer does not fit the signed 32-bit range. -/
  | integerTooLarge (digits : String)
  /-- An entry replaces an element that its list of the given size does not have. -/
  | noSuchEntry (list : EntryList) (index size : Nat)
  /-- No statement begins with the word. -/
  | unknownStatement (word : String)
  /-- Another shape has the name. -/
  | nameTaken (name : String)
  /-- A shape is to start as a copy of one that is not there. -/
  | nothingToCopy (name source : String)
  deriving DecidableEq, Repr

namespace ShapeFault

/-- The words for a fault. -/
def message : ShapeFault → String
  | .unexpected wanted (some found) => s!"expected {wanted.message}, found '{found}'"
  | .unexpected wanted none => s!"expected {wanted.message}, found end of input"
  | .integerTooLarge digits => s!"integer '{digits}' out of range"
  | .noSuchEntry list index size =>
    s!"{list.message} index {index} out of range (list has {size} entries)"
  | .unknownStatement word => s!"unexpected '{word}' in object body"
  | .nameTaken name => s!"object name '{name}' already exists"
  | .nothingToCopy name source =>
    s!"cannot clone '{name}': source object '{source}' not found"

end ShapeFault

/-- A fault, the tokens that were left when it was found, and the line it belongs to where that is
not the line of the first token left. -/
structure Failure where
  fault : ShapeFault
  rest : List Token
  line : Option Nat
  deriving DecidableEq, Repr

/-- Reads a value from the front of the tokens. -/
abbrev Reader := StateT (List Token) (Except Failure)

namespace Reader

variable {β σ : Type}

/-- Fails at the first token left, or at a given line. -/
def fail (fault : ShapeFault) (line : Option Nat) : Reader β := fun ts => .error ⟨fault, ts, line⟩

/-- Fails because the first token left is not what is wanted. -/
def unexpected (wanted : Wanted) : Reader β := fun ts =>
  .error ⟨.unexpected wanted (ts.head?.map Token.text), ts, none⟩

/-- Takes the first token if it has the given text, and tells whether it did. -/
def accept (text : String) : Reader Bool
  | [] => .ok (false, [])
  | t :: ts => if t.text = text then .ok (true, ts) else .ok (false, t :: ts)

/-- Takes a token with the given text. -/
def expect (text : String) : Reader Unit := do
  if ← accept text then pure () else unexpected (.text text)

/-- Runs `step` until `stop` succeeds, at most the given number of times. -/
def repeatFor (stop : Reader Bool) (step : σ → Reader σ) : Nat → σ → Reader σ
  | 0, _ => unexpected (.text "\x7d")
  | n + 1, s => do if ← stop then pure s else repeatFor stop step n (← step s)

/-- Runs `step` until `stop` succeeds. Every round but the last takes a token, so the tokens bound the
number of rounds. -/
def repeatUntil (stop : Reader Bool) (step : σ → Reader σ) (s : σ) : Reader σ := fun ts =>
  repeatFor stop step (ts.length + 1) s ts

/-- Reads an item after each comma that follows, and adds it to the items. -/
def moreItems (item : Reader β) (items : List β) : Reader (List β) :=
  repeatUntil (do return !(← accept ",")) (fun items => do return items ++ [← item]) items

/-- The value of a text of decimal digits, if it is one. -/
def digits? (text : String) : Option Nat :=
  let cs := text.toList
  if !cs.isEmpty && cs.all Char.isDigit then some (Text.digitsValue cs) else none

/-- A run of digits in the signed 32-bit range. -/
def integer : Reader Nat
  | [] => unexpected .integer []
  | t :: ts => match digits? t.text with
    | none => unexpected .integer (t :: ts)
    | some n =>
      if n < 2147483648 then .ok (n, ts) else fail (.integerTooLarge t.text) none (t :: ts)

/-- A number: a sign, a whole part and a run of fraction digits. -/
def decimal [Scalar α] : Reader α := do
  let negative ← accept "-"
  let whole ← integer
  if ← accept "." then return Scalar.decimal negative whole (some (← integer))
  else return Scalar.decimal negative whole none

/-- Three numbers with commas between them. -/
def triple [Scalar α] : Reader (Vec3 α) := do
  let x ← decimal
  expect ","
  let y ← decimal
  expect ","
  let z ← decimal
  return ⟨x, y, z⟩

/-- Two integers with a comma between them. -/
def pixel : Reader Pixel := do
  let x ← integer
  expect ","
  let y ← integer
  return ⟨x, y⟩

/-- The text is an ASCII letter followed by ASCII letters and digits. -/
def isName (text : String) : Bool :=
  match text.toList with
  | [] => false
  | c :: cs => c.isAlpha && cs.all Char.isAlphanum

/-- A name. -/
def name : Reader String
  | [] => unexpected .name []
  | t :: ts => if isName t.text then .ok (t.text, ts) else unexpected .name (t :: ts)

/-- What stands between the quotes of a literal, if the text is one. -/
def unquoted? (text : String) : Option String :=
  match text.toList with
  | '"' :: cs => if cs.getLast? = some '"' then some (String.ofList cs.dropLast) else none
  | _ => none

/-- A literal, without its quotes. -/
def literal : Reader String
  | [] => unexpected .literal []
  | t :: ts => match unquoted? t.text with
    | some text => .ok (text, ts)
    | none => unexpected .literal (t :: ts)

/-- Two corners with a colon between them, or three or more points with commas. -/
def texCoords : Reader TexCoords := do
  let first ← pixel
  if ← accept ":" then return .corners first (← pixel)
  let points ← moreItems pixel [first]
  if points.length < 3 then unexpected .moreTexCoords
  return .points points

/-- Three or more indices of vertices, a semicolon and the index of the texture coordinates. -/
def face : Reader Face := do
  let vertices ← moreItems integer [← integer]
  if vertices.length < 3 then unexpected .moreVertices
  expect ";"
  return ⟨vertices, ← integer⟩

/-- The index that an entry begins with, and the line of its bracket. -/
def entryIndex : Reader (Option (Nat × Nat))
  | [] => .ok (none, [])
  | t :: ts =>
    if t.text = "[" then
      (do let index ← integer; expect "]"; return some (index, t.line) : Reader _) ts
    else .ok (none, t :: ts)

/-- Reads an entry into a list. -/
def entry (kind : EntryList) (value : Reader β) (list : List β) : Reader (List β) := do
  if (← get).isEmpty then unexpected (.text "\x7d")
  let index ← entryIndex
  let v ← value
  expect ";"
  match index with
  | none => return list ++ [v]
  | some (i, line) =>
    if i < list.length then return list.set i v
    else fail (.noSuchEntry kind i list.length) (some line)

/-- Reads a block of entries into a list. -/
def entries (kind : EntryList) (value : Reader β) (list : List β) : Reader (List β) := do
  expect "\x7b"
  repeatUntil (accept "\x7d") (entry kind value) list

/-- Reads the value of a statement, between an equals sign and a semicolon. -/
def assigned (value : Reader β) : Reader β := do
  expect "="
  let v ← value
  expect ";"
  return v

/-- Reads a statement into a shape. -/
def statement [Scalar α] (s : Shape α) : Reader (Shape α)
  | [] => unexpected .statement []
  | t :: ts =>
    match t.text with
    | "ID" => (return { s with id := Int32.ofNat (← assigned integer) } : Reader (Shape α)) ts
    | "CAPTION" => (return { s with caption := ← assigned literal } : Reader (Shape α)) ts
    | "SCALE" => (return { s with scale := ← assigned triple } : Reader (Shape α)) ts
    | "TEX_SIZE" => (return { s with texSize := ← assigned integer } : Reader (Shape α)) ts
    | "TEX_FILE" => (return { s with texFile := ← assigned literal } : Reader (Shape α)) ts
    | "TRANSLATION" => (return { s with shift := ← assigned triple } : Reader (Shape α)) ts
    | "VERT" =>
      (return { s with vertices := ← entries .vertices triple s.vertices } : Reader (Shape α)) ts
    | "TEX_COO" =>
      (return { s with texCoords := ← entries .texCoords texCoords s.texCoords } : Reader (Shape α)) ts
    | "FACES" =>
      (return { s with faces := ← entries .faces face s.faces } : Reader (Shape α)) ts
    | word => fail (.unknownStatement word) none (t :: ts)

/-- Reads the rest of a block of statements into a shape. -/
def statements [Scalar α] (s : Shape α) : Reader (Shape α) := do
  expect "\x7b"
  repeatUntil (accept "\x7d") statement s

end Reader

end Masonry
