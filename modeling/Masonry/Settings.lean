import Masonry.Color
import Masonry.Files
import Masonry.Json

/-!
# Settings

What an editor starts with, stored as a JSON object. Members that are left out take their default
and unknown members are passed over; a known member may not be repeated. An array of the values in
the order of `Field.all`, of which the last may be missing, is read too.
-/

namespace Masonry

/-- What an editor starts with. -/
structure Settings where
  /-- The file that describes the shapes. -/
  asset : String
  /-- The type code of the brush. -/
  code : Int32
  /-- The color of the brush. -/
  color : Color
  /-- The type codes that the number keys from zero select. -/
  hotkeys : Vector Int32 10
  /-- The number of layers of the brush. -/
  layers : UInt32
  deriving DecidableEq, Repr

/-- Why settings cannot be read. -/
inductive SettingsFault where
  | file (fault : FileFault)
  /-- The text is no JSON, or not that of settings. -/
  | json
  deriving DecidableEq, Repr

namespace Settings

/-- The settings of a new installation. -/
def default : Settings where
  asset := "assets/stones.txt"
  code := 432
  color := .white
  hotkeys := #v[1032, 131, 231, 331, 232, 431, 332, 632, 432, 832]
  layers := 1

/-- The type code that a number key selects. -/
def hotkey? (s : Settings) (key : Nat) : Option Int32 := s.hotkeys[key]?

/-- The members of settings. -/
inductive Field where
  | asset
  | code
  | color
  | hotkeys
  | layers
  deriving DecidableEq, Repr

namespace Field

/-- The members in the order that they are written. -/
def all : List Field := [asset, code, color, hotkeys, layers]

/-- The key of a member. -/
def name : Field → String
  | asset => "stone_asset"
  | code => "default_stone_type"
  | color => "default_color"
  | hotkeys => "palette_hotkeys"
  | layers => "stack_height"

/-- The member with a key. -/
def ofName? (name : String) : Option Field := all.find? (·.name == name)

theorem ofName?_name (f : Field) : ofName? f.name = some f := by cases f <;> decide

/-- The value of a member. -/
def get (s : Settings) : Field → Json
  | asset => .string (some s.asset)
  | code => .integer s.code.toInt
  | color => .string (some s.color.name)
  | hotkeys => .array (s.hotkeys.toList.map fun code => .integer code.toInt)
  | layers => .integer s.layers.toNat

/-- A type code, as a signed 32-bit integer. -/
def code? : Json → Option Int32
  | .integer n => if -2147483648 ≤ n ∧ n < 2147483648 then some (Int32.ofInt n) else none
  | _ => none

/-- A color, by its name or as an object with its name and nothing for it. -/
def color? : Json → Option Color
  | .string (some name) => Color.ofName? name
  | .object [(some name, .null)] => Color.ofName? name
  | _ => none

/-- A type code for each number key. -/
def hotkeys? : Json → Option (Vector Int32 10)
  | .array items => do
    let codes := (← items.mapM code?).toArray
    if h : codes.size = 10 then return ⟨codes, h⟩ else none
  | _ => none

/-- A number of layers, as an unsigned 32-bit integer. -/
def layers? : Json → Option UInt32
  | .integer n => if 0 ≤ n ∧ n < 4294967296 then some (UInt32.ofNat n.toNat) else none
  | _ => none

/-- The settings with the value of a member replaced, if the value is one for the member. -/
def set? (s : Settings) : Field → Json → Option Settings
  | asset, .string (some path) => some { s with asset := path }
  | asset, _ => none
  | code, v => (code? v).map fun code => { s with code }
  | color, v => (color? v).map fun color => { s with color }
  | hotkeys, v => (hotkeys? v).map fun hotkeys => { s with hotkeys }
  | layers, v => (layers? v).map fun layers => { s with layers }

end Field

/-- The default settings with some members replaced in turn. -/
def ofFields? (values : List (Field × Json)) : Option Settings :=
  values.foldlM (fun s v => v.1.set? s v.2) default

/-- The known members among those of an object. -/
def knownFields (members : List (Option String × Json)) : List (Field × Json) :=
  members.filterMap fun (key, v) => (key.bind Field.ofName?).map fun f => (f, v)

/-- The settings that a value describes. -/
def ofJson? : Json → Option Settings
  | .object members =>
    let values := knownFields members
    if members.all (·.1.isSome) ∧ (values.map Prod.fst).Nodup then ofFields? values else none
  | .array items =>
    if items.length ≤ Field.all.length then ofFields? (Field.all.zip items) else none
  | _ => none

/-- The value that describes settings. -/
def toJson (s : Settings) : Json := .object (Field.all.map fun f => (some f.name, f.get s))

/-- The settings that a text describes. -/
def parse? (text : String) : Option Settings := (Json.parse? text).bind ofJson?

/-- The text that describes settings. -/
def print (s : Settings) : String := s.toJson.pretty

/-- Reads settings from a text. -/
def ofText (text : String) : Except SettingsFault Settings :=
  match parse? text with
  | some s => .ok s
  | none => .error .json

/-- Reads settings from a file. -/
def load (fs : Files) (path : String) : Except SettingsFault Settings :=
  match fs.readText path with
  | .ok text => ofText text
  | .error fault => .error (.file fault)

/-- Writes settings to a file. -/
def save (s : Settings) (fs : Files) (path : String) : Except FileFault Files :=
  fs.write path (encodeText s.print)

end Settings

end Masonry
