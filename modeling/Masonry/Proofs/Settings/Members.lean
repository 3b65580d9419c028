import Masonry.Settings
import Masonry.Proofs.Json.RoundTrip
import Masonry.Proofs.Save.ArchiveInversion
import Masonry.Proofs.Save.Replacing

/-!
# Settings from their members

Each member of settings is read back from its value. So settings are read back from the text that is
printed for them, and from a file that they are saved over (`load_of_save`). An object of some of their
members, in whatever order and with whatever blanks it is written, gives the default settings with just
these members overwritten (`ofText_members`).
-/

namespace Masonry.Settings

/-! ## One member -/

/-- Settings with some members overwritten by those of others. -/
def overwritten (s new : Settings) (fs : List Field) : Settings where
  asset := if .asset ∈ fs then new.asset else s.asset
  code := if .code ∈ fs then new.code else s.code
  color := if .color ∈ fs then new.color else s.color
  hotkeys := if .hotkeys ∈ fs then new.hotkeys else s.hotkeys
  layers := if .layers ∈ fs then new.layers else s.layers

namespace Field

theorem code?_integer (code : Int32) : code? (.integer code.toInt) = some code := by
  have hlow := code.le_toInt
  have hhigh := code.toInt_lt
  rw [code?, if_pos (by omega), Int32.ofInt_toInt]

theorem color?_name (color : Color) : color? (.string (some color.name)) = some color :=
  Color.ofName?_name color

theorem hotkeys?_array (hotkeys : Vector Int32 10) :
    hotkeys? (.array (hotkeys.toList.map fun code => .integer code.toInt)) = some hotkeys := by
  have hread : code? ∘ (fun code : Int32 => Json.integer code.toInt) = pure := funext code?_integer
  have hcodes : (hotkeys.toList.map fun code => Json.integer code.toInt).mapM code? =
      some hotkeys.toList := by
    rw [List.mapM_map, hread, List.mapM_pure, List.map_id']
    rfl
  have hsize : hotkeys.toList.toArray.size = 10 := by simp
  simp only [hotkeys?, hcodes, Option.bind_eq_bind, Option.bind_some, dif_pos hsize]
  simp [Vector.toList]

theorem layers?_integer (layers : UInt32) : layers? (.integer layers.toNat) = some layers := by
  have hhigh := layers.toNat_lt
  rw [layers?, if_pos (by omega), Int.toNat_natCast, UInt32.ofNat_toNat]

/-- The value of a member overwrites this member. -/
theorem set?_get (f : Field) (s t : Settings) : f.set? t (f.get s) = some (t.overwritten s [f]) := by
  cases f with
  | asset => simp [set?, get, overwritten]
  | code => simp [set?, get, overwritten, code?_integer]
  | color => simp [set?, get, overwritten, color?_name]
  | hotkeys => simp [set?, get, overwritten, hotkeys?_array]
  | layers => simp [set?, get, overwritten, layers?_integer]

theorem plain_get (f : Field) (s : Settings) : (f.get s).Plain := by
  cases f with
  | hotkeys =>
    apply Json.plain_array_iff.mpr
    intro v hv
    obtain ⟨code, _, rfl⟩ := List.mem_map.mp hv
    simp [Json.Plain, Json.parts, Json.Part.Plain]
  | _ => simp [get, Json.Plain, Json.parts, Json.Part.Plain]

end Field

/-! ## Some members -/

variable (s : Settings)

/-- The object of some members of settings. -/
def membersJson (fs : List Field) : Json := .object (fs.map fun f => (some f.name, f.get s))

theorem toJson_eq_membersJson : s.toJson = s.membersJson Field.all := rfl

theorem overwritten_append (t : Settings) (fs gs : List Field) :
    (t.overwritten s fs).overwritten s gs = t.overwritten s (fs ++ gs) := by
  simp only [overwritten, List.mem_append]
  congr 1 <;> grind

theorem overwritten_all (t : Settings) : t.overwritten s Field.all = s := by
  simp [overwritten, Field.all]

/-- The members overwrite one after the other. -/
theorem foldlM_set?_get (t : Settings) (fs : List Field) :
    (fs.map fun f => (f, f.get s)).foldlM (fun s v => v.1.set? s v.2) t = some (t.overwritten s fs) := by
  induction fs generalizing t with
  | nil => simp [overwritten]
  | cons f fs ih => simp [Field.set?_get, ih, overwritten_append]

theorem knownFields_map (fs : List Field) :
    knownFields (fs.map fun f => (some f.name, f.get s)) = fs.map fun f => (f, f.get s) := by
  simp [knownFields, List.filterMap_map, Field.ofName?_name]

/-- An object of members gives the default settings with these members overwritten. -/
theorem ofJson?_membersJson {fs : List Field} (hfs : fs.Nodup) :
    ofJson? (s.membersJson fs) = some (default.overwritten s fs) := by
  have hkeys : (fs.map fun f => (some f.name, f.get s)).all (·.1.isSome) := by simp
  have hfields : (fs.map fun f => (f, f.get s)).map Prod.fst = fs := by
    simp [Function.comp_def]
  rw [membersJson, ofJson?, knownFields_map, hfields, if_pos ⟨hkeys, hfs⟩]
  exact foldlM_set?_get s default fs

theorem plain_membersJson (fs : List Field) : (s.membersJson fs).Plain := by
  apply Json.plain_object_iff.mpr
  intro m hm
  obtain ⟨f, _, rfl⟩ := List.mem_map.mp hm
  exact ⟨rfl, f.plain_get s⟩

theorem ofText_of_parse? {text : String} {fs : List Field} (hfs : fs.Nodup)
    (htext : Json.parse? text = some (s.membersJson fs)) :
    ofText text = .ok (default.overwritten s fs) := by
  simp [ofText, parse?, htext, ofJson?_membersJson s hfs]

theorem ofText_print : ofText s.print = .ok s := by
  have hread := Json.parse?_pretty (s.plain_membersJson Field.all)
  rw [print, toJson_eq_membersJson, ofText_of_parse? s (by decide) hread, overwritten_all]

/-- Settings that are saved over a file are loaded from it. -/
theorem load_of_save {fs fs' : Files} {path : String} {old : List UInt8}
    (hold : fs.read path = .ok old) (hsave : s.save fs path = .ok fs') : load fs' path = .ok s := by
  have hbytes : fs'.read path = .ok (encodeText s.print) := by
    rw [Files.read_of_write hold hsave, if_pos rfl]
  have htext : fs'.readText path = .ok s.print := by
    rw [Files.readText, hbytes]
    exact Save.decodeText_eq_ok_iff.mpr rfl
  rw [load, htext]
  exact s.ofText_print

/-- Settings are read back from the text that is printed for them. A text of an object of some of their
members, in any order, gives the default settings with just these members overwritten: the text that is
printed for the object, one that writes its parts with any blanks between them, and any other text that
describes it. -/
theorem ofText_members : ofText s.print = .ok s ∧
    ∀ fs : List Field, fs.Nodup →
      ofText (s.membersJson fs).pretty = .ok (default.overwritten s fs) ∧
      ∀ text : String,
        (Json.Writes text.toList (s.membersJson fs).parts ∨ Json.parse? text = some (s.membersJson fs)) →
          ofText text = .ok (default.overwritten s fs) := by
  constructor
  · exact s.ofText_print
  · intro fs hfs
    constructor
    · apply ofText_of_parse? s hfs
      exact Json.parse?_pretty (s.plain_membersJson fs)
    · intro text htext
      apply ofText_of_parse? s hfs
      obtain hwrites | hparse := htext
      · exact Json.parse?_of_writes hwrites
      · exact hparse

/-- A text with two members, the last of all members first. -/
theorem ofText_layers_color : [Field.layers, .color].Nodup ∧
    ofText "\x7b \"stack_height\": 3, \"default_color\": \"green\" \x7d" =
      .ok { default with layers := 3, color := .green } := by
  have hfs : [Field.layers, .color].Nodup := by decide
  have hwrites : Json.Writes "\x7b \"stack_height\": 3, \"default_color\": \"green\" \x7d".toList
      ({ default with layers := 3, color := .green : Settings }.membersJson [.layers, .color]).parts :=
    .part (p := .openBrace) trivial trivial <| .blank (by decide) <|
    .part (p := .scalar (.string (some "stack_height"))) trivial trivial <|
    .part (p := .colon) trivial trivial <| .blank (by decide) <|
    .part (p := .scalar (.integer 3)) trivial (Json.stops_cons _ (by decide)) <|
    .part (p := .comma) trivial trivial <| .blank (by decide) <|
    .part (p := .scalar (.string (some "default_color"))) trivial trivial <|
    .part (p := .colon) trivial trivial <| .blank (by decide) <|
    .part (p := .scalar (.string (some "green"))) trivial trivial <| .blank (by decide) <|
    .part (p := .closeBrace) trivial trivial .nil
  have hread := (ofText_members { default with layers := 3, color := .green }).2 _ hfs
  exact ⟨hfs, hread.2 _ (.inl hwrites)⟩

end Masonry.Settings
