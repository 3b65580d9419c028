import Masonry.Save.Archive

/-!
# The format of saved models

A saved model is a sequence of fields, each of so many bytes. What comes after a field depends on the
fields before it only through the numbers of stones, groups, members and bytes that they say
(`Format`). Bytes spell a format if every field is there and valid (`Format.Spelled`). All other bytes
break it at the first field that is cut off or invalid, and this field alone decides the fault
(`Format.Broken`).
-/

namespace Masonry.Save

/-- The signed number that four bytes spell. -/
def signed (chunk : List UInt8) : Int32 := (UInt32.ofNat (ofBigEndian chunk)).toInt32

/-- A field of a saved model. -/
inductive Field where
  /-- Any number of four bytes. -/
  | number
  /-- Any word of eight bytes. -/
  | word
  | magic
  | version
  | color
  /-- The number of elements of a list. -/
  | count
  /-- The number of bytes of a name. -/
  | length
  /-- The name of a group, in the given number of bytes. -/
  | name (bytes : Nat)
  deriving DecidableEq, Repr

namespace Field

/-- The number of bytes of a field. -/
def width : Field → Nat
  | word => 8
  | length => 2
  | name bytes => bytes
  | _ => 4

/-- What is wrong with the bytes of a field. -/
def fault? (field : Field) (chunk : List UInt8) : Option SaveFault :=
  match field with
  | magic => if signed chunk = Save.magic then none else some (.wrongMagic (signed chunk))
  | version => if signed chunk = Save.version then none else some (.unknownVersion (signed chunk))
  | color => if 0 ≤ signed chunk ∧ signed chunk ≤ 7 then none else some (.unknownColor (signed chunk))
  | count => if 0 ≤ signed chunk then none else some (.negativeCount (signed chunk))
  | name _ => match decodeText chunk with
    | .ok _ => none
    | .error _ => some .nameNotText
  | number | word | length => none

end Field

/-- Fields one after the other, where what comes after a field may depend on the number that its bytes
spell. -/
inductive Format where
  | done
  | field (field : Field) (next : Nat → Format)

namespace Format

/-- Fields whose numbers do not matter, and what comes after them. -/
def fields (list : List Field) (next : Format) : Format :=
  list.foldr (fun f next => field f fun _ => next) next

/-- The same part a number of times, and what comes after it. -/
def times (part : Format → Format) : Nat → Format → Format
  | 0, next => next
  | n + 1, next => part (times part n next)

/-- A stone: id, insert id, color, code, turns and the cell. -/
def stone : Format → Format :=
  fields [.number, .number, .color, .number, .number, .number, .number, .number]

/-- A group: id, name and members. -/
def group (next : Format) : Format :=
  fields [.number] <| field .length fun bytes => fields [.name bytes] <|
    field .count fun members => times (fields [.number]) members next

/-- A saved model: magic, version, next insert id and origin; the stones and the next stone id; the
number of groups, the next group id and the groups. -/
def document : Format :=
  fields [.magic, .version, .number, .word, .word, .word] <| field .count fun stones =>
    times stone stones <| fields [.number] <| field .count fun groups =>
      fields [.number] <| times group groups done

/-- The bytes are those fields, complete and valid. -/
inductive Spelled : Format → List UInt8 → Prop where
  | done : Spelled done []
  | field {f : Field} {next : Nat → Format} {chunk rest : List UInt8} :
      chunk.length = f.width → f.fault? chunk = none → Spelled (next (ofBigEndian chunk)) rest →
      Spelled (field f next) (chunk ++ rest)

/-- The first field that is not complete and valid is cut off, or has the fault. -/
inductive Broken : Format → List UInt8 → SaveFault → Prop where
  | cut {f : Field} {next : Nat → Format} {input : List UInt8} :
      input.length < f.width → Broken (field f next) input (.file .endOfInput)
  | invalid {f : Field} {next : Nat → Format} {chunk rest : List UInt8} {fault : SaveFault} :
      chunk.length = f.width → f.fault? chunk = some fault → Broken (field f next) (chunk ++ rest) fault
  | later {f : Field} {next : Nat → Format} {chunk rest : List UInt8} {fault : SaveFault} :
      chunk.length = f.width → f.fault? chunk = none → Broken (next (ofBigEndian chunk)) rest fault →
      Broken (field f next) (chunk ++ rest) fault

/-- The bytes begin with some that spell the format, or they break it. -/
theorem spelled_or_broken (f : Format) (input : List UInt8) :
    (∃ front rest, input = front ++ rest ∧ f.Spelled front) ∨ ∃ fault, f.Broken input fault := by
  induction f generalizing input with
  | done => exact .inl ⟨[], input, rfl, .done⟩
  | field f next ih =>
    rcases Nat.lt_or_ge input.length f.width with hcut | hlength
    · exact .inr ⟨_, .cut hcut⟩
    obtain ⟨chunk, rest, rfl, hchunk⟩ : ∃ chunk rest, input = chunk ++ rest ∧ chunk.length = f.width :=
      ⟨input.take f.width, input.drop f.width, (List.take_append_drop _ _).symm,
        List.length_take_of_le hlength⟩
    cases hfault : f.fault? chunk with
    | some fault => exact .inr ⟨fault, .invalid hchunk hfault⟩
    | none =>
      rcases ih (ofBigEndian chunk) rest with ⟨front, rest, rfl, hfront⟩ | ⟨fault, hbroken⟩
      · exact .inl ⟨chunk ++ front, rest, (List.append_assoc _ _ _).symm, .field hchunk hfault hfront⟩
      · exact .inr ⟨fault, .later hchunk hfault hbroken⟩

end Format

end Masonry.Save
