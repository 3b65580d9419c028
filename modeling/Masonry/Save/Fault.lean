import Masonry.Files

/-!
# Faults of saved models

Why a model cannot be saved, or bytes are not a saved model.
-/

namespace Masonry

/-- Why saving or loading fails. -/
inductive SaveFault where
  | file (fault : FileFault)
  /-- The bytes begin with another word than saved models do. -/
  | wrongMagic (word : Int32)
  | unknownVersion (version : Int32)
  | unknownColor (index : Int32)
  /-- The name of a group is not UTF-8. -/
  | nameNotText
  /-- The name of a group has more bytes than its length can say. -/
  | nameTooLong (bytes : Nat)
  | negativeCount (count : Int32)
  deriving DecidableEq, Repr

/-- The last `k` hexadecimal digits of a number. -/
def hexDigits : Nat → Nat → List Char
  | 0, _ => []
  | k + 1, n => hexDigits k (n / 16) ++ [Nat.digitChar (n % 16)]

namespace SaveFault

/-- The words for a fault. -/
def message : SaveFault → String
  | file fault => fault.message
  | wrongMagic word =>
    "invalid magic 0x" ++ String.ofList (hexDigits 8 word.toUInt32.toNat) ++ " (expected BLCS)"
  | unknownVersion version => s!"unsupported model version: {version}"
  | unknownColor index => s!"invalid stone color index: {index}"
  | nameNotText => "group name is not valid UTF-8"
  | nameTooLong bytes => s!"group name too long: {bytes} bytes"
  | negativeCount count => s!"negative element count: {count}"

end SaveFault

end Masonry
