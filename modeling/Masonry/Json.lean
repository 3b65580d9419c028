import Masonry.Text.Digits

/-!
# JSON

`Json.parse?` reads strict JSON: no comments, no trailing commas, only space, tab, line feed and
carriage return between the parts. Numbers that are no integers keep their digits only, and a string
whose escapes name half of a surrogate pair has no text. `Json.pretty` prints with two spaces for each
level.

A text is cut into tokens, and the tokens drive a machine whose state is what has been read, with the
containers that are still open.
-/

namespace Masonry

/-- A JSON value. -/
inductive Json where
  | null
  | bool (value : Bool)
  /-- An integer written without fraction and exponent; the integer zero has no sign. -/
  | integer (value : Int)
  /-- Any other number, as it was written. -/
  | real (digits : String)
  /-- A string; one that names half of a surrogate pair has no text. -/
  | string (text : Option String)
  | array (items : List Json)
  | object (members : List (Option String × Json))
  deriving Repr, Inhabited

namespace Json

/-! ## Tokens -/

/-- The parts of a JSON text. -/
inductive Part where
  | openBrace
  | closeBrace
  | openBracket
  | closeBracket
  | colon
  | comma
  /-- A value that is not a container. -/
  | scalar (value : Json)
  deriving Repr, Inhabited

/-- The value of a hexadecimal digit of either case. -/
def hexDigit? (c : Char) : Option Nat :=
  if '0' ≤ c ∧ c ≤ '9' then some (c.toNat - '0'.toNat)
  else if 'a' ≤ c ∧ c ≤ 'f' then some (c.toNat - 'a'.toNat + 10)
  else if 'A' ≤ c ∧ c ≤ 'F' then some (c.toNat - 'A'.toNat + 10)
  else none

/-- The number that four hexadecimal digits stand for. -/
def hex4? (a b c d : Char) : Option Nat :=
  match hexDigit? a, hexDigit? b, hexDigit? c, hexDigit? d with
  | some a, some b, some c, some d => some (((a * 16 + b) * 16 + c) * 16 + d)
  | _, _, _, _ => none

/-- A part of a string: a character, or a unit of a surrogate pair. -/
inductive StringUnit where
  | char (c : Char)
  | surrogate (unit : Nat)
  deriving DecidableEq, Repr

/-- The character after a backslash that an escape of one character stands for. -/
def simpleEscape? : Char → Option Char
  | '"' => some '"'
  | '\\' => some '\\'
  | '/' => some '/'
  | 'b' => some '\x08'
  | 'f' => some '\x0c'
  | 'n' => some '\n'
  | 'r' => some '\r'
  | 't' => some '\t'
  | _ => none

/-- The units of a string up to its closing quote, and what follows that. -/
def stringUnits? : List Char → Option (List StringUnit × List Char)
  | [] => none
  | '"' :: rest => some ([], rest)
  | '\\' :: 'u' :: a :: b :: c :: d :: rest => do
    let n ← hex4? a b c d
    let (units, rest) ← stringUnits? rest
    let unit : StringUnit := if 0xD800 ≤ n ∧ n ≤ 0xDFFF then .surrogate n else .char (Char.ofNat n)
    return (unit :: units, rest)
  | '\\' :: c :: rest => do
    let c ← simpleEscape? c
    let (units, rest) ← stringUnits? rest
    return (.char c :: units, rest)
  | c :: rest => if c.toNat < 0x20 then none else do
    let (units, rest) ← stringUnits? rest
    return (.char c :: units, rest)

/-- The text that units stand for, if every surrogate belongs to a pair. -/
def textOf? : List StringUnit → Option (List Char)
  | [] => some []
  | .char c :: rest => (textOf? rest).map (c :: ·)
  | .surrogate high :: .surrogate low :: rest =>
    if high < 0xDC00 ∧ 0xDC00 ≤ low then
      (textOf? rest).map (Char.ofNat (0x10000 + (high - 0xD800) * 0x400 + (low - 0xDC00)) :: ·)
    else none
  | .surrogate _ :: _ => none

/-- The digits at the front, and what follows them. -/
def spanDigits (cs : List Char) : List Char × List Char := cs.span Char.isDigit

/-- The fraction of a number at the front, if a point begins one, and what follows it. -/
def fraction? : List Char → Option (List Char × List Char)
  | '.' :: rest => match spanDigits rest with
    | ([], _) => none
    | (digits, rest) => some ('.' :: digits, rest)
  | cs => some ([], cs)

/-- The exponent of a number at the front, if a letter begins one, and what follows it. -/
def exponent? : List Char → Option (List Char × List Char)
  | c :: rest =>
    if c = 'e' ∨ c = 'E' then
      let (sign, rest) := match rest with
        | '+' :: rest => (['+'], rest)
        | '-' :: rest => (['-'], rest)
        | rest => ([], rest)
      match spanDigits rest with
      | ([], _) => none
      | (digits, rest) => some (c :: sign ++ digits, rest)
    else some ([], c :: rest)
  | [] => some ([], [])

/-- The number at the front, without a sign, and what follows it. -/
def number? (negative : Bool) (cs : List Char) : Option (Json × List Char) := do
  let (whole, rest) := spanDigits cs
  if whole.isEmpty || (whole.head? == some '0' && whole.length > 1) then none else
  let (fraction, rest) ← fraction? rest
  let (exponent, rest) ← exponent? rest
  let value := Text.digitsValue whole
  if fraction.isEmpty && exponent.isEmpty && !(negative && value == 0) then
    return (.integer (if negative then -value else value), rest)
  else
    let sign := if negative then ['-'] else []
    return (.real (String.ofList (sign ++ whole ++ fraction ++ exponent)), rest)

/-- Blank characters between the parts of a text. -/
def isSpace (c : Char) : Bool := c == ' ' || c == '\t' || c == '\n' || c == '\r'

/-- The part at the front of a text that does not begin with a blank, and what follows it. -/
def part? : List Char → Option (Part × List Char)
  | '\x7b' :: rest => some (.openBrace, rest)
  | '\x7d' :: rest => some (.closeBrace, rest)
  | '[' :: rest => some (.openBracket, rest)
  | ']' :: rest => some (.closeBracket, rest)
  | ':' :: rest => some (.colon, rest)
  | ',' :: rest => some (.comma, rest)
  | 'n' :: 'u' :: 'l' :: 'l' :: rest => some (.scalar .null, rest)
  | 't' :: 'r' :: 'u' :: 'e' :: rest => some (.scalar (.bool true), rest)
  | 'f' :: 'a' :: 'l' :: 's' :: 'e' :: rest => some (.scalar (.bool false), rest)
  | '"' :: rest => do
    let (units, rest) ← stringUnits? rest
    return (.scalar (.string ((textOf? units).map String.ofList)), rest)
  | '-' :: rest => (number? true rest).map fun (n, rest) => (.scalar n, rest)
  | cs => (number? false cs).map fun (n, rest) => (.scalar n, rest)

/-- The parts of a text; each has a character, so the number of characters bounds their number. -/
def parts? : Nat → List Char → Option (List Part)
  | _, [] => some []
  | 0, _ => none
  | n + 1, c :: rest =>
    if isSpace c then parts? n rest else do
    let (part, rest) ← part? (c :: rest)
    return part :: (← parts? n rest)

/-! ## Values -/

/-- A container that is still open: its items so far, or its members and the key whose value comes
next. -/
inductive Frame where
  | array (items : List Json)
  | object (members : List (Option String × Json)) (key : Option String)
  deriving Repr, Inhabited

/-- What may come next. -/
inductive State where
  /-- A value. -/
  | value (frames : List Frame)
  /-- The first item of an array, or its end. -/
  | firstItem (frames : List Frame)
  /-- The first key of an object, or its end. -/
  | firstKey (frames : List Frame)
  /-- A key after a comma. -/
  | key (members : List (Option String × Json)) (frames : List Frame)
  /-- The colon after a key. -/
  | colon (members : List (Option String × Json)) (key : Option String) (frames : List Frame)
  /-- A comma or the end of the innermost container, whose last value is there. -/
  | after (frame : Frame) (frames : List Frame)
  /-- Nothing: the value is complete. -/
  | done (value : Json)
  deriving Repr, Inhabited

/-- The state after a value is complete. -/
def complete (v : Json) : List Frame → State
  | [] => .done v
  | .array items :: frames => .after (.array (items ++ [v])) frames
  | .object members key :: frames => .after (.object (members ++ [(key, v)]) none) frames

/-- The state after a part with which a value begins. -/
def beginValue? (frames : List Frame) : Part → Option State
  | .scalar v => some (complete v frames)
  | .openBrace => some (.firstKey frames)
  | .openBracket => some (.firstItem frames)
  | _ => none

/-- The state after a part. -/
def step? : State → Part → Option State
  | .value frames, p => beginValue? frames p
  | .firstItem frames, .closeBracket => some (complete (.array []) frames)
  | .firstItem frames, p => beginValue? (.array [] :: frames) p
  | .firstKey frames, .closeBrace => some (complete (.object []) frames)
  | .firstKey frames, .scalar (.string key) => some (.colon [] key frames)
  | .key members frames, .scalar (.string key) => some (.colon members key frames)
  | .colon members key frames, .colon => some (.value (.object members key :: frames))
  | .after (.array items) frames, .comma => some (.value (.array items :: frames))
  | .after (.array items) frames, .closeBracket => some (complete (.array items) frames)
  | .after (.object members _) frames, .comma => some (.key members frames)
  | .after (.object members _) frames, .closeBrace => some (complete (.object members) frames)
  | _, _ => none

/-- The value that parts describe. -/
def ofParts? (parts : List Part) : Option Json :=
  match parts.foldlM step? (.value []) with
  | some (.done v) => some v
  | _ => none

/-- The value that a text describes. -/
def parse? (text : String) : Option Json := do
  let cs := text.toList
  ofParts? (← parts? cs.length cs)

/-! ## Printing -/

/-- A character in a string: quotes, backslashes and control characters are escaped. -/
def escaped (c : Char) : List Char :=
  match c with
  | '"' => ['\\', '"']
  | '\\' => ['\\', '\\']
  | '\x08' => ['\\', 'b']
  | '\x0c' => ['\\', 'f']
  | '\n' => ['\\', 'n']
  | '\r' => ['\\', 'r']
  | '\t' => ['\\', 't']
  | c =>
    if c.toNat < 0x20 then
      ['\\', 'u', '0', '0', Nat.digitChar (c.toNat / 16), Nat.digitChar (c.toNat % 16)]
    else [c]

/-- A text in quotes. -/
def quoted (text : String) : List Char := '"' :: (text.toList.flatMap escaped ++ ['"'])

/-- A line end and the blanks before a part at a level. -/
def newLine (level : Nat) : List Char := '\n' :: List.replicate (2 * level) ' '

/-- Lists the printed elements of a container, a line for each. -/
def listed (opening closing : Char) (level : Nat) : List (List Char) → List Char
  | [] => [opening, closing]
  | first :: rest =>
    [opening] ++ newLine (level + 1) ++ first ++
      rest.flatMap (fun item => ',' :: (newLine (level + 1) ++ item)) ++
      newLine level ++ [closing]

mutual

/-- The text of a value that stands at a level. A string without text is printed as an empty one. -/
def prettyAt (level : Nat) : Json → List Char
  | null => "null".toList
  | bool true => "true".toList
  | bool false => "false".toList
  | integer n => (toString n).toList
  | real digits => digits.toList
  | string text => quoted (text.getD "")
  | array items => listed '[' ']' level (prettyItems (level + 1) items)
  | object members => listed '\x7b' '\x7d' level (prettyMembers (level + 1) members)

/-- The texts of the items of an array. -/
def prettyItems (level : Nat) : List Json → List (List Char)
  | [] => []
  | v :: vs => prettyAt level v :: prettyItems level vs

/-- The texts of the members of an object. -/
def prettyMembers (level : Nat) : List (Option String × Json) → List (List Char)
  | [] => []
  | (key, v) :: ms =>
    (quoted (key.getD "") ++ [':', ' '] ++ prettyAt level v) :: prettyMembers level ms

end

/-- The text of a value, over several lines. -/
def pretty (v : Json) : String := String.ofList (v.prettyAt 0)

end Json

end Masonry
