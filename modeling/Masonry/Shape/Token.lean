import Masonry.Text.Blank
import Masonry.Text.Lines

/-!
# Tokens of the stone language

A source is cut into tokens line by line. Blank characters separate tokens, a `//` comment runs to
the end of its line, a block comment runs to the next terminator, and each punctuation character is
a token of its own. A double quote opens a literal that runs to the next double quote, quotes
included, and may go on over several lines, whose ends are not part of it.

The terminator of a block comment is dropped wherever it stands, outside comments and inside
literals too, and does not separate what stands before it from what stands after it.
-/

namespace Masonry

/-- A piece of the source and the line that it ends on, counted from one. -/
structure Token where
  text : String
  line : Nat
  deriving DecidableEq, Repr, Inhabited

/-- Why a source cannot be cut into tokens. -/
inductive TokenFault where
  /-- A literal is open at the end. -/
  | openLiteral
  /-- A block comment, opened on the given line, is open at the end. -/
  | openComment (line : Nat)
  deriving DecidableEq, Repr

namespace Token

/-- The characters that are tokens of their own. -/
def punctuation : List Char :=
  ['\x7b', '\x7d', '(', ')', '[', ']', ',', ';', ':', '=', '+', '-', '*', '/', '%', '.']

/-- What the scan stands in. -/
inductive Mode where
  | code
  | literal
  /-- A block comment and the line that opened it. -/
  | comment (line : Nat)
  deriving DecidableEq, Repr

/-- The state of a scan between two characters: the token that is being read, in reverse, and the
line of its last character. -/
structure Scan where
  mode : Mode
  pending : List Char
  line : Nat
  deriving DecidableEq, Repr

namespace Scan

/-- Nothing read. -/
def start : Scan := ⟨.code, [], 0⟩

/-- The token that has been read, if it has a character. -/
def finished (s : Scan) : List Token :=
  if s.pending.isEmpty then [] else [⟨String.ofList s.pending.reverse, s.line⟩]

/-- The scan after its token is given out. -/
def cleared (s : Scan) : Scan := { s with pending := [] }

/-- The scan with a character of the given line added to its token. -/
def push (s : Scan) (line : Nat) (c : Char) : Scan := { s with pending := c :: s.pending, line }

/-- The scan in another mode. -/
def enter (s : Scan) (mode : Mode) : Scan := { s with mode }

/-- The tokens that a character completes, and the scan after it. -/
def step (line : Nat) (s : Scan) (c : Char) : List Token × Scan :=
  match s.mode with
  | .comment _ => ([], s)
  | .literal =>
    if c = '"' then ((s.push line c).finished, (s.push line c).cleared.enter .code)
    else ([], s.push line c)
  | .code =>
    if c = '"' then (s.finished, (s.cleared.push line c).enter .literal)
    else if Text.isBlank c then (s.finished, s.cleared)
    else if punctuation.contains c then
      (s.finished ++ (s.cleared.push line c).finished, (s.cleared.push line c).cleared)
    else ([], s.push line c)

/-- The tokens that the end of a line completes: a literal goes on in the next line. -/
def endLine (s : Scan) : List Token × Scan :=
  if s.mode = .literal then ([], s) else (s.finished, s.cleared)

/-- The scan after a block comment's terminator. -/
def closeComment (s : Scan) : Scan :=
  match s.mode with
  | .comment _ => s.enter .code
  | _ => s

/-- The tokens that the rest of a line completes, and the scan after the line. -/
def ofLine (line : Nat) : Scan → List Char → List Token × Scan
  | s, [] => s.endLine
  | s, [c] =>
    let (done, s) := s.step line c
    let (more, s) := s.endLine
    (done ++ more, s)
  | s, c :: d :: rest =>
    if c = '*' ∧ d = '/' then ofLine line s.closeComment rest
    else if s.mode = .code ∧ c = '/' ∧ d = '/' then s.endLine
    else if s.mode = .code ∧ c = '/' ∧ d = '*' then
      let (more, t) := ofLine line (s.cleared.enter (.comment line)) rest
      (s.finished ++ more, t)
    else
      let (done, s) := s.step line c
      let (more, s) := ofLine line s (d :: rest)
      (done ++ more, s)

/-- The tokens that the lines complete, the first of which has the given number, and the scan after
them. -/
def ofLines : Nat → Scan → List (List Char) → List Token × Scan
  | _, s, [] => ([], s)
  | line, s, text :: rest =>
    let (done, s) := s.ofLine line text
    let (more, s) := ofLines (line + 1) s rest
    (done ++ more, s)

end Scan

/-- The tokens of a source, or what is open at its end and the line to report: that of the literal's
last character, or the last line. -/
def ofSource (source : String) : Except (TokenFault × Nat) (List Token) :=
  let lines := Text.lines source.toList
  let (tokens, s) := Scan.ofLines 1 Scan.start lines
  match s.mode with
  | .code => .ok tokens
  | .literal => .error (.openLiteral, s.line)
  | .comment opened => .error (.openComment opened, lines.length)

end Token

end Masonry
