/-!
# Lines

A line ends before a line feed, or before a carriage return that a line feed follows. The end of the
text ends a line that has a character; a carriage return that no line feed follows is an ordinary
character.
-/

namespace Masonry.Text

/-- The lines of a text, without their ends. -/
def lines : List Char → List (List Char)
  | [] => []
  | '\n' :: rest => [] :: lines rest
  | '\r' :: '\n' :: rest => [] :: lines rest
  | c :: rest =>
    match lines rest with
    | [] => [[c]]
    | line :: more => (c :: line) :: more

example : lines "a\r\r\n\nb\r".toList = [['a', '\r'], [], ['b', '\r']] := by decide
example : lines "a\n".toList = [['a']] := by decide

end Masonry.Text
