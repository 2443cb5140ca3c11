/-! Positions in a text, counted in UTF-16 code units, and the lines that they fall on. A line ends
after a line feed, after a carriage return, after the two together, and after the line and
paragraph separators of Unicode, and nowhere else. -/

namespace ExtensibleCheck

namespace Text

/-- How many UTF-16 code units a character takes. -/
def units (c : Char) : Nat := if c.toNat < 0x10000 then 1 else 2

def isLineBreak (c : Char) : Bool :=
  c == '\n' || c == '\r' || c == '\u2028' || c == '\u2029'

/-- The starts of the lines that begin after position `position`, where `text` is what follows. -/
def lineStartsFrom : List Char → Nat → List Nat
  | [], _ => []
  | '\r' :: '\n' :: text, position => (position + 2) :: lineStartsFrom text (position + 2)
  | c :: text, position =>
    let next := position + units c
    if isLineBreak c then next :: lineStartsFrom text next else lineStartsFrom text next

/-- Where the lines of a text start. Even the empty text has one line. -/
def lineStarts (text : String) : List Nat := 0 :: lineStartsFrom text.toList 0

/-- A line and a column, both counted from one. -/
structure Point where
  line : Nat
  column : Nat
  deriving DecidableEq

/-- The point of a position: the last line that starts no later, and the distance from its start. A
position past the end of the text lies on the last line. -/
def locate (text : String) (position : Nat) : Point :=
  let started := (lineStarts text).filter (· ≤ position)
  ⟨started.length, position - started.getLastD 0 + 1⟩

end Text

end ExtensibleCheck
