/-! The order of texts by their UTF-16 code units, which differs from the order by characters where
one of the two needs a pair of units. -/

namespace ExtensibleCheck

namespace Text

/-- The code units of a character. -/
def codeUnits (c : Char) : List Nat :=
  if c.toNat < 0x10000 then [c.toNat]
  else
    let offset := c.toNat - 0x10000
    [0xD800 + offset / 0x400, 0xDC00 + offset % 0x400]

def utf16 (text : String) : List Nat := text.toList.flatMap codeUnits

/-- Whether `a` comes no later than `b`, a beginning of a text coming before the text. -/
def unitsLE : List Nat → List Nat → Bool
  | [], _ => true
  | _ :: _, [] => false
  | x :: a, y :: b => x < y || (x == y && unitsLE a b)

def le (a b : String) : Bool := unitsLE (utf16 a) (utf16 b)

end Text

end ExtensibleCheck
