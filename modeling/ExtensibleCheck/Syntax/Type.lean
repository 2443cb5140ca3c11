/-! What the checker knows of a type: how it is written, its flags, and which members its apparent
type has. -/

namespace ExtensibleCheck

structure CheckedType where
  text : String
  /-- The flags of the type, one bit each, in two's complement where negative. -/
  flags : Int := 0
  /-- The names of the properties of the apparent type. -/
  properties : List String := []
  /-- How many index signatures the apparent type has. -/
  indexSignatures : Nat := 0
  deriving DecidableEq

namespace CheckedType

def anyFlag : Int := 1

def unknownFlag : Int := 2

/-- Whether a flag, which is a power of two, is among others. -/
def hasFlag (flags flag : Int) : Bool := flags / flag % 2 = 1

/-- Whether flags mark a type whose members cannot be judged. -/
def flagsUnchecked (flags : Int) : Bool := hasFlag flags anyFlag || hasFlag flags unknownFlag

def isUnchecked (type : CheckedType) : Bool := flagsUnchecked type.flags

/-- The type of whatever nothing is known about. -/
def any : CheckedType := { text := "any", flags := anyFlag }

instance : Inhabited CheckedType := ⟨any⟩

end CheckedType

end ExtensibleCheck
