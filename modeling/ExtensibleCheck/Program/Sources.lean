/-! Sources in memory, given by name and text. Those whose names are numbers come before all others,
the lower number first; the others stay in the order in which they were given. -/

namespace ExtensibleCheck

namespace Program

/-- The numbers that put sources first lie below this one. -/
def sourceNumberBound : Nat := 0xffffffff

/-- The number that a name is, if it is one as numbers are written: without leading zeros, sign or
fraction. -/
def sourceNumber? (name : String) : Option Nat :=
  name.toNat?.filter fun n => n < sourceNumberBound && toString n = name

/-- The sources in the order in which they enter a program. -/
def ordered {α : Type} (sources : List (String × α)) : List (String × α) :=
  let numbered := sources.filterMap fun source => (sourceNumber? source.1).map fun n => (n, source)
  (numbered.mergeSort fun a b => a.1 ≤ b.1).map (·.2)
    ++ sources.filter fun source => (sourceNumber? source.1).isNone

end Program

end ExtensibleCheck
