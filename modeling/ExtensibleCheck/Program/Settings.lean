import ExtensibleCheck.OrderedMap
import ExtensibleCheck.Text.Order

/-! The settings under which the compiler reads a program. Callers may override each of them and add
others, whose values `α` mean nothing here. -/

namespace ExtensibleCheck

inductive Setting (α : Type) where
  | level (number : Nat)
  | enabled
  | names (names : List String)
  | chosen (value : α)

abbrev Settings (α : Type) := OrderedMap String (Setting α)

namespace Settings

variable {α : Type}

/-- The settings of checked programs: a recent language, strictly typed, with only its own library
in sight, and no output. -/
def standard : Settings α := .ofList
  [("target", .level 9), ("module", .level 99), ("moduleResolution", .level 100),
    ("lib", .names ["lib.es2022.d.ts"]), ("types", .names []), ("strict", .enabled),
    ("skipLibCheck", .enabled), ("noEmit", .enabled), ("allowImportingTsExtensions", .enabled)]

/-- The standard settings, overridden one by one. -/
def overridden (overrides : List (String × α)) : Settings α :=
  standard.insertAll (overrides.map fun (name, value) => (name, .chosen value))

/-- The settings in the order of their names. -/
def sorted (s : Settings α) : List (String × Setting α) :=
  s.entries.mergeSort fun a b => Text.le a.1 b.1

end Settings

end ExtensibleCheck
