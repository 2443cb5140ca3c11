import ExtensibleCheck.Run

/-! The registry of extensions: a list of global ones, in the order in which they were added, and a
stack of local scopes. A scope is a handle `κ` to a list that stays with whoever opened the scope;
what the list holds is asked for when it is read. A slot may be vacant; vacant slots are kept and
never visited. -/

namespace ExtensibleCheck

structure Registry (α κ : Type) where
  globals : List (Option α) := []
  /-- The active scopes, innermost first. -/
  scopes : List κ := []

namespace Registry

variable {α κ : Type}

def empty : Registry α κ := {}

/-- Appends a slot. A member that is already there is there twice. -/
def addGlobal (r : Registry α κ) (slot : Option α) : Registry α κ :=
  { r with globals := r.globals ++ [slot] }

/-- Removes the first slot that holds the same, if there is one. -/
def removeGlobal [DecidableEq α] (r : Registry α κ) (slot : Option α) : Registry α κ :=
  { r with globals := r.globals.erase slot }

def pushLocal (r : Registry α κ) (scope : κ) : Registry α κ :=
  { r with scopes := scope :: r.scopes }

/-- Closes the innermost scope. -/
def popLocal (r : Registry α κ) : Except Failure (Registry α κ) :=
  match r.scopes with
  | [] => .error .noActiveScope
  | _ :: outer => .ok { r with scopes := outer }

/-- How many scopes are active. -/
def depth (r : Registry α κ) : Nat := r.scopes.length

/-- The members that a dispatch reaches if nothing changes meanwhile: the global ones, then those
of the innermost scope. The scopes below it are inert. -/
def view (read : κ → List (Option α)) (r : Registry α κ) : List α :=
  (r.globals ++ (r.scopes.head?.map read).getD []).filterMap id

end Registry

end ExtensibleCheck
