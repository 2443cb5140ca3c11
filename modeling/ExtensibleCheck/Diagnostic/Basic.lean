import ExtensibleCheck.Run
import ExtensibleCheck.Text.Position

/-! Findings of the checker: what is wrong, how grave it is, and where. -/

namespace ExtensibleCheck

inductive Severity where
  | error
  | warning
  | info
  deriving DecidableEq

namespace Severity

def name : Severity → String
  | error => "error"
  | warning => "warning"
  | info => "info"

def ofName? (name : String) : Option Severity :=
  [error, warning, info].find? (·.name == name)

end Severity

/-- What a finding is about. -/
inductive Code where
  | missingSource
  | compilerFinding
  | unresolvedVariable
  | unresolvedProperty
  | unresolvedAttribute
  | incompatibleAssignment
  | incompatibleReturn
  | missingMethod
  | ambiguousMethod
  | extensionError
  deriving DecidableEq

namespace Code

def text : Code → String
  | missingSource => "TCH1001"
  | compilerFinding => "TCH1002"
  | unresolvedVariable => "TCH2001"
  | unresolvedProperty => "TCH2002"
  | unresolvedAttribute => "TCH2003"
  | incompatibleAssignment => "TCH2004"
  | incompatibleReturn => "TCH2005"
  | missingMethod => "TCH2006"
  | ambiguousMethod => "TCH2007"
  | extensionError => "TCH3001"

def ofText? (text : String) : Option Code :=
  [missingSource, compilerFinding, unresolvedVariable, unresolvedProperty, unresolvedAttribute,
    incompatibleAssignment, incompatibleReturn, missingMethod, ambiguousMethod,
    extensionError].find? (·.text == text)

end Code

/-- A stretch of a source file. Lines and columns count from one. -/
structure Location where
  file : String
  line : Int
  column : Int
  length : Int
  deriving DecidableEq

/-- The stretch of `length` code units that starts at position `start` of a file. -/
def Location.ofSpan (file text : String) (start : Nat) (length : Int) : Location :=
  let point := Text.locate text start
  ⟨file, point.line, point.column, length⟩

/-- The stretch at a position that may be any number. A file has no positions before its beginning,
but it has some after its end. -/
def Location.ofSpan? (file text : String) (start length : Int) : Except Failure Location :=
  if start < 0 then .error .beforeFile else .ok (.ofSpan file text start.toNat length)

structure Diagnostic where
  code : Code
  severity : Severity
  message : String
  location : Option Location := none
  deriving DecidableEq

namespace Diagnostic

def isError (d : Diagnostic) : Bool := d.severity = .error

/-- The diagnostic on one line: `file:line:column severity CODE: message`, without the first word
where there is no location. -/
def format (d : Diagnostic) : String :=
  let place := d.location.map fun l => l.file ++ ":" ++ toString l.line ++ ":" ++ toString l.column
  " ".intercalate (place.toList ++ [d.severity.name ++ " " ++ d.code.text ++ ":", d.message])

end Diagnostic

/-- A growing list of findings, with a mark that tells at once whether an error is among them. -/
structure Collector where
  diagnostics : List Diagnostic := []
  hasErrors : Bool := false
  deriving DecidableEq

namespace Collector

def empty : Collector := {}

def add (c : Collector) (d : Diagnostic) : Collector :=
  ⟨c.diagnostics ++ [d], c.hasErrors || d.isError⟩

def addAll (c : Collector) (ds : List Diagnostic) : Collector := ds.foldl add c

@[simp] theorem diagnostics_add (c : Collector) (d : Diagnostic) :
    (c.add d).diagnostics = c.diagnostics ++ [d] := rfl

@[simp] theorem hasErrors_add (c : Collector) (d : Diagnostic) :
    (c.add d).hasErrors = (c.hasErrors || d.isError) := rfl

@[simp] theorem diagnostics_addAll (c : Collector) (ds : List Diagnostic) :
    (c.addAll ds).diagnostics = c.diagnostics ++ ds := by
  induction ds generalizing c with
  | nil => simp [addAll]
  | cons d ds ih =>
    have h : c.addAll (d :: ds) = (c.add d).addAll ds := rfl
    simp [h, ih]

@[simp] theorem hasErrors_addAll (c : Collector) (ds : List Diagnostic) :
    (c.addAll ds).hasErrors = (c.hasErrors || ds.any Diagnostic.isError) := by
  induction ds generalizing c with
  | nil => simp [addAll]
  | cons d ds ih =>
    have h : c.addAll (d :: ds) = (c.add d).addAll ds := rfl
    simp [h, ih, Bool.or_assoc]

end Collector

end ExtensibleCheck
