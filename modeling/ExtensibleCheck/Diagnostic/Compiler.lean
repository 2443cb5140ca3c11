import ExtensibleCheck.Diagnostic.Basic

/-! Findings of the compiler itself, and how they become findings of the checker. Only those about
syntax and options are taken over; what the compiler thinks of the types is left to the checking
pass. -/

namespace ExtensibleCheck

/-- A message that may be explained by further messages, each of them explained in turn. -/
inductive CompilerMessage where
  | mk (text : String) (reasons : List CompilerMessage)

namespace CompilerMessage

mutual

/-- The message on lines of its own, each reason indented by two spaces more than what it
explains. -/
def flattenAt (level : Nat) : CompilerMessage → String
  | .mk text reasons => text ++ flattenReasons (level + 1) reasons

def flattenReasons (level : Nat) : List CompilerMessage → String
  | [] => ""
  | reason :: rest =>
    "\n" ++ "".pushn ' ' (2 * level) ++ flattenAt level reason ++ flattenReasons level rest

end

def flatten (message : CompilerMessage) : String := flattenAt 0 message

end CompilerMessage

inductive CompilerCategory where
  | warning
  | error
  | suggestion
  | message
  deriving DecidableEq

def CompilerCategory.ofName? : String → Option CompilerCategory
  | "Warning" => some warning
  | "Error" => some error
  | "Suggestion" => some suggestion
  | "Message" => some message
  | _ => none

/-- The grade under which a finding of the compiler is passed on. Suggestions are not. -/
def CompilerCategory.severity? : CompilerCategory → Option Severity
  | error => some .error
  | warning => some .warning
  | message => some .info
  | suggestion => none

structure CompilerDiagnostic where
  category : CompilerCategory
  message : CompilerMessage
  /-- The name and the text of the file that the finding is about. -/
  file : Option (String × String) := none
  start : Option Nat := none
  length : Option Int := none

namespace CompilerDiagnostic

/-- The finding, said to be at a position. One that is passed on and about a file cannot be before
the beginning of the file; what becomes of others does not depend on where they are. -/
def startingAt? (d : CompilerDiagnostic) (start : Int) : Except Failure CompilerDiagnostic :=
  if start < 0 && d.file.isSome && d.category.severity?.isSome then .error .beforeFile
  else .ok { d with start := some start.toNat }

/-- The place of the finding, known only if both the file and the position are. Without a length it
is one code unit long. -/
def location? (d : CompilerDiagnostic) : Option Location :=
  match d.file, d.start with
  | some (name, text), some start => some (.ofSpan name text start (d.length.getD 1))
  | _, _ => none

def convert? (d : CompilerDiagnostic) : Option Diagnostic :=
  d.category.severity?.map fun severity =>
    ⟨.compilerFinding, severity, d.message.flatten, d.location?⟩

/-- What the compiler says about the options comes before what it says about the syntax. -/
def collect (options syntactic : List CompilerDiagnostic) : Collector :=
  Collector.empty.addAll ((options ++ syntactic).filterMap convert?)

end CompilerDiagnostic

end ExtensibleCheck
