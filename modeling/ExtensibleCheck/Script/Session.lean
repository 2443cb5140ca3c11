import ExtensibleCheck.Script.Basic
import ExtensibleCheck.Session.Basic

/-! Scripted extensions in a checking session, where nodes are those of syntax trees. -/

namespace ExtensibleCheck

namespace Script

/-- A script for sessions; the extensions are known by name. -/
abbrev ForSession := Script String CheckedType Empty

/-- The text of the child with a role; nothing where there is no such child. -/
def childText (o : Occurrence) (role : Role) : String :=
  ((o.child? role).map Occurrence.text).getD ""

/-- What a call calls: the member, the variable, or else the kind of expression. -/
def calleeText (call : Occurrence) : String :=
  match call.child? .expression with
  | some callee => match callee.kind with
    | .propertyAccess => childText callee .name
    | .identifier => callee.text
    | kind => kind.name
  | none => ""

def subjectOfNode (hook : Hook) (o : Occurrence) : String :=
  match hook with
  | .unresolvedVariable => o.text
  | .unresolvedAttribute => childText o .argumentExpression
  | .beforeMethodCall | .afterMethodCall => calleeText o
  | _ => childText o .name

/-- Nodes by number are looked up in the file of the node at hand, or else in the first. -/
def locateIn (p : Program) (primary : Option Occurrence) : Place → Option Occurrence
  | .here => primary
  | .up levels => primary.map (·.up levels)
  | .number n file => do
    let number := (file.orElse fun _ => primary.map (·.file.number)).getD 0
    (← p.file? number).occurrence? n
  | .labelled _ => none

def sessionWorld (p : Program) : World Occurrence CheckedType where
  subject := subjectOfNode
  mark o := "@" ++ toString o.node.start ++ "-" ++ toString o.node.stop
  showType := (·.text)
  locate := locateIn p

/-- What some closures bring along: all closures of a file, or the one with a number. -/
structure LocalRule where
  file : Nat := 0
  number : Option Nat := none
  /-- The extensions, or the message of the error raised instead. -/
  extensions : Except String (List String)

def LocalRule.concerns (rule : LocalRule) (closure : Occurrence) : Bool :=
  rule.file = closure.file.number &&
    rule.number.all fun n => (closure.file.occurrence? n).any (·.id = closure.id)

/-- The first rule about a closure counts; one that no rule is about brings nothing along. -/
def provideLocals (rules : List LocalRule) (closure : Occurrence) :
    SessionAction String Firings (List String) :=
  match rules.find? (·.concerns closure) with
  | none => .done []
  | some rule => match rule.extensions with
    | .ok extensions => .done extensions
    | .error message => .fail .general message

/-- A checker whose extensions are all scripted. -/
def checker (p : Program) (scripts : String → ForSession) (globals : List String)
    (locals : Option (List LocalRule)) (verbose : Bool) (limit : Nat) :
    Checker String Firings where
  extensions := globals.map .done
  localExtensions := locals.map provideLocals
  behaviour extension call := (scripts extension).respond (sessionWorld p) extension call
  label extension := (scripts extension).label
  verbose := verbose
  limit := limit

end Script

end ExtensibleCheck
