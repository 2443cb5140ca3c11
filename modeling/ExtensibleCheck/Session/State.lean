import ExtensibleCheck.Dispatch
import ExtensibleCheck.OrderedMap
import ExtensibleCheck.Syntax.Occurrence

/-! The state of one checking run: the registry, what extensions stored and the checker selected,
the findings so far, and a journal of everything that happened. -/

namespace ExtensibleCheck

/-- Something that happened in a run. -/
inductive Event (ι : Type) where
  /-- The checker used a hook, with the registry as it was then. -/
  | raised (call : HookCall Occurrence CheckedType) (registry : Registry ι (List ι))
  /-- An extension was consulted. -/
  | consulted (extension : ι) (call : HookCall Occurrence CheckedType)
  /-- The use of a hook was answered. -/
  | settled (call : HookCall Occurrence CheckedType) (answer : call.Answer)
  /-- A closure was entered, and brought these extensions along, if any. -/
  | brought (closure : Occurrence) (extensions : List ι)
  /-- An extension was added to the global ones. -/
  | registered (extension : ι)
  /-- An extension was to be removed from the global ones, whether it was among them or not. -/
  | unregistered (extension : ι)
  /-- An extension stored a type, or vouched for a node without one. -/
  | stored (node : Occurrence) (type : Option CheckedType)
  /-- The type of a node was looked up, by an extension or by the checker. -/
  | lookedUp (node : Occurrence) (type : CheckedType)
  /-- The checker asked whether anything is stored for a node. -/
  | probed (node : Occurrence) (found : Bool)
  /-- An extension asked for the method selected for a call. -/
  | recalled (call : Occurrence) (target : Option (Candidate CheckedType))
  /-- The checker selected a method. -/
  | selected (call : Occurrence) (target : Candidate CheckedType)
  | reported (diagnostic : Diagnostic)
  /-- An extension wrote a line to the log. -/
  | wrote (line : String)
  /-- The checker or its dispatcher printed a line. -/
  | printed (line : String)

/-- The line that an event leaves in the log. What the checker prints is marked. -/
def Event.logLine? {ι : Type} : Event ι → Option String
  | wrote line => some line
  | printed line => some ("> " ++ line)
  | _ => none

def Event.report? {ι : Type} : Event ι → Option Diagnostic
  | reported diagnostic => some diagnostic
  | _ => none

/-- The state of a session with extensions `ι` that share a memory `μ`. -/
structure SessionState (ι μ : Type) where
  registry : Registry ι (List ι) := {}
  /-- The types stored for nodes, which go before what the compiler says. A node may be among them
  without a type. -/
  stored : OrderedMap NodeId (Option CheckedType) := ∅
  /-- The methods selected for calls. -/
  targets : OrderedMap NodeId (Candidate CheckedType) := ∅
  findings : Collector := {}
  memory : μ
  journal : Array (Event ι) := #[]

namespace SessionState

variable {ι μ : Type}

def record (s : SessionState ι μ) (event : Event ι) : SessionState ι μ :=
  { s with journal := s.journal.push event }

/-- The type of a node: the one stored for it, or else what the compiler says. -/
def typeOf (s : SessionState ι μ) (o : Occurrence) : CheckedType :=
  (s.stored.getD o.id none).getD o.node.info.type

/-- Whether anything was stored for a node, be it a type or not. -/
def hasStored (s : SessionState ι μ) (o : Occurrence) : Bool := s.stored.contains o.id

def target? (s : SessionState ι μ) (call : Occurrence) : Option (Candidate CheckedType) :=
  s.targets.get? call.id

def log (s : SessionState ι μ) : List String := s.journal.toList.filterMap Event.logLine?

end SessionState

end ExtensibleCheck
