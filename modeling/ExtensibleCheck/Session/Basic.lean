import ExtensibleCheck.Session.State

/-! Checking sessions: what the checker and the extensions can do in one, each as a step on the
state of the session. -/

namespace ExtensibleCheck

/-- Code of an extension in a session. -/
abbrev SessionAction (ι μ α : Type) := Action ι Occurrence CheckedType μ Empty α

/-- With which extensions a program is checked, and how these behave. -/
structure Checker (ι μ : Type) where
  /-- What creates the global extensions, in order of priority. -/
  extensions : List (SessionAction ι μ ι) := []
  /-- The extensions that a closure brings along, active in its body only. -/
  localExtensions : Option (Occurrence → SessionAction ι μ (List ι)) := none
  behaviour : Behaviour ι Occurrence CheckedType μ Empty
  label : ι → ExtensionLabel
  verbose : Bool := false
  /-- How many extensions one dispatch consults before it is cut off. -/
  limit : Nat

/-- A step of a session. -/
abbrev Session (ι μ α : Type) := Run (SessionState ι μ) α

namespace Session

variable {ι μ : Type}

def record (event : Event ι) : Session ι μ Unit := modify (·.record event)

def print (line : String) : Session ι μ Unit := record (.printed line)

/-- Reports an error at a node. -/
def report (code : Code) (message : String) (o : Occurrence) : Session ι μ Unit := do
  let diagnostic : Diagnostic := ⟨code, .error, message, some o.location⟩
  modify fun s => { s with findings := s.findings.add diagnostic }
  record (.reported diagnostic)

/-- Stores a type for a node, or that it has none, on behalf of an extension. -/
def store (o : Occurrence) (type : Option CheckedType) : Session ι μ Unit := do
  modify fun s => { s with stored := s.stored.insert o.id type }
  record (.stored o type)

def typeOf (o : Occurrence) : Session ι μ CheckedType := do
  let type := (← get).typeOf o
  record (.lookedUp o type)
  return type

def hasStored (o : Occurrence) : Session ι μ Bool := do
  let found := (← get).hasStored o
  record (.probed o found)
  return found

def target? (call : Occurrence) : Session ι μ (Option (Candidate CheckedType)) := do
  let target := (← get).target? call
  record (.recalled call target)
  return target

def register (extension : ι) : Session ι μ Unit := do
  modify fun s => { s with registry := s.registry.addGlobal (some extension) }
  record (.registered extension)

def unregister [DecidableEq ι] (extension : ι) : Session ι μ Unit := do
  modify fun s => { s with registry := s.registry.removeGlobal (some extension) }
  record (.unregistered extension)

def pushLocal (extensions : List ι) : Session ι μ Unit :=
  modify fun s => { s with registry := s.registry.pushLocal extensions }

def popLocal : Session ι μ Unit := do
  match (← get).registry.popLocal with
  | .ok registry => modify fun s => { s with registry }
  | .error failure => Run.fail failure

variable [DecidableEq ι]

/-- Serves a request of an extension. -/
def serve : (r : Request ι Occurrence CheckedType μ Empty) → Session ι μ r.Reply
  | .typeOf node => typeOf node
  | .storeType node type => store node type
  | .reportError message node => report .extensionError message node
  | .selectedMethod call => target? call
  | .register extension => register extension
  | .unregister extension => unregister extension
  | .write line => record (.wrote line)
  | .readMemory => return (← get).memory
  | .writeMemory memory => modify fun s => { s with memory }
  | .perform request => nomatch request

end Session

namespace Checker

open Session

variable {ι μ : Type} [DecidableEq ι] (c : Checker ι μ)

/-- Lets one extension respond to one use of a hook. -/
def invoke (extension : ι) (call : HookCall Occurrence CheckedType) : Session ι μ call.Answer := do
  record (.consulted extension call)
  (c.behaviour extension call).run serve

def dispatcher : Dispatcher (SessionState ι μ) ι (List ι) Occurrence CheckedType where
  registry := (·.registry)
  read := List.map some
  invoke := c.invoke
  label := c.label
  print := print
  verbose := c.verbose
  limit := c.limit

/-- Uses a hook. -/
def raise (call : HookCall Occurrence CheckedType) : Session ι μ call.Answer := do
  record (.raised call (← get).registry)
  let answer ← c.dispatcher.dispatch call
  record (.settled call answer)
  return answer

/-- Records the method chosen for a call, and the type that the call has by it, and tells every
extension. -/
def select (call : Occurrence) (target : Candidate CheckedType) : Session ι μ Unit := do
  modify fun s => { s with
    targets := s.targets.insert call.id target
    stored := match target.returns with
      | some type => s.stored.insert call.id (some type)
      | none => s.stored }
  record (.selected call target)
  c.raise (.notify (.methodSelection call target))

/-- The extensions that a closure brings along. Without a provider there are none. -/
def localExtensionsFor (closure : Occurrence) : Session ι μ (List ι) := do
  let extensions ← match c.localExtensions with
    | none => pure []
    | some provide => (provide closure).run serve
  record (.brought closure extensions)
  return extensions

/-- Creates the global extensions. -/
def start : Session ι μ Unit :=
  c.extensions.forM fun create => do register (← create.run serve)

end Checker

end ExtensibleCheck
