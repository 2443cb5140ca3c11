import ExtensibleCheck.Dispatch
import ExtensibleCheck.OrderedMap

/-! Networks of dispatchers. Several dispatchers work on registries of their own or on shared ones,
and a dispatcher can itself be a member of a registry, so that one use of a hook runs through many
of them. Extensions may take steps in the network while they are being consulted. -/

namespace ExtensibleCheck

/-- What a registry of the network can hold: an extension `ε`, or a dispatcher by its name. -/
inductive Member (ε : Type) where
  | extension (extension : ε)
  | dispatcher (name : String)
  deriving DecidableEq

/-- A registry of the network: one that goes by a name, or the one that a dispatcher made for
itself. -/
inductive RegistryId where
  | named (name : String)
  | ownedBy (dispatcher : String)
  deriving DecidableEq

/-- A step taken in a network from outside, or by an extension at work. -/
inductive NetworkStep (ε ν τ : Type) where
  | add (dispatcher : String) (member : Member ε)
  | remove (dispatcher : String) (member : Member ε)
  | push (dispatcher : String) (members : List (Member ε))
  | pop (dispatcher : String)
  | describe (member : Member ε)
  /-- From now on `target` is the method selected for the call. -/
  | select (call : ν) (target : Candidate τ)
  | raise (dispatcher : String) (call : HookCall ν τ)

/-- What comes of a step. -/
inductive StepResult (τ : Type) where
  | nothing
  | verdict (answer : Bool)
  | candidates (candidates : List (Candidate τ))
  | description (text : String)

def StepResult.ofAnswer {ν τ : Type} : (call : HookCall ν τ) → call.Answer → StepResult τ
  | .ask _, answer => verdict answer
  | .narrow _ _, answer | .contribute _, answer => candidates answer
  | .notify _, _ => nothing

structure DispatcherSpec where
  registry : RegistryId := .named "R"
  verbose : Bool := false

/-- Something that happened in a network. -/
inductive NetworkEvent (ε ν τ : Type) where
  | consulted (extension : ε) (call : HookCall ν τ)
  | reported (message : String) (node : ν)
  | wrote (line : String)
  | printed (line : String)

namespace NetworkEvent

variable {ε ν τ : Type}

def logLine? : NetworkEvent ε ν τ → Option String
  | wrote line => some line
  | printed line => some ("> " ++ line)
  | _ => none

def report? : NetworkEvent ε ν τ → Option (String × ν)
  | reported message node => some (message, node)
  | _ => none

end NetworkEvent

/-- The dispatchers and extensions of a network, and how the extensions behave. -/
structure Network (ε ν τ μ : Type) where
  dispatchers : OrderedMap String DispatcherSpec
  behaviour : ε → (call : HookCall ν τ) →
    Action (Member ε) ν τ μ (NetworkStep ε ν τ) call.Answer
  label : ε → ExtensionLabel
  /-- The registry that an extension registers others in. -/
  registrar : ε → RegistryId
  /-- The type of a node for which none is stored. -/
  typeOf : ν → τ
  /-- How many extensions one dispatch consults before it is cut off. -/
  limit : Nat

structure NetworkState (ε ν τ μ : Type) where
  registries : OrderedMap RegistryId (Registry (Member ε) (List (Member ε))) := ∅
  stored : OrderedMap ν (Option τ) := ∅
  targets : OrderedMap ν (Candidate τ) := ∅
  memory : μ
  journal : Array (NetworkEvent ε ν τ) := #[]

namespace NetworkState

variable {ε ν τ μ : Type}

def registry (s : NetworkState ε ν τ μ) (id : RegistryId) :
    Registry (Member ε) (List (Member ε)) :=
  s.registries.getD id .empty

def setRegistry (s : NetworkState ε ν τ μ) (id : RegistryId)
    (r : Registry (Member ε) (List (Member ε))) : NetworkState ε ν τ μ :=
  { s with registries := s.registries.insert id r }

end NetworkState

namespace Network

variable {ε ν τ μ : Type} [DecidableEq ε] [DecidableEq ν] (n : Network ε ν τ μ)

def specOf (dispatcher : String) : DispatcherSpec := n.dispatchers.getD dispatcher {}

def labelOf : Member ε → ExtensionLabel
  | .extension e => n.label e
  | .dispatcher _ => .named "ExtensionDispatcher"

def record (event : NetworkEvent ε ν τ) : Run (NetworkState ε ν τ μ) Unit :=
  modify fun s => { s with journal := s.journal.push event }

def addTo (id : RegistryId) (member : Member ε) : Run (NetworkState ε ν τ μ) Unit :=
  modify fun s => s.setRegistry id ((s.registry id).addGlobal (some member))

def removeFrom (id : RegistryId) (member : Member ε) : Run (NetworkState ε ν τ μ) Unit :=
  modify fun s => s.setRegistry id ((s.registry id).removeGlobal (some member))

def pushTo (id : RegistryId) (members : List (Member ε)) : Run (NetworkState ε ν τ μ) Unit :=
  modify fun s => s.setRegistry id ((s.registry id).pushLocal members)

def popFrom (id : RegistryId) : Run (NetworkState ε ν τ μ) Unit := do
  match ((← get).registry id).popLocal with
  | .ok registry => modify (·.setRegistry id registry)
  | .error failure => Run.fail failure

/-- How a member of a registry responds. -/
abbrev Invoke (ε ν τ μ : Type) :=
  Member ε → (call : HookCall ν τ) → Run (NetworkState ε ν τ μ) call.Answer

/-- The dispatcher with a name, on members that respond by `invoke`. -/
def dispatcherAt (invoke : Invoke ε ν τ μ) (name : String) :
    Dispatcher (NetworkState ε ν τ μ) (Member ε) (List (Member ε)) ν τ where
  registry s := s.registry (n.specOf name).registry
  read := List.map some
  invoke := invoke
  label := n.labelOf
  print line := record (.printed line)
  verbose := (n.specOf name).verbose
  limit := n.limit

/-- Takes one step. -/
def stepBy (invoke : Invoke ε ν τ μ) :
    NetworkStep ε ν τ → Run (NetworkState ε ν τ μ) (StepResult τ)
  | .add name member => do
    addTo (n.specOf name).registry member
    return .nothing
  | .remove name member => do
    removeFrom (n.specOf name).registry member
    return .nothing
  | .push name members => do
    pushTo (n.specOf name).registry members
    return .nothing
  | .pop name => do
    popFrom (n.specOf name).registry
    return .nothing
  | .describe member => return .description (n.labelOf member).describe
  | .select call target => do
    modify fun s => { s with targets := s.targets.insert call target }
    return .nothing
  | .raise name call => return .ofAnswer call (← (n.dispatcherAt invoke name).dispatch call)

/-- Serves a request of an extension. -/
def serve (invoke : Invoke ε ν τ μ) (extension : ε) :
    (r : Request (Member ε) ν τ μ (NetworkStep ε ν τ)) → Run (NetworkState ε ν τ μ) r.Reply
  | .typeOf node => return ((← get).stored.getD node none).getD (n.typeOf node)
  | .storeType node type => modify fun s => { s with stored := s.stored.insert node type }
  | .reportError message node => record (.reported message node)
  | .selectedMethod call => return (← get).targets.get? call
  | .register member => addTo (n.registrar extension) member
  | .unregister member => removeFrom (n.registrar extension) member
  | .write line => record (.wrote line)
  | .readMemory => return (← get).memory
  | .writeMemory memory => modify fun s => { s with memory }
  | .perform step => do
    let _ ← n.stepBy invoke step
    return

/-- How a member responds. Dispatchers and extensions that call each other more deeply than the
first argument says fail, as a dispatcher does that is a member of its own registry. -/
def invoke : Nat → Invoke ε ν τ μ
  | 0, _, _ => Run.fail .nestedTooDeeply
  | depth + 1, .dispatcher name, call => (n.dispatcherAt (invoke depth) name).dispatch call
  | depth + 1, .extension e, call => do
    record (.consulted e call)
    (n.behaviour e call).run (n.serve (invoke depth) e)

/-- Takes one step, with members nested no deeper than `depth`. -/
def step (depth : Nat) : NetworkStep ε ν τ → Run (NetworkState ε ν τ μ) (StepResult τ) :=
  n.stepBy (n.invoke depth)

end Network

end ExtensibleCheck
