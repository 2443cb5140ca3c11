import ExtensibleCheck.Hook
import ExtensibleCheck.Run

/-! Extensions, and what they may do. Code of an extension is a tree of requests to its
surroundings: it can read and store types, report errors, look up the method selected for a call,
register and unregister extensions, write to the log, keep a memory of its own, fail, and nothing
else. Whatever is shown of all such trees holds of every extension. -/

namespace ExtensibleCheck

/-- How an extension is called in messages: by the class it is an instance of, or not at all. -/
inductive ExtensionLabel where
  | anonymous
  | named (className : String)
  deriving DecidableEq

/-- A class without a name does not give one to its instances. -/
def ExtensionLabel.describe : ExtensionLabel → String
  | anonymous => "anonymous extension"
  | named "" => "anonymous extension"
  | named className => className

/-- What code of an extension can ask of its surroundings. Extensions are identified by `ι`, their
memory is a `μ`, and `χ` are requests that only some surroundings serve. -/
inductive Request (ι ν τ μ χ : Type) where
  /-- The type of a node, one stored by an extension first. -/
  | typeOf (node : ν)
  /-- Stores a type for a node. To store none is to vouch for the node without giving it a type. -/
  | storeType (node : ν) (type : Option τ)
  | reportError (message : String) (node : ν)
  /-- The method selected for a call, if there is one yet. -/
  | selectedMethod (call : ν)
  | register (extension : ι)
  | unregister (extension : ι)
  | write (line : String)
  | readMemory
  | writeMemory (memory : μ)
  | perform (request : χ)

variable {ι ν τ μ χ : Type}

@[reducible] def Request.Reply : Request ι ν τ μ χ → Type
  | typeOf _ => τ
  | selectedMethod _ => Option (Candidate τ)
  | readMemory => μ
  | storeType _ _ | reportError _ _ | register _ | unregister _ | write _ | writeMemory _
  | perform _ => Unit

/-- Code of an extension that ends with an `α`, or fails. -/
inductive Action (ι ν τ μ χ : Type) (α : Type) where
  | done (result : α)
  | fail (kind : ErrorClass) (message : String)
  | request (request : Request ι ν τ μ χ) (next : request.Reply → Action ι ν τ μ χ α)

namespace Action

variable {α β : Type}

def bind : Action ι ν τ μ χ α → (α → Action ι ν τ μ χ β) → Action ι ν τ μ χ β
  | done result, f => f result
  | fail kind message, _ => fail kind message
  | request r next, f => request r fun reply => (next reply).bind f

instance : Monad (Action ι ν τ μ χ) where
  pure := done
  bind := bind

/-- The code that makes one request and ends with the reply. -/
def of (r : Request ι ν τ μ χ) : Action ι ν τ μ χ r.Reply := request r done

/-- Carries out code in surroundings that serve each request by `serve`. -/
def run {σ : Type} (serve : (r : Request ι ν τ μ χ) → Run σ r.Reply) :
    Action ι ν τ μ χ α → Run σ α
  | done result => pure result
  | fail kind message => Run.fail (.raised kind message)
  | request r next => do (next (← serve r)).run serve

end Action

/-- How each extension responds to each use of a hook. -/
abbrev Behaviour (ι ν τ μ χ : Type) :=
  ι → (call : HookCall ν τ) → Action ι ν τ μ χ call.Answer

/-- An extension that has no opinion on anything. -/
def Behaviour.neutral (call : HookCall ν τ) : Action ι ν τ μ χ call.Answer := .done call.neutral

end ExtensibleCheck
