import ExtensibleCheck.Candidate

/-! The hooks: every occasion on which the checker turns to the extensions, with what it hands over
and what it wants to know. Nodes `ν` and types `τ` are left open. -/

namespace ExtensibleCheck

inductive Hook where
  | setup
  | finish
  | unresolvedVariable
  | unresolvedProperty
  | unresolvedAttribute
  | incompatibleAssignment
  | incompatibleReturn
  | ambiguousMethods
  | missingMethod
  | beforeVisitMethod
  | afterVisitMethod
  | beforeVisitClass
  | afterVisitClass
  | beforeMethodCall
  | afterMethodCall
  | methodSelection
  deriving DecidableEq

namespace Hook

def name : Hook → String
  | setup => "setup"
  | finish => "finish"
  | unresolvedVariable => "handleUnresolvedVariable"
  | unresolvedProperty => "handleUnresolvedProperty"
  | unresolvedAttribute => "handleUnresolvedAttribute"
  | incompatibleAssignment => "handleIncompatibleAssignment"
  | incompatibleReturn => "handleIncompatibleReturnType"
  | ambiguousMethods => "handleAmbiguousMethods"
  | missingMethod => "handleMissingMethod"
  | beforeVisitMethod => "beforeVisitMethod"
  | afterVisitMethod => "afterVisitMethod"
  | beforeVisitClass => "beforeVisitClass"
  | afterVisitClass => "afterVisitClass"
  | beforeMethodCall => "beforeMethodCall"
  | afterMethodCall => "afterMethodCall"
  | methodSelection => "onMethodSelection"

def all : List Hook :=
  [setup, finish, unresolvedVariable, unresolvedProperty, unresolvedAttribute,
    incompatibleAssignment, incompatibleReturn, ambiguousMethods, missingMethod, beforeVisitMethod,
    afterVisitMethod, beforeVisitClass, afterVisitClass, beforeMethodCall, afterMethodCall,
    methodSelection]

def ofName? (name : String) : Option Hook := all.find? (·.name == name)

end Hook

variable {ν τ : Type}

/-- Whether some extension takes care of a matter. -/
inductive Question (ν τ : Type) where
  | unresolvedVariable (node : ν)
  | unresolvedProperty (node : ν)
  | unresolvedAttribute (node : ν)
  | incompatibleAssignment (target value : τ) (node : ν)
  | incompatibleReturn (site : ν) (inferred : τ)
  | beforeVisitMethod (node : ν)
  | beforeVisitClass (node : ν)
  | beforeMethodCall (call : ν)
  deriving DecidableEq

namespace Question

def hook : Question ν τ → Hook
  | unresolvedVariable _ => .unresolvedVariable
  | unresolvedProperty _ => .unresolvedProperty
  | unresolvedAttribute _ => .unresolvedAttribute
  | incompatibleAssignment _ _ _ => .incompatibleAssignment
  | incompatibleReturn _ _ => .incompatibleReturn
  | beforeVisitMethod _ => .beforeVisitMethod
  | beforeVisitClass _ => .beforeVisitClass
  | beforeMethodCall _ => .beforeMethodCall

/-- The node that the question is about. -/
def node : Question ν τ → ν
  | unresolvedVariable node | unresolvedProperty node | unresolvedAttribute node
  | incompatibleAssignment _ _ node | incompatibleReturn node _ | beforeVisitMethod node
  | beforeVisitClass node | beforeMethodCall node => node

end Question

/-- A call of a method that its receiver does not have. -/
structure MissingMethod (ν τ : Type) where
  receiver : τ
  name : String
  arguments : List ν
  argumentTypes : List τ
  call : ν
  deriving DecidableEq

/-- News for which no answer is wanted. -/
inductive Notice (ν τ : Type) where
  | setup
  | finish
  | afterVisitMethod (node : ν)
  | afterVisitClass (node : ν)
  | afterMethodCall (call : ν)
  | methodSelection (call : ν) (target : Candidate τ)
  deriving DecidableEq

namespace Notice

def hook : Notice ν τ → Hook
  | setup => .setup
  | finish => .finish
  | afterVisitMethod _ => .afterVisitMethod
  | afterVisitClass _ => .afterVisitClass
  | afterMethodCall _ => .afterMethodCall
  | methodSelection _ _ => .methodSelection

def node? : Notice ν τ → Option ν
  | setup | finish => none
  | afterVisitMethod node | afterVisitClass node | afterMethodCall node
  | methodSelection node _ => some node

end Notice

/-- One use of a hook. -/
inductive HookCall (ν τ : Type) where
  /-- Does anybody take care of it? -/
  | ask (question : Question ν τ)
  /-- Which of the candidates for the call at `origin` remain? -/
  | narrow (candidates : List (Candidate τ)) (origin : ν)
  /-- Which methods could stand in for the missing one? -/
  | contribute (missing : MissingMethod ν τ)
  | notify (notice : Notice ν τ)
  deriving DecidableEq

namespace HookCall

/-- What the use of a hook is answered with. -/
@[reducible] def Answer : HookCall ν τ → Type
  | ask _ => Bool
  | narrow _ _ | contribute _ => List (Candidate τ)
  | notify _ => Unit

def hook : HookCall ν τ → Hook
  | ask question => question.hook
  | narrow _ _ => .ambiguousMethods
  | contribute _ => .missingMethod
  | notify notice => notice.hook

/-- The node that the hook is used for. -/
def node? : HookCall ν τ → Option ν
  | ask question => some question.node
  | narrow _ origin => some origin
  | contribute missing => some missing.call
  | notify notice => notice.node?

/-- The answer of an extension that has no opinion. -/
def neutral : (call : HookCall ν τ) → call.Answer
  | ask _ => false
  | narrow candidates _ => candidates
  | contribute _ => []
  | notify _ => ()

end HookCall

end ExtensibleCheck
