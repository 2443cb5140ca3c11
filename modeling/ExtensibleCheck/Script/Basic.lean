import ExtensibleCheck.Extension
import ExtensibleCheck.OrderedMap

/-! Extensions given as tables of rules instead of code. For every hook a script lists rules; the
first that applies is followed: its deeds are done and its answer is given. Each use of a hook
leaves a line in the log, unless the script is a quiet one and has no rules for the hook. -/

namespace ExtensibleCheck

namespace Script

/-- How a script refers to a type: outright, or to one that the hook was used with. -/
inductive TypeRef (τ : Type) where
  | given (type : τ)
  | argument (index : Nat)
  | receiver
  | target
  | value
  | inferred

variable {ν τ : Type}

/-- The type referred to, if the hook was used with such a one. -/
def TypeRef.resolve? (call : Option (HookCall ν τ)) : TypeRef τ → Option τ
  | given type => some type
  | argument index => match call with
    | some (.contribute missing) => missing.argumentTypes[index]?
    | _ => none
  | receiver => match call with
    | some (.contribute missing) => some missing.receiver
    | _ => none
  | target => match call with
    | some (.ask (.incompatibleAssignment type _ _)) => some type
    | _ => none
  | value => match call with
    | some (.ask (.incompatibleAssignment _ type _)) => some type
    | _ => none
  | inferred => match call with
    | some (.ask (.incompatibleReturn _ type)) => some type
    | _ => none

/-- A candidate as scripts write it down. Without a name it is called like the missing method. -/
structure CandidateSpec (τ : Type) where
  name : Option String := none
  parameters : List (String × Option (TypeRef τ)) := []
  returns : Option (TypeRef τ) := none
  owner : Option String := none
  ownerType : Option (TypeRef τ) := none
  synthetic : Bool := true

def CandidateSpec.build (call : Option (HookCall ν τ)) (spec : CandidateSpec τ) : Candidate τ where
  name := spec.name.getD <| match call with
    | some (.contribute missing) => missing.name
    | _ => ""
  parameters := spec.parameters.map fun (name, type) => (name, type.bind (·.resolve? call))
  returns := spec.returns.bind (·.resolve? call)
  owner := spec.owner.map fun name => ⟨name, spec.ownerType.bind (·.resolve? call)⟩
  synthetic := spec.synthetic

/-- Ways of dealing with several candidates. -/
inductive Narrowing (τ : Type) where
  | dropLast
  | dropFirst
  | take (count : Nat)
  | reverse
  | twice
  | nothing
  | ownedBy (owners : List String)
  | called (names : List String)
  | replace (specs : List (CandidateSpec τ))

def Narrowing.apply (call : HookCall ν τ) (candidates : List (Candidate τ)) :
    Narrowing τ → List (Candidate τ)
  | dropLast => candidates.dropLast
  | dropFirst => candidates.tail
  | take count => candidates.take count
  | reverse => candidates.reverse
  | twice => candidates ++ candidates
  | nothing => []
  | ownedBy owners => candidates.filter fun c => c.owner.any fun owner => owner.name ∈ owners
  | called names => candidates.filter (·.name ∈ names)
  | replace specs => specs.map (·.build (some call))

/-- What a rule answers. An answer that does not suit the hook counts for nothing. -/
inductive Reply (τ : Type) where
  | verdict (answer : Bool)
  | candidates (specs : List (CandidateSpec τ))
  | narrowing (way : Narrowing τ)

def Reply.answer (reply : Option (Reply τ)) : (call : HookCall ν τ) → call.Answer
  | .ask question => match reply with
    | some (.verdict answer) => answer
    | _ => (HookCall.ask question).neutral
  | .narrow offered origin => match reply with
    | some (.narrowing way) => way.apply (.narrow offered origin) offered
    | _ => offered
  | .contribute missing => match reply with
    | some (.candidates specs) => specs.map (·.build (some (.contribute missing)))
    | _ => []
  | .notify _ => ()

/-- Which node a deed is about: the one that the hook was used for, one above it, or another. -/
inductive Place where
  | here
  | up (levels : Nat)
  | number (n : Nat) (file : Option Nat)
  | labelled (label : String)

/-- Something that a rule does. The requests `χ` are those that only some surroundings serve. -/
inductive Deed (ι τ χ : Type) where
  | register (extension : ι)
  | unregister (extension : ι)
  | store (type : Option (TypeRef τ)) (place : Place)
  | error (message : String) (place : Place)
  | showType (place : Place)
  | showTarget (place : Place)
  | fail (kind : ErrorClass) (message : String)
  | perform (request : χ)

structure Rule (ι τ χ : Type) where
  /-- The subjects that the rule is for; without a list it is for all. -/
  subjects : Option (List String) := none
  /-- How often the rule may be followed. -/
  limit : Option Nat := none
  deeds : List (Deed ι τ χ) := []
  reply : Option (Reply τ) := none

/-- How often each rule has been followed, by extension, hook and place in the list. -/
abbrev Firings := OrderedMap (String × Hook × Nat) Nat

def Rule.applies {ι χ : Type} (rule : Rule ι τ χ) (subject : String) (fired : Nat) : Bool :=
  rule.subjects.all (subject ∈ ·) && rule.limit.all (fired < ·)

/-- How scripts see nodes and types. -/
structure World (ν τ : Type) where
  /-- What a hook that is used for a node only is about. -/
  subject : Hook → ν → String
  /-- What follows the description of a node in the log. -/
  mark : ν → String
  showType : τ → String
  /-- The node at a place, seen from the node that the hook was used for. -/
  locate : Option ν → Place → Option ν

namespace World

variable (s : World ν τ)

/-- What a use of a hook is about; rules are chosen by it. -/
def subjectOf : HookCall ν τ → String
  | .ask (.incompatibleAssignment target value _) => s.showType target ++ " <- " ++ s.showType value
  | .ask (.incompatibleReturn _ inferred) => s.showType inferred
  | .ask question => s.subject question.hook question.node
  | .narrow candidates _ => ",".intercalate (candidates.map Candidate.label)
  | .contribute missing => missing.name
  | .notify (.methodSelection _ target) => target.name
  | .notify notice => (notice.node?.map (s.subject notice.hook)).getD ""

/-- What a use of a hook is about, as the log shows it. -/
def detailOf : HookCall ν τ → String
  | .contribute missing => s.showType missing.receiver ++ "#" ++ missing.name ++ "("
    ++ ", ".intercalate (missing.argumentTypes.map s.showType) ++ ")"
  | .notify (.methodSelection _ target) => target.label
  | call => s.subjectOf call

def logLine (extension : String) (call : HookCall ν τ) : String :=
  extension ++ "." ++ call.hook.name ++ "(" ++ s.detailOf call ++ ")"
    ++ (call.node?.map s.mark).getD ""

end World

end Script

/-- A scripted extension. -/
structure Script (ι τ χ : Type) where
  label : ExtensionLabel := .named "Scripted"
  /-- Whether hooks without rules go unnoticed. -/
  quiet : Bool := false
  rules : Hook → Option (List (Script.Rule ι τ χ)) := fun _ => none

namespace Script

variable {ι ν τ χ : Type}

/-- Code of a scripted extension. -/
abbrev Code (ι ν τ χ α : Type) := Action ι ν τ Firings χ α

def request (r : Request ι ν τ Firings χ) : Code ι ν τ χ r.Reply := .of r

/-- The failure of a script that reports an error without a node. -/
def misplacedError : String := "Cannot read properties of undefined (reading 'getSourceFile')"

/-- Does one deed. Where there is no node, no method is selected and no error can be reported; types
are neither stored nor shown. -/
def Deed.run (s : World ν τ) (self : String) (call : HookCall ν τ) :
    Deed ι τ χ → Code ι ν τ χ Unit
  | register extension => request (.register extension)
  | unregister extension => request (.unregister extension)
  | store type place =>
    match s.locate call.node? place with
    | some node => request (.storeType node (type.bind (·.resolve? (some call))))
    | none => return
  | error message place =>
    match s.locate call.node? place with
    | some node => request (.reportError message node)
    | none => .fail .type misplacedError
  | showType place =>
    match s.locate call.node? place with
    | some node => do
      let type ← request (.typeOf node)
      request (.write (self ++ ": type " ++ s.showType type))
    | none => return
  | showTarget place => do
    let target ← match s.locate call.node? place with
      | some node => request (.selectedMethod node)
      | none => pure none
    request (.write (self ++ ": target " ++ (target.map Candidate.label).getD "none"))
  | fail kind message => .fail kind message
  | perform r => request (.perform r)

/-- Follows the first rule that applies, counting it before its deeds are done. -/
def follow (s : World ν τ) (self : String) (rules : List (Rule ι τ χ)) (call : HookCall ν τ) :
    Code ι ν τ χ call.Answer := do
  let firings ← request .readMemory
  let fired (index : Nat) : Nat := firings.getD (self, call.hook, index) 0
  match rules.zipIdx.find? fun (rule, index) => rule.applies (s.subjectOf call) (fired index) with
  | none => return call.neutral
  | some (rule, index) =>
    request (.writeMemory (firings.insert (self, call.hook, index) (fired index + 1)))
    rule.deeds.forM (·.run s self call)
    return Reply.answer rule.reply call

/-- How the extension called `self` responds to a use of a hook. -/
def respond (s : World ν τ) (self : String) (script : Script ι τ χ) (call : HookCall ν τ) :
    Code ι ν τ χ call.Answer := do
  match script.rules call.hook, script.quiet with
  | none, true => return call.neutral
  | rules, _ =>
    request (.write (s.logLine self call))
    follow s self (rules.getD []) call

end Script

end ExtensibleCheck
