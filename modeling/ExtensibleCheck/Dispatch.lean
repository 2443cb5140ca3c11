import ExtensibleCheck.Extension
import ExtensibleCheck.Registry.Cursor

/-! Dispatch: one use of a hook becomes one answer. The extensions of a registry are consulted in
turn by a traversal of the registry as it is at each step, so that extensions registered meanwhile
are consulted too. How the answers are put together depends on the hook: the first extension that
takes care of a matter ends the question, candidates are narrowed until there is no choice left,
contributed methods are collected from everybody, and news reach everybody. -/

namespace ExtensibleCheck

/-- A dispatcher, given by how it reaches its registry and its extensions in a state `σ`. -/
structure Dispatcher (σ ι κ ν τ : Type) where
  registry : σ → Registry ι κ
  read : κ → List (Option ι)
  invoke : ι → (call : HookCall ν τ) → Run σ call.Answer
  label : ι → ExtensionLabel
  print : String → Run σ Unit
  /-- Whether to say which extension took care of a matter. -/
  verbose : Bool
  /-- How many extensions one dispatch consults before it is cut off. -/
  limit : Nat

/-- Whether a traversal goes on, and with what. -/
inductive Progress (β : Type) where
  | go (result : β)
  | stop (result : β)

namespace Dispatcher

variable {σ ι κ ν τ β : Type}

/-- Consults the extensions from `cursor` on, of which there may be no more than the first argument
says. -/
def consult (d : Dispatcher σ ι κ ν τ) (f : β → ι → Run σ (Progress β)) :
    Nat → Cursor κ → β → Run σ β
  | 0, _, _ => throw .exhausted
  | limit + 1, cursor, result => do
    match cursor.advance d.read (d.registry (← get)) with
    | (none, _) => return result
    | (some extension, cursor) =>
      match ← f result extension with
      | .go result => d.consult f limit cursor result
      | .stop result => return result

/-- Consults the extensions in turn, starting from nothing. -/
def consultAll (d : Dispatcher σ ι κ ν τ) (start : β) (f : β → ι → Run σ (Progress β)) : Run σ β :=
  d.consult f (d.limit + 1) .unopened start

def say (d : Dispatcher σ ι κ ν τ) (line : String) : Run σ Unit :=
  if d.verbose then d.print line else pure ()

/-- Whether some extension takes care; those after the first that does are not asked. -/
def ask (d : Dispatcher σ ι κ ν τ) (question : Question ν τ) : Run σ Bool :=
  d.consultAll false fun _ extension => do
    if ← d.invoke extension (.ask question) then
      d.say (question.hook.name ++ " handled by " ++ (d.label extension).describe)
      return .stop true
    else return .go false

/-- The candidates that remain. Nobody is asked any more once at most one does. -/
def narrow (d : Dispatcher σ ι κ ν τ) (candidates : List (Candidate τ)) (origin : ν) :
    Run σ (List (Candidate τ)) :=
  d.consultAll candidates fun candidates extension =>
    if candidates.length ≤ 1 then return .stop candidates
    else return .go (← d.invoke extension (.narrow candidates origin))

/-- The methods that all extensions contribute, each of them with an owner. -/
def contribute (d : Dispatcher σ ι κ ν τ) (missing : MissingMethod ν τ) :
    Run σ (List (Candidate τ)) :=
  d.consultAll [] fun found extension => do
    let contributed ← d.invoke extension (.contribute missing)
    return .go (found ++ contributed.map Candidate.owned)

/-- The line about how many extensions got the news, where there is one. -/
def summary? (count : Nat) : Notice ν τ → Option String
  | .setup => some ("Set up " ++ toString count ++ " type checking extension(s)")
  | .finish => some ("Finished " ++ toString count ++ " type checking extension(s)")
  | _ => none

/-- Tells every extension. -/
def notify (d : Dispatcher σ ι κ ν τ) (notice : Notice ν τ) : Run σ Unit := do
  let count ← d.consultAll 0 fun count extension => do
    d.invoke extension (.notify notice)
    return .go (count + 1)
  match summary? count notice with
  | some line => d.say line
  | none => return

def dispatch (d : Dispatcher σ ι κ ν τ) : (call : HookCall ν τ) → Run σ call.Answer
  | .ask question => d.ask question
  | .narrow candidates origin => d.narrow candidates origin
  | .contribute missing => d.contribute missing
  | .notify notice => d.notify notice

end Dispatcher

end ExtensibleCheck
