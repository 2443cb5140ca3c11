import ExtensibleCheck.Proofs.Session.Journal
import Mathlib.Logic.Relation

/-! The single changes that a session is made of. Whatever is stored, selected, reported or registered
is entered into the journal in the same breath, so that what the state is at any moment can be told
from the journal up to then. A property of states that every single change keeps is kept by whole
runs, also by those that are aborted. -/

namespace ExtensibleCheck

/-- Whether a method can be selected for the node. -/
def Occurrence.isCall (o : Occurrence) : Bool :=
  o.kind = .callExpression || o.kind = .newExpression

/-- Whether the use of a hook tells of a method that was selected. -/
def HookCall.isSelection {ν τ : Type} : HookCall ν τ → Bool
  | notify (.methodSelection _ _) => true
  | _ => false

/-- Whether an event only notes what goes on, and comes with no change of the state. -/
def Event.isNote {ι : Type} : Event ι → Bool
  | raised call _ => !call.isSelection
  | consulted _ _ | settled _ _ | brought _ _ | wrote _ | printed _ => true
  | _ => false

namespace SessionState

variable {ι μ : Type}

/-- The state with a method selected for a call. Its return type, if it has one, becomes the type of
the call. -/
def selecting (s : SessionState ι μ) (call : Occurrence) (target : Candidate CheckedType) :
    SessionState ι μ :=
  { s with
    targets := s.targets.insert call.id target
    stored := match target.returns with
      | some type => s.stored.insert call.id (some type)
      | none => s.stored }

/-- One change of the state. Only the scopes and the memory of the extensions change without an
entry. When a method is selected, telling of it begins in the same breath. -/
inductive Change [DecidableEq ι] (s : SessionState ι μ) : SessionState ι μ → Prop
  | note {event : Event ι} : event.isNote → Change s (s.record event)
  | lookUp (o : Occurrence) : Change s (s.record (.lookedUp o (s.typeOf o)))
  | probe (o : Occurrence) : Change s (s.record (.probed o (s.hasStored o)))
  | readTarget (call : Occurrence) : Change s (s.record (.recalled call (s.target? call)))
  | report (d : Diagnostic) : d.isError →
      Change s ({ s with findings := s.findings.add d }.record (.reported d))
  | store (o : Occurrence) (type : Option CheckedType) :
      Change s ({ s with stored := s.stored.insert o.id type }.record (.stored o type))
  | select {call : Occurrence} (target : Candidate CheckedType) : call.isCall →
      Change s (((s.selecting call target).record (.selected call target)).record
        (.raised (.notify (.methodSelection call target)) s.registry))
  | register (extension : ι) :
      Change s ({ s with registry := s.registry.addGlobal (some extension) }.record
        (.registered extension))
  | unregister (extension : ι) :
      Change s ({ s with registry := s.registry.removeGlobal (some extension) }.record
        (.unregistered extension))
  | scopes (scopes : List (List ι)) : Change s { s with registry := { s.registry with scopes } }
  | memory (memory : μ) : Change s { s with memory }

variable [DecidableEq ι]

/-- Any number of changes, one after the other. -/
abbrev Changes : SessionState ι μ → SessionState ι μ → Prop := Relation.ReflTransGen Change

instance : IsPreorder (SessionState ι μ) Changes where
  refl _ := .refl
  trans _ _ _ := .trans

/-- What every single change keeps, any number of them keeps. -/
theorem Changes.keep {I : SessionState ι μ → Prop} {s t : SessionState ι μ} (h : Changes s t)
    (hkeep : ∀ {s t}, Change s t → I s → I t) (hs : I s) : I t := by
  induction h with
  | refl => exact hs
  | tail _ hchange ih => exact hkeep hchange ih

end SessionState

open Run SessionState

namespace Session

variable {ι μ : Type} [DecidableEq ι]

/-- However the run ends, it got there by single changes. -/
abbrev IsGradual {α : Type} (m : Session ι μ α) : Prop := Keeps Changes (fun _ => True) m

theorem gradual_of_after {m : Session ι μ Unit} (h : ∀ s, Change s (m.after s)) : IsGradual m :=
  ⟨fun s => .single (h s), fun _ => trivial⟩

theorem gradual_record {event : Event ι} (h : event.isNote) :
    IsGradual (record event : Session ι μ Unit) :=
  gradual_of_after fun _ => .note h

theorem gradual_print (line : String) : IsGradual (print line : Session ι μ Unit) :=
  gradual_record rfl

theorem gradual_report (code : Code) (message : String) (o : Occurrence) :
    IsGradual (report code message o : Session ι μ Unit) :=
  gradual_of_after fun _ => .report _ rfl

theorem gradual_typeOf (o : Occurrence) : IsGradual (typeOf o : Session ι μ CheckedType) :=
  ⟨fun _ => .single (.lookUp o), fun _ => trivial⟩

theorem gradual_hasStored (o : Occurrence) : IsGradual (hasStored o : Session ι μ Bool) :=
  ⟨fun _ => .single (.probe o), fun _ => trivial⟩

theorem gradual_register (extension : ι) : IsGradual (register extension : Session ι μ Unit) :=
  gradual_of_after fun _ => .register extension

/-- Each request of an extension is served by one change, or by none. -/
theorem gradual_serve (r : Request ι Occurrence CheckedType μ Empty) : IsGradual (serve r) := by
  cases r with
  | typeOf node => exact gradual_typeOf node
  | storeType node type => exact gradual_of_after fun _ => .store node type
  | reportError message node => exact gradual_report _ message node
  | selectedMethod call => exact ⟨fun _ => .single (.readTarget call), fun _ => trivial⟩
  | register extension => exact gradual_register extension
  | unregister extension => exact gradual_of_after fun _ => .unregister extension
  | write line => exact gradual_record rfl
  | readMemory => exact Keeps.get.bind fun _ => Keeps.pure _
  | writeMemory memory => exact gradual_of_after fun _ => .memory memory
  | perform request => exact nomatch request

theorem gradual_run {α : Type} (action : SessionAction ι μ α) : IsGradual (action.run serve) :=
  Action.keeps_run gradual_serve (fun _ _ => trivial) action

end Session

namespace Checker

open Session

variable {ι μ : Type} [DecidableEq ι] (c : Checker ι μ)

theorem gradual_dispatch (call : HookCall Occurrence CheckedType) :
    IsGradual (c.dispatcher.dispatch call) := by
  refine Dispatcher.keeps_dispatch (fun e call => ?_) gradual_print trivial call
  exact (gradual_record rfl).bind fun _ => gradual_run _

theorem gradual_raise {call : HookCall Occurrence CheckedType} (h : call.isSelection = false) :
    IsGradual (c.raise call) := by
  refine Keeps.get.bind fun s => (gradual_record ?_).bind fun _ => ?_
  · rw [Event.isNote, h, Bool.not_false]
  · exact (c.gradual_dispatch call).bind fun answer => (gradual_record rfl).bind fun _ =>
      Keeps.pure answer

/-- A method is selected by one change, of which everybody is told then. -/
theorem gradual_select {call : Occurrence} (h : call.isCall) (target : Candidate CheckedType) :
    IsGradual (c.select call target) := by
  have hselect : IsGradual (do
      modify (·.selecting call target)
      record (.selected call target)
      record (.raised (.notify (.methodSelection call target)) (← get).registry) : Session ι μ Unit) :=
    gradual_of_after fun _ => .select target h
  have hsettle (answer : Unit) : IsGradual (do
      record (.settled (.notify (.methodSelection call target)) answer)
      return answer : Session ι μ Unit) :=
    (gradual_record rfl).bind fun _ => Keeps.pure answer
  have hall := hselect.bind fun _ =>
    (c.gradual_dispatch (.notify (.methodSelection call target))).bind hsettle
  exact hall

theorem gradual_localExtensionsFor (closure : Occurrence) :
    IsGradual (c.localExtensionsFor closure) := by
  have hprovided : IsGradual (c.provided closure) := by
    rw [provided]
    split
    · exact Keeps.pure []
    · exact gradual_run _
  rw [localExtensionsFor_eq]
  exact hprovided.bind fun _ => (gradual_record rfl).bind fun _ => Keeps.pure _

end Checker

end ExtensibleCheck
