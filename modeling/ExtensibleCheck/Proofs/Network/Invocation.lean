import ExtensibleCheck.Network.Basic
import ExtensibleCheck.Proofs.Run.Follows

/-! What the members of a network do when they are consulted. It depends neither on the lines that
dispatchers have printed nor on how deeply calls may nest, unless that is not deep enough. -/

namespace ExtensibleCheck

open Run

variable {ε ν τ μ : Type}

/-- Whether something happened other than that a dispatcher printed a line. -/
def NetworkEvent.unprinted : NetworkEvent ε ν τ → Bool
  | printed _ => false
  | _ => true

namespace NetworkState

/-- The state without the lines that dispatchers printed. -/
def unprinted (s : NetworkState ε ν τ μ) : NetworkState ε ν τ μ :=
  { s with journal := s.journal.filter NetworkEvent.unprinted }

/-- Whether every registry is as it is in `s`. -/
def SameRegistries (s t : NetworkState ε ν τ μ) : Prop := ∀ id, t.registry id = s.registry id

theorem registry_unprinted (s : NetworkState ε ν τ μ) (id : RegistryId) :
    s.unprinted.registry id = s.registry id := rfl

theorem SameRegistries.of_unprinted_eq {s t t' : NetworkState ε ν τ μ}
    (h : t.unprinted = t'.unprinted) (ht : s.SameRegistries t) : s.SameRegistries t' := by
  intro id
  rw [← registry_unprinted, ← h]
  exact ht id

end NetworkState

open NetworkState

namespace Network

/-- The calls are nested too deeply to be followed. -/
def TooDeep (halt : Halt) : Prop := halt = .thrown .nestedTooDeeply

section

variable {P : Halt → Prop}

theorem record_follows (event : NetworkEvent ε ν τ) :
    Follows unprinted (fun _ => True) P (record event : Run (NetworkState ε ν τ μ) Unit)
      (record event) := by
  refine Follows.modify (fun s =>
    { s with journal := if event.unprinted then s.journal.push event else s.journal })
    (fun s => ?_) fun _ => id
  simp only [unprinted, Array.filter_push]

/-- A printed line leaves everything else as it is. -/
theorem print_alike (s : NetworkState ε ν τ μ) (line : String) :
    Alike unprinted s.SameRegistries (record (.printed line)) (pure ()) := by
  intro t t' hview ht
  refine Or.inr ⟨congrArg (EStateM.Result.ok ()) (Eq.trans ?_ hview), ht⟩
  simp only [unprinted, Array.filter_push]
  rfl

theorem change_follows {g : NetworkState ε ν τ μ → NetworkState ε ν τ μ}
    (hg : ∀ s, (g s).unprinted = g s.unprinted) :
    Follows unprinted (fun _ => True) P (modify g : Run (NetworkState ε ν τ μ) Unit) (modify g) :=
  Follows.modify g hg fun _ => id

theorem popFrom_follows (id : RegistryId) :
    Follows unprinted (fun _ => True) P (popFrom id : Run (NetworkState ε ν τ μ) Unit)
      (popFrom id) := by
  refine Follows.get_bind fun s s' hview => ?_
  rw [← registry_unprinted s, hview, registry_unprinted]
  cases (s'.registry id).popLocal with
  | ok registry => exact change_follows fun _ => rfl
  | error failure => exact .throw _

variable (n : Network ε ν τ μ)

section

variable {invoke invoke' : Invoke ε ν τ μ}
  (h : ∀ member call, Follows unprinted (fun _ => True) P (invoke member call) (invoke' member call))

include h

theorem dispatcherAt_resembles (name : String) :
    (n.dispatcherAt invoke name).Resembles unprinted (fun _ => True) P
      (n.dispatcherAt invoke' name) where
  read := rfl
  limit := rfl
  label := rfl
  registry s s' hview := by
    show s.registry _ = s'.registry _
    rw [← registry_unprinted s, hview, registry_unprinted]
  say line := by
    unfold Dispatcher.say dispatcherAt
    split
    · exact record_follows _
    · exact .pure ()
  invoke := h

variable [DecidableEq ε] [DecidableEq ν]

theorem stepBy_follows (step : NetworkStep ε ν τ) :
    Follows unprinted (fun _ => True) P (n.stepBy invoke step) (n.stepBy invoke' step) := by
  cases step with
  | add name member => exact Follows.bind (change_follows fun _ => rfl) fun _ => .pure _
  | remove name member => exact Follows.bind (change_follows fun _ => rfl) fun _ => .pure _
  | push name members => exact Follows.bind (change_follows fun _ => rfl) fun _ => .pure _
  | pop name => exact (popFrom_follows _).bind fun _ => .pure _
  | describe member => exact .pure _
  | select call target => exact Follows.bind (change_follows fun _ => rfl) fun _ => .pure _
  | raise name call => exact ((n.dispatcherAt_resembles h name).dispatch call).bind fun _ => .pure _

theorem serve_follows (e : ε) (r : Request (Member ε) ν τ μ (NetworkStep ε ν τ)) :
    Follows unprinted (fun _ => True) P (n.serve invoke e r) (n.serve invoke' e r) := by
  have hread {α : Type} (f : NetworkState ε ν τ μ → α) (hf : ∀ s, f s.unprinted = f s) :
      Follows unprinted (fun _ => True) P (do return f (← get)) (do return f (← get)) := by
    refine Follows.get_bind fun s s' hview => ?_
    rw [← hf s, hview, hf]
    exact .pure _
  cases r with
  | typeOf node => exact hread _ fun _ => rfl
  | storeType node type => exact change_follows fun _ => rfl
  | reportError message node => exact record_follows _
  | selectedMethod call => exact hread _ fun _ => rfl
  | register member => exact change_follows fun _ => rfl
  | unregister member => exact change_follows fun _ => rfl
  | write line => exact record_follows _
  | readMemory => exact hread _ fun _ => rfl
  | writeMemory memory => exact change_follows fun _ => rfl
  | perform step => exact (n.stepBy_follows h step).bind fun _ => .pure _

end

variable [DecidableEq ε] [DecidableEq ν]

theorem invoke_succ_follows {depth depth' : Nat}
    (h : ∀ member call, Follows unprinted (fun _ => True) P (n.invoke depth member call)
      (n.invoke depth' member call)) (member : Member ε) (call : HookCall ν τ) :
    Follows unprinted (fun _ => True) P (n.invoke (depth + 1) member call)
      (n.invoke (depth' + 1) member call) := by
  cases member with
  | dispatcher name => exact (n.dispatcherAt_resembles h name).dispatch call
  | extension e =>
      exact (record_follows _).bind fun _ => Action.run_follows (n.serve_follows h e) _

end

variable [DecidableEq ε] [DecidableEq ν] (n : Network ε ν τ μ)

/-- The lines that dispatchers printed make no difference to what members do. -/
theorem invoke_alike (depth : Nat) (member : Member ε) (call : HookCall ν τ) :
    Alike unprinted (fun _ => True) (n.invoke depth member call) (n.invoke depth member call) := by
  induction depth generalizing member call with
  | zero => exact .throw _
  | succ depth ih => exact n.invoke_succ_follows ih member call

/-- Neither does it make a difference how deeply the calls may nest, as long as it is deep enough. -/
theorem invoke_follows {depth depth' : Nat} (hle : depth ≤ depth') (member : Member ε)
    (call : HookCall ν τ) : Follows unprinted (fun _ => True) TooDeep (n.invoke depth member call)
      (n.invoke depth' member call) := by
  induction depth generalizing depth' member call with
  | zero => exact .ofExcused rfl _
  | succ depth ih =>
      obtain ⟨depth', rfl⟩ := Nat.exists_eq_add_one.mpr (Nat.lt_of_lt_of_le depth.succ_pos hle)
      exact n.invoke_succ_follows (fun member call => ih (Nat.le_of_succ_le_succ hle) member call)
        member call

end Network

end ExtensibleCheck
