import ExtensibleCheck.Proofs.Run.Keeps

/-! Transcripts of dispatches. A dispatcher that is overheard does what it always does, and every turn
that an extension has is noted down beside the state: who was consulted, on what, in which state, and how
that ended. What is proved of the transcript of a dispatch is thereby proved of the dispatch. -/

namespace ExtensibleCheck

/-- One turn of an extension in the course of a dispatch. -/
structure Turn (σ ι ν τ : Type) where
  extension : ι
  call : HookCall ν τ
  before : σ
  outcome : EStateM.Result Halt σ call.Answer

variable {σ ι κ ν τ α β L : Type}

namespace Turn

/-- The state that the turn left. -/
def after (turn : Turn σ ι ν τ) : σ :=
  match turn.outcome with
  | .ok _ t | .error _ t => t

/-- The extension was consulted on `call`, and came to an answer. -/
def Gave (turn : Turn σ ι ν τ) (call : HookCall ν τ) (answer : call.Answer) : Prop :=
  turn = ⟨turn.extension, call, turn.before, .ok answer turn.after⟩

/-- The extension was consulted on `call`, and failed. -/
def Failed (turn : Turn σ ι ν τ) (call : HookCall ν τ) (halt : Halt) : Prop :=
  turn = ⟨turn.extension, call, turn.before, .error halt turn.after⟩

variable {turn : Turn σ ι ν τ} {call : HookCall ν τ} {answer answer' : call.Answer} {halt : Halt}

theorem Gave.unique (h : turn.Gave call answer) (h' : turn.Gave call answer') : answer = answer' := by
  have hsame := h.symm.trans h'
  simpa using hsame

theorem Failed.not_gave (h : turn.Failed call halt) : ¬turn.Gave call answer := by
  intro h'
  have hsame := h.symm.trans h'
  simp at hsame

end Turn

namespace Run

/-- The same ending, with something kept beside the state. -/
def beside (log : L) : EStateM.Result Halt σ α → EStateM.Result Halt (σ × L) α
  | .ok a s => .ok a (s, log)
  | .error halt s => .error halt (s, log)

/-- The same ending, without what is kept beside the state. -/
def bare : EStateM.Result Halt (σ × L) α → EStateM.Result Halt σ α
  | .ok a s => .ok a s.1
  | .error halt s => .error halt s.1

/-- A run that does the same as another, whatever it keeps beside the state. -/
def Accompanies (m' : Run (σ × L) α) (m : Run σ α) : Prop := ∀ s log, bare (m' (s, log)) = m s

namespace Accompanies

variable {m' : Run (σ × L) α} {m : Run σ α}

theorem pure (a : α) : Accompanies (pure a : Run (σ × L) α) (pure a) := fun _ _ => rfl

theorem bind {f' : α → Run (σ × L) β} {f : α → Run σ β} (hm : Accompanies m' m)
    (hf : ∀ a, Accompanies (f' a) (f a)) : Accompanies (m' >>= f') (m >>= f) := by
  intro s log
  have hfirst := hm s log
  cases hrun : m' (s, log) with
  | ok a r =>
      rw [hrun] at hfirst
      rw [bind_of_ok hrun, bind_of_ok hfirst.symm]
      exact hf a r.1 r.2
  | error halt r =>
      rw [hrun] at hfirst
      rw [bind_of_error hrun, bind_of_error hfirst.symm]
      rfl

theorem ite {p : Prop} [Decidable p] {m₂' : Run (σ × L) α} {m₂ : Run σ α} (hm : Accompanies m' m)
    (hm₂ : Accompanies m₂' m₂) : Accompanies (if p then m' else m₂') (if p then m else m₂) := by
  split
  · exact hm
  · exact hm₂

end Accompanies

end Run

open Run

namespace Dispatcher

/-- The dispatcher, with the turns that its extensions have noted down beside the state. -/
def overheard (d : Dispatcher σ ι κ ν τ) : Dispatcher (σ × List (Turn σ ι ν τ)) ι κ ν τ where
  registry s := d.registry s.1
  read := d.read
  invoke extension call := fun (s, turns) =>
    beside (turns ++ [⟨extension, call, s, d.invoke extension call s⟩]) (d.invoke extension call s)
  label := d.label
  print line := fun (s, turns) => beside turns (d.print line s)
  verbose := d.verbose
  limit := d.limit

/-- The turns that the extensions have in the course of a dispatch. -/
def transcript (d : Dispatcher σ ι κ ν τ) (call : HookCall ν τ) (s : σ) : List (Turn σ ι ν τ) :=
  ((d.overheard.dispatch call).after (s, [])).2

variable (d : Dispatcher σ ι κ ν τ)

/-- The round that news make before anything is said about them, with the number of those who got them. -/
def round (notice : Notice ν τ) : Run σ Nat :=
  d.consultAll 0 fun count extension => do
    d.invoke extension (.notify notice)
    return .go (count + 1)

/-- What is said about the news after the round. -/
def announce (count : Nat) (notice : Notice ν τ) : Run σ Unit :=
  match summary? count notice with
  | some line => d.say line
  | none => pure ()

theorem notify_eq_round (notice : Notice ν τ) :
    d.notify notice = d.round notice >>= fun count => d.announce count notice := rfl

theorem overheard_invoke_accompanies (extension : ι) (call : HookCall ν τ) :
    Accompanies (d.overheard.invoke extension call) (d.invoke extension call) := by
  intro s turns
  show bare (beside _ (d.invoke extension call s)) = _
  cases d.invoke extension call s <;> rfl

theorem overheard_say_accompanies (line : String) :
    Accompanies (d.overheard.say line) (d.say line) := by
  refine .ite ?_ (.pure ())
  intro s turns
  show bare (beside turns (d.print line s)) = _
  cases d.print line s <;> rfl

theorem overheard_consult_accompanies {f' : β → ι → Run (σ × List (Turn σ ι ν τ)) (Progress β)}
    {f : β → ι → Run σ (Progress β)} (hf : ∀ b extension, Accompanies (f' b extension) (f b extension))
    (limit : Nat) (cursor : Cursor κ) (b : β) :
    Accompanies (d.overheard.consult f' limit cursor b) (d.consult f limit cursor b) := by
  induction limit generalizing cursor b with
  | zero => exact fun _ _ => rfl
  | succ limit ih =>
      intro s turns
      rcases hstep : cursor.advance d.read (d.registry s) with ⟨_ | extension, next⟩
      · have hstep' : cursor.advance d.overheard.read (d.overheard.registry (s, turns)) = (none, next) :=
          hstep
        rw [consult_of_none hstep, consult_of_none hstep']
        rfl
      · have hstep' : cursor.advance d.overheard.read (d.overheard.registry (s, turns)) =
            (some extension, next) := hstep
        rw [consult_of_some hstep, consult_of_some hstep']
        refine (hf b extension).bind (fun progress => ?_) s turns
        cases progress with
        | go b => exact ih next b
        | stop b => exact .pure b

theorem overheard_ask_accompanies (question : Question ν τ) :
    Accompanies (d.overheard.ask question) (d.ask question) := by
  unfold ask consultAll
  refine d.overheard_consult_accompanies (fun _ extension => ?_) _ _ _
  refine (d.overheard_invoke_accompanies extension _).bind fun handled => ?_
  cases handled with
  | true => exact (d.overheard_say_accompanies _).bind fun _ => .pure _
  | false => exact .pure _

theorem overheard_narrow_accompanies (candidates : List (Candidate τ)) (origin : ν) :
    Accompanies (d.overheard.narrow candidates origin) (d.narrow candidates origin) := by
  unfold narrow consultAll
  refine d.overheard_consult_accompanies (fun candidates extension => .ite (.pure _) ?_) _ _ _
  exact (d.overheard_invoke_accompanies extension _).bind fun _ => .pure _

theorem overheard_contribute_accompanies (missing : MissingMethod ν τ) :
    Accompanies (d.overheard.contribute missing) (d.contribute missing) := by
  unfold contribute consultAll
  refine d.overheard_consult_accompanies (fun _ extension => ?_) _ _ _
  exact (d.overheard_invoke_accompanies extension _).bind fun _ => .pure _

theorem overheard_round_accompanies (notice : Notice ν τ) :
    Accompanies (d.overheard.round notice) (d.round notice) := by
  unfold round consultAll
  refine d.overheard_consult_accompanies (fun _ extension => ?_) _ _ _
  exact (d.overheard_invoke_accompanies extension _).bind fun _ => .pure _

theorem overheard_notify_accompanies (notice : Notice ν τ) :
    Accompanies (d.overheard.notify notice) (d.notify notice) := by
  rw [notify_eq_round, notify_eq_round]
  refine (d.overheard_round_accompanies notice).bind fun count => ?_
  unfold announce
  cases summary? count notice with
  | some line => exact d.overheard_say_accompanies line
  | none => exact .pure ()

/-- To be overheard changes nothing about a dispatch. -/
theorem overheard_dispatch_accompanies (call : HookCall ν τ) :
    Accompanies (d.overheard.dispatch call) (d.dispatch call) := by
  cases call with
  | ask question => exact d.overheard_ask_accompanies question
  | narrow candidates origin => exact d.overheard_narrow_accompanies candidates origin
  | contribute missing => exact d.overheard_contribute_accompanies missing
  | notify notice => exact d.overheard_notify_accompanies notice

/-- A turn in which the extension did what it does in the state that it found. -/
def IsTurn (turn : Turn σ ι ν τ) : Prop :=
  turn.outcome = d.invoke turn.extension turn.call turn.before

/-- The turn is the one that an extension has in a state. -/
structure HasTurn (extension : ι) (s : σ) (turn : Turn σ ι ν τ) : Prop where
  extension : turn.extension = extension
  before : turn.before = s
  isTurn : d.IsTurn turn

/-- Whoever is consulted has one turn, and comes to an answer or fails. -/
theorem overheard_invoke_cases (extension : ι) (call : HookCall ν τ) (s : σ)
    (turns : List (Turn σ ι ν τ)) :
    (∃ answer turn, d.HasTurn extension s turn ∧ turn.Gave call answer ∧
      d.overheard.invoke extension call (s, turns) = .ok answer (turn.after, turns ++ [turn])) ∨
    (∃ halt turn, d.HasTurn extension s turn ∧ turn.Failed call halt ∧
      d.overheard.invoke extension call (s, turns) = .error halt (turn.after, turns ++ [turn])) := by
  have hoverheard : d.overheard.invoke extension call (s, turns) =
      beside (turns ++ [⟨extension, call, s, d.invoke extension call s⟩]) (d.invoke extension call s) :=
    rfl
  cases hinvoke : d.invoke extension call s with
  | ok answer t =>
      rw [hinvoke] at hoverheard
      exact .inl ⟨answer, ⟨extension, call, s, .ok answer t⟩, ⟨rfl, rfl, hinvoke.symm⟩, rfl, hoverheard⟩
  | error halt t =>
      rw [hinvoke] at hoverheard
      exact .inr ⟨halt, ⟨extension, call, s, .error halt t⟩, ⟨rfl, rfl, hinvoke.symm⟩, rfl, hoverheard⟩

/-- Nobody has a turn while a line is said. -/
theorem overheard_say (line : String) (s : σ) (turns : List (Turn σ ι ν τ)) :
    d.overheard.say line (s, turns) = beside turns (d.say line s) := by
  unfold say
  by_cases hverbose : d.verbose = true
  · have hverbose' : d.overheard.verbose = true := hverbose
    rw [if_pos hverbose, if_pos hverbose']
    rfl
  · have hverbose' : ¬d.overheard.verbose = true := hverbose
    rw [if_neg hverbose, if_neg hverbose']
    rfl

/-- The turns were had one after the other from a state on: each extension did what it does in the state
that the one before it left. -/
def Succession (d : Dispatcher σ ι κ ν τ) (s : σ) : List (Turn σ ι ν τ) → Prop
  | [] => True
  | turn :: turns => turn.before = s ∧ d.IsTurn turn ∧ Succession d turn.after turns

end Dispatcher

/-- The state that the last one of some turns left. -/
def leftBy (s : σ) : List (Turn σ ι ν τ) → σ
  | [] => s
  | turn :: turns => leftBy turn.after turns

end ExtensibleCheck
