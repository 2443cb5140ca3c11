import ExtensibleCheck.Proofs.Dispatch.LiveView
import ExtensibleCheck.Network.Basic

/-! Questions. The extensions of the live view are asked one after the other until the first one takes care of
the matter; nobody after that one is asked. -/

namespace ExtensibleCheck

open Run

variable {σ ι κ ν τ : Type}

/-- The last turn is of one kind, and all before it are of another. -/
def Culminates (P Q : Turn σ ι ν τ → Prop) (turns : List (Turn σ ι ν τ)) : Prop :=
  ∃ front last, turns = front ++ [last] ∧ (∀ turn ∈ front, P turn) ∧ Q last

namespace Culminates

variable {P Q : Turn σ ι ν τ → Prop} {turns : List (Turn σ ι ν τ)}

theorem concat {turn : Turn σ ι ν τ} (hturns : ∀ turn ∈ turns, P turn) (hturn : Q turn) :
    Culminates P Q (turns ++ [turn]) :=
  ⟨turns, turn, rfl, hturns, hturn⟩

theorem exists_mem (h : Culminates P Q turns) : ∃ turn ∈ turns, Q turn := by
  obtain ⟨front, last, rfl, -, hlast⟩ := h
  exact ⟨last, List.mem_append_right _ List.mem_cons_self, hlast⟩

theorem forall_mem (h : Culminates P Q turns) : ∀ turn ∈ turns, P turn ∨ Q turn := by
  obtain ⟨front, last, rfl, hfront, hlast⟩ := h
  intro turn hturn
  rcases List.mem_append.mp hturn with hturn | hturn
  · exact .inl (hfront turn hturn)
  · rw [List.mem_singleton.mp hturn]
    exact .inr hlast

end Culminates

namespace Dispatcher

/-- Every line can be said, and the registry is the same afterwards. -/
def Speaks (d : Dispatcher σ ι κ ν τ) : Prop :=
  ∀ line s, ∃ t, d.say line s = .ok () t ∧ d.registry t = d.registry s

variable {d : Dispatcher σ ι κ ν τ} {s : σ}

/-- It is enough that every line can be printed in this way. -/
theorem Speaks.of_print
    (hprint : ∀ line s, ∃ t, d.print line s = .ok () t ∧ d.registry t = d.registry s) : d.Speaks := by
  intro line s
  unfold say
  by_cases hverbose : d.verbose = true
  · rw [if_pos hverbose]
    exact hprint line s
  · rw [if_neg hverbose]
    exact ⟨s, rfl, rfl⟩

/-- A line is said without anybody having a turn. -/
theorem Speaks.overheard_say (h : d.Speaks) (line : String) (s : σ) (turns : List (Turn σ ι ν τ)) :
    ∃ t, d.overheard.say line (s, turns) = .ok () (t, turns) := by
  obtain ⟨t, hsaid, -⟩ := h line s
  refine ⟨t, ?_⟩
  rw [Dispatcher.overheard_say, hsaid]
  rfl

/-- Whoever is asked takes care, and is the last one, or does not, and the next one is asked. -/
theorem takes_ask (hspeaks : d.Speaks) (question : Question ν τ) (handled : Bool) (extension : ι) (s : σ)
    (turns : List (Turn σ ι ν τ)) (hI : handled = false ∧ ∀ turn ∈ turns, turn.Gave (.ask question) false) :
    d.Takes (fun turns handled => handled = false ∧ ∀ turn ∈ turns, turn.Gave (.ask question) false)
      (fun turns handled => handled = true ∧
        Culminates (·.Gave (.ask question) false) (·.Gave (.ask question) true) turns)
      (fun turns halt => Culminates (·.Gave (.ask question) false) (·.Failed (.ask question) halt) turns)
      extension s turns
      ((do
        if ← d.overheard.invoke extension (.ask question) then
          d.overheard.say (question.hook.name ++ " handled by " ++ (d.overheard.label extension).describe)
          return .stop true
        else return .go false : Run _ (Progress Bool)) (s, turns)) := by
  refine takes_bind (fun answer turn hturn hgave => ?_) fun halt turn hfailed => .concat hI.2 hfailed
  cases answer with
  | true =>
      obtain ⟨t, hsaid⟩ := hspeaks.overheard_say
        (question.hook.name ++ " handled by " ++ (d.overheard.label extension).describe)
        turn.after (turns ++ [turn])
      rw [if_pos rfl, bind_of_ok hsaid]
      exact ⟨⟨rfl, .concat hI.2 hgave⟩, .inr ⟨turn, hturn, rfl⟩⟩
  | false =>
      exact ⟨turn, hturn, rfl, rfl, List.forall_mem_append.mpr ⟨hI.2, List.forall_mem_singleton.mpr hgave⟩⟩

end Dispatcher

namespace Network

theorem dispatcherAt_speaks {ε μ : Type} (n : Network ε ν τ μ) (invoke : Invoke ε ν τ μ) (name : String) :
    (n.dispatcherAt invoke name).Speaks :=
  .of_print fun _ _ => ⟨_, rfl, rfl⟩

/-- Extensions of which 2 takes care of everything. They contribute a method each, 1 one with an owner and the
others one without, and leave out the first of several candidates. -/
def opinion : Nat → (call : HookCall Unit Unit) → call.Answer
  | extension, .ask _ => extension == 2
  | _, .narrow candidates _ => candidates.tail
  | 1, .contribute missing => [{ name := missing.name, owner := some ⟨"Repository", none⟩ }]
  | _, .contribute missing => [{ name := missing.name }]
  | _, .notify _ => ()

/-- A network of these extensions, in which 0 brings 1 along and 2 brings 3 along, unless there are candidates
to be narrowed. -/
def recruiting : Network Nat Unit Unit Unit where
  dispatchers := ∅
  behaviour
    | extension, .narrow candidates origin => .done (opinion extension (.narrow candidates origin))
    | 0, call => .request (.register (.extension 1)) fun _ => .done (opinion 0 call)
    | 2, call => .request (.register (.extension 3)) fun _ => .done (opinion 2 call)
    | extension, call => .done (opinion extension call)
  label _ := .anonymous
  registrar _ := .named "R"
  typeOf _ := ()
  limit := 5

/-- The dispatcher of this network. -/
def recruiter : Dispatcher (NetworkState Nat Unit Unit Unit) (Member Nat) (List (Member Nat)) Unit Unit :=
  recruiting.dispatcherAt (recruiting.invoke 1) "D"

/-- The network at first, with 0 for a global extension and 2 and 4 for those of a file. -/
def recruits : NetworkState Nat Unit Unit Unit :=
  ({ memory := () } : NetworkState Nat Unit Unit Unit).setRegistry (.named "R")
    { globals := [some (.extension 0)], scopes := [[.extension 2, .extension 4]] }

end Network

namespace Dispatcher

/-- The first one takes care: whatever extensions register meanwhile, as long as they remove none, those who
are asked are the first ones of the live view, each on the very question. Either the last of them is the one
who takes care, which is the answer, or nobody takes care and everybody was asked. If an extension fails, it
is the last one that was asked. A dispatch is cut off only if more are to be asked than it may. -/
theorem ask_firstResponder (d : Dispatcher σ ι κ ν τ) (hspeaks : d.Speaks) (question : Question ν τ) (s : σ)
    (happends : ∀ turn ∈ d.transcript (.ask question) s, turn.Appends d) :
    let turns := d.transcript (.ask question) s
    d.Succession s turns ∧ turns.map (·.extension) <+: d.liveView s turns ∧
      ((∃ t, d.ask question s = .ok true t) ↔ ∃ turn ∈ turns, turn.Gave (.ask question) true) ∧
      match d.ask question s with
      | .ok true _ => Culminates (·.Gave (.ask question) false) (·.Gave (.ask question) true) turns
      | .ok false t => (∀ turn ∈ turns, turn.Gave (.ask question) false) ∧
          turns.map (·.extension) = d.liveView s turns ∧ t = leftBy s turns
      | .error halt _ =>
        Culminates (·.Gave (.ask question) false) (·.Failed (.ask question) halt) turns ∨
          halt = .exhausted ∧ d.limit < (d.liveView s turns).length ∧
            ∀ turn ∈ turns, turn.Gave (.ask question) false := by
  intro turns
  have haccompanies : Accompanies (d.overheard.ask question) (d.ask question) :=
    d.overheard_dispatch_accompanies (.ask question)
  obtain ⟨hsuccession, hview, hends⟩ := consultAll_takes rfl haccompanies rfl (takes_ask hspeaks question)
    ⟨rfl, List.forall_mem_nil _⟩ happends
  refine ⟨hsuccession, hview, ?_⟩
  have hnobody (h : ∀ turn ∈ turns, ¬turn.Gave (.ask question) true) :
      ¬∃ turn ∈ turns, turn.Gave (.ask question) true := fun ⟨turn, hturn, htrue⟩ => h turn hturn htrue
  cases hrun : d.ask question s with
  | ok handled t =>
      rw [hrun] at hends
      rcases hends with ⟨rfl, hlast⟩ | ⟨⟨rfl, hfalse⟩, hall, hleft⟩
      · exact ⟨⟨fun _ => hlast.exists_mem, fun _ => ⟨t, rfl⟩⟩, hlast⟩
      · have hnone := hnobody fun turn hturn htrue => Bool.false_ne_true ((hfalse turn hturn).unique htrue)
        refine ⟨⟨fun ⟨_, htrue⟩ => ?_, fun htrue => absurd htrue hnone⟩, hfalse, hall, hleft⟩
        cases htrue
  | error halt t =>
      rw [hrun] at hends
      have hnone := hnobody fun turn hturn htrue => by
        rcases hends with hlast | ⟨-, -, -, -, hfalse⟩
        · rcases hlast.forall_mem turn hturn with hfalse | hfailed
          · exact Bool.false_ne_true (hfalse.unique htrue)
          · exact hfailed.not_gave htrue
        · exact Bool.false_ne_true ((hfalse turn hturn).unique htrue)
      refine ⟨⟨fun ⟨_, htrue⟩ => ?_, fun htrue => absurd htrue hnone⟩, ?_⟩
      · cases htrue
      · exact hends.imp_right fun ⟨hexhausted, hlimit, _, _, hfalse⟩ => ⟨hexhausted, hlimit, hfalse⟩

open Network in
/-- Extension 1 is asked, which 0 brings along, and extension 4 is not, which comes after 2. -/
theorem ask_firstResponder_recruiter :
    let question : Question Unit Unit := .unresolvedVariable ()
    let turns := recruiter.transcript (.ask question) recruits
    recruiter.Speaks ∧ (∀ turn ∈ turns, turn.Appends recruiter) ∧
      recruiter.liveView recruits turns = [.extension 0, .extension 1, .extension 2, .extension 4] ∧
      turns.map (·.extension) = [.extension 0, .extension 1, .extension 2] ∧
      Culminates (·.Gave (.ask question) false) (·.Gave (.ask question) true) turns ∧
      ∃ t, recruiter.ask question recruits = .ok true t := by
  intro question turns
  have hspeaks : recruiter.Speaks := dispatcherAt_speaks _ _ _
  have happends : ∀ turn ∈ turns, turn.Appends recruiter := by decide +kernel
  have hlive : recruiter.liveView recruits turns =
      [.extension 0, .extension 1, .extension 2, .extension 4] := by decide +kernel
  have hasked : turns.map (·.extension) = [.extension 0, .extension 1, .extension 2] := by decide +kernel
  have hfinishes : (recruiter.ask question).finishes recruits := by decide +kernel
  obtain ⟨handled, hrun⟩ := exists_of_finishes hfinishes
  obtain ⟨-, -, -, hends⟩ := recruiter.ask_firstResponder hspeaks question recruits happends
  rw [hrun] at hends
  cases handled with
  | true => exact ⟨hspeaks, happends, hlive, hasked, hends, _, hrun⟩
  | false =>
      have hall : turns.map (·.extension) = recruiter.liveView recruits turns := hends.2.1
      rw [hlive, hasked] at hall
      cases hall

end Dispatcher

end ExtensibleCheck
