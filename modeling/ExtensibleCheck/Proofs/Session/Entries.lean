import ExtensibleCheck.Proofs.Session.Journal

/-! What a run that ends with a result enters into the journal, entry by entry. The use of a hook is
entered when it begins and when it is settled. Between the two stand only deeds: what the extensions
do meanwhile, among it their own reports, and what is printed. -/

namespace ExtensibleCheck

/-- Whether an event is neither the use of a hook nor a report that the checker makes by itself. -/
def Event.isAside {ι : Type} : Event ι → Bool
  | raised _ _ | settled _ _ => false
  | reported d => d.code = .extensionError
  | _ => true

/-- Whether an event may come of the code of an extension, by one of its requests. -/
def Event.isRequest {ι : Type} : Event ι → Bool
  | stored _ _ | lookedUp _ _ | recalled _ _ | registered _ | unregistered _ | wrote _ => true
  | reported d => d.code = .extensionError
  | _ => false

/-- Whether an event may come of an extension at work, or of the printing of a line. -/
def Event.isDeed {ι : Type} : Event ι → Bool
  | raised _ _ | settled _ _ | brought _ _ | probed _ _ | selected _ _ => false
  | reported d => d.code = .extensionError
  | _ => true

theorem Event.isDeed_of_isRequest {ι : Type} {e : Event ι} (h : e.isRequest) : e.isDeed := by
  cases e with
  | raised | settled | brought | probed | selected => cases h
  | reported => exact h
  | _ => rfl

theorem Event.isAside_of_isDeed {ι : Type} {e : Event ι} (h : e.isDeed) : e.isAside := by
  cases e with
  | raised | settled => cases h
  | reported => exact h
  | _ => rfl

open Run SessionState

namespace Session

variable {ι μ α β : Type}

/-- Whenever the run ends with a result, the entries that it made have a property. -/
def Enters (m : Session ι μ α) (L : α → List (Event ι) → Prop) : Prop :=
  ∀ s a t, m s = .ok a t → ∃ events, t.journal.toList = s.journal.toList ++ events ∧ L a events

theorem Enters.mono {m : Session ι μ α} {L L' : α → List (Event ι) → Prop} (h : Enters m L)
    (hL : ∀ a events, L a events → L' a events) : Enters m L' := by
  intro s a t hm
  obtain ⟨events, hgrown, hevents⟩ := h s a t hm
  exact ⟨events, hgrown, hL a events hevents⟩

theorem Enters.bind {m : Session ι μ α} {f : α → Session ι μ β} {L : α → List (Event ι) → Prop}
    {L' : α → β → List (Event ι) → Prop} (hm : Enters m L) (hf : ∀ a, Enters (f a) (L' a)) :
    Enters (m >>= f) fun b events => ∃ a first rest, events = first ++ rest ∧ L a first ∧
      L' a b rest := by
  intro s b t h
  obtain ⟨a, r, hmr, hfr⟩ := bind_eq_ok_iff.mp h
  obtain ⟨first, hr, hfirst⟩ := hm s a r hmr
  obtain ⟨rest, ht, hrest⟩ := hf a r b t hfr
  refine ⟨first ++ rest, ?_, a, first, rest, rfl, hfirst, hrest⟩
  rw [ht, hr, List.append_assoc]

theorem Enters.ofKeeps {m : Session ι μ α} {P : Event ι → Prop} {H : Halt → Prop}
    (h : Keeps (Wrote P) H m) : Enters m fun _ events => ∀ e ∈ events, P e := by
  intro s a t hm
  have hwrote := h.state s
  rwa [after_of_ok hm] at hwrote

/-- A run that does not touch the journal enters nothing. -/
theorem Enters.nothing {m : Session ι μ α} (h : ∀ s a t, m s = .ok a t → t.journal = s.journal) :
    Enters m fun _ events => events = [] := by
  intro s a t hm
  refine ⟨[], ?_, rfl⟩
  rw [h s a t hm, List.append_nil]

/-- Opening and closing a scope around a run does not show in the journal. -/
theorem Enters.scoped {m : Session ι μ Unit} {L : List (Event ι) → Prop} (h : Enters m fun _ => L)
    (extensions : List ι) : Enters (do pushLocal extensions; Run.ensuring m popLocal) fun _ => L := by
  intro s _ t hrun
  obtain ⟨_, _, hpush, hensured⟩ := bind_eq_ok_iff.mp hrun
  cases hpush
  obtain ⟨r, hrun, hpop⟩ := ensuring_eq_ok_iff.mp hensured
  obtain ⟨events, hgrown, hevents⟩ := h _ _ _ hrun
  exact ⟨events, journal_of_popLocal hpop ▸ hgrown, hevents⟩

theorem enters_pure (a : α) :
    Enters (pure a : Session ι μ α) fun b events => b = a ∧ events = [] := by
  intro s b t h
  cases h
  exact ⟨[], (List.append_nil _).symm, rfl, rfl⟩

theorem enters_record (event : Event ι) :
    Enters (record event : Session ι μ Unit) fun _ events => events = [event] := by
  intro s _ t h
  cases h
  exact ⟨[event], Array.toList_push, rfl⟩

theorem enters_report (code : Code) (message : String) (o : Occurrence) :
    Enters (report code message o : Session ι μ Unit) fun _ events =>
      events = [.reported ⟨code, .error, message, some o.location⟩] := by
  intro s _ t h
  cases h
  exact ⟨_, Array.toList_push, rfl⟩

theorem enters_typeOf (o : Occurrence) :
    Enters (typeOf o : Session ι μ CheckedType) fun type events => events = [.lookedUp o type] := by
  intro s type t h
  cases h
  exact ⟨_, Array.toList_push, rfl⟩

theorem enters_hasStored (o : Occurrence) :
    Enters (hasStored o : Session ι μ Bool) fun found events => events = [.probed o found] := by
  intro s found t h
  cases h
  exact ⟨_, Array.toList_push, rfl⟩

theorem writes_record {P : Event ι → Prop} {event : Event ι} (h : P event) :
    Writes P (record event : Session ι μ Unit) :=
  Keeps.modify fun s => wrote_record s h

/-- A change of the state that is entered by one entry. -/
theorem writes_change {P : Event ι → Prop} {f : SessionState ι μ → SessionState ι μ}
    {event : Event ι} (hf : ∀ s, (f s).journal = s.journal) (h : P event) :
    Writes P (do modify f; record event : Session ι μ Unit) :=
  Keeps.bind (Keeps.modify fun s => ⟨[], by rw [hf, List.append_nil], List.forall_mem_nil _⟩)
    fun _ => writes_record h

theorem writes_typeOf {P : Event ι → Prop} {o : Occurrence} (h : ∀ type, P (.lookedUp o type)) :
    Writes P (typeOf o : Session ι μ CheckedType) :=
  Keeps.get.bind fun _ => (writes_record (h _)).bind fun _ => Keeps.pure _

theorem writes_hasStored {P : Event ι → Prop} {o : Occurrence} (h : ∀ found, P (.probed o found)) :
    Writes P (hasStored o : Session ι μ Bool) :=
  Keeps.get.bind fun _ => (writes_record (h _)).bind fun _ => Keeps.pure _

theorem writes_target? {P : Event ι → Prop} {call : Occurrence} (h : ∀ target, P (.recalled call target)) :
    Writes P (target? call : Session ι μ (Option (Candidate CheckedType))) :=
  Keeps.get.bind fun _ => (writes_record (h _)).bind fun _ => Keeps.pure _

theorem writes_report {P : Event ι → Prop} {code : Code} {message : String} {o : Occurrence}
    (h : P (.reported ⟨code, .error, message, some o.location⟩)) :
    Writes P (report code message o : Session ι μ Unit) :=
  writes_change (fun _ => rfl) h

/-- Only asides are entered. -/
abbrev IsAside (m : Session ι μ α) : Prop := Writes (fun e => e.isAside = true) m

/-- Only deeds are entered. -/
abbrev IsDeed (m : Session ι μ α) : Prop := Writes (fun e => e.isDeed = true) m

theorem IsDeed.aside {m : Session ι μ α} (h : IsDeed m) : IsAside m :=
  h.mono (fun hwrote => hwrote.mono fun _ => Event.isAside_of_isDeed) id

theorem deed_record {event : Event ι} (h : event.isDeed = true) :
    IsDeed (record event : Session ι μ Unit) :=
  writes_record h

theorem deed_register (extension : ι) : IsDeed (register extension : Session ι μ Unit) :=
  writes_change (fun _ => by rfl) rfl

variable [DecidableEq ι]

/-- What an extension asks for is entered as that, and its memory is not entered at all. -/
theorem requests_serve (r : Request ι Occurrence CheckedType μ Empty) :
    Writes (fun e => e.isRequest = true) (serve r) := by
  cases r with
  | typeOf node => exact writes_typeOf fun _ => rfl
  | storeType node type => exact writes_change (fun _ => by rfl) rfl
  | reportError message node => exact writes_report rfl
  | selectedMethod call => exact writes_target? fun _ => rfl
  | register extension => exact writes_change (fun _ => by rfl) rfl
  | unregister extension => exact writes_change (fun _ => by rfl) rfl
  | write line => exact writes_record rfl
  | readMemory => exact Keeps.get.bind fun _ => Keeps.pure _
  | writeMemory memory => exact Keeps.modify fun s => refl_of (Wrote _) s
  | perform request => exact nomatch request

theorem requests_run (action : SessionAction ι μ α) :
    Writes (fun e => e.isRequest = true) (action.run serve) :=
  Action.keeps_run requests_serve (fun _ _ => trivial) action

theorem deed_run (action : SessionAction ι μ α) : IsDeed (action.run serve) :=
  (requests_run action).mono (fun hwrote => hwrote.mono fun _ => Event.isDeed_of_isRequest) id

end Session

namespace Checker

open Session

variable {ι μ : Type} [DecidableEq ι] (c : Checker ι μ)

theorem deed_say (line : String) : IsDeed (c.dispatcher.say line) :=
  Keeps.ite (deed_record rfl) (Keeps.pure ())

theorem deed_dispatch (call : HookCall Occurrence CheckedType) :
    IsDeed (c.dispatcher.dispatch call) := by
  refine Dispatcher.keeps_dispatch (fun e call => ?_) (fun line => ?_) trivial call
  · exact (deed_record rfl).bind fun _ => deed_run _
  · exact deed_record rfl

theorem deed_provided (closure : Occurrence) : IsDeed (c.provided closure) := by
  rw [provided]
  split
  · exact Keeps.pure []
  · exact deed_run _

theorem deed_start : IsDeed c.start :=
  Keeps.forM fun create _ => (deed_run create).bind deed_register

theorem aside_localExtensionsFor (closure : Occurrence) :
    IsAside (c.localExtensionsFor closure) := by
  rw [localExtensionsFor_eq]
  refine (c.deed_provided closure).aside.bind fun extensions => ?_
  exact (writes_record (P := fun e => e.isAside = true) rfl).bind fun _ => Keeps.pure extensions

end Checker

end ExtensibleCheck
