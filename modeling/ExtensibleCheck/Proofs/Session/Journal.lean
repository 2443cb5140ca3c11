import ExtensibleCheck.Proofs.Run.Keeps
import ExtensibleCheck.Session.Basic

/-! What the steps of a session write into its journal. The journal only grows. Whatever an extension
does while it is consulted is quiet: it leaves the scopes alone, and no hook is used and no closure is
asked for its extensions meanwhile. So the use of a hook shows in the journal as one entry where it
begins, one where it is settled, and quiet ones between them. -/

namespace ExtensibleCheck

/-- The ways in which a run is halted by the extensions: one of them raises an error of its own, or
they keep registering others without end. -/
def Halt.isDueToExtensions : Halt → Prop
  | .exhausted | .thrown (.raised _ _) => True
  | _ => False

/-- Whether the checker turned to the extensions: by the use of a hook, or by asking what a closure
brings along. -/
def Event.isTurn {ι : Type} : Event ι → Bool
  | raised _ _ | settled _ _ | brought _ _ => true
  | _ => false

namespace SessionState

variable {ι μ : Type}

/-- The journal has grown, by entries that all have a property. -/
def Wrote (P : Event ι → Prop) (s t : SessionState ι μ) : Prop :=
  ∃ events, t.journal.toList = s.journal.toList ++ events ∧ ∀ e ∈ events, P e

instance (P : Event ι → Prop) : IsPreorder (SessionState ι μ) (Wrote P) where
  refl s := ⟨[], (List.append_nil _).symm, fun _ h => nomatch h⟩
  trans := by
    rintro r s t ⟨events, hs, hP⟩ ⟨events', ht, hP'⟩
    refine ⟨events ++ events', ?_, fun e he => ?_⟩
    · rw [ht, hs, List.append_assoc]
    · exact (List.mem_append.mp he).elim (hP e) (hP' e)

theorem Wrote.mono {P Q : Event ι → Prop} {s t : SessionState ι μ} (h : Wrote P s t)
    (hPQ : ∀ e, P e → Q e) : Wrote Q s t := by
  obtain ⟨events, ht, hP⟩ := h
  exact ⟨events, ht, fun e he => hPQ e (hP e he)⟩

theorem journal_record (s : SessionState ι μ) (event : Event ι) :
    (s.record event).journal.toList = s.journal.toList ++ [event] := Array.toList_push

theorem wrote_record {P : Event ι → Prop} (s : SessionState ι μ) {event : Event ι} (h : P event) :
    Wrote P s (s.record event) :=
  ⟨[event], s.journal_record event, fun _ he => List.mem_singleton.mp he ▸ h⟩

/-- The scopes are as before, and the checker has not turned to the extensions. -/
structure Quiet (s t : SessionState ι μ) : Prop where
  scopes : t.registry.scopes = s.registry.scopes
  wrote : Wrote (fun e => e.isTurn = false) s t

instance : IsPreorder (SessionState ι μ) Quiet where
  refl s := ⟨rfl, refl_of (Wrote _) s⟩
  trans _ _ _ h h' := ⟨h'.scopes.trans h.scopes, trans_of (Wrote _) h.wrote h'.wrote⟩

/-- A change that concerns neither the scopes nor the journal is quiet. -/
theorem quiet_of_eq {s t : SessionState ι μ} (hscopes : t.registry.scopes = s.registry.scopes)
    (hjournal : t.journal = s.journal) : Quiet s t :=
  ⟨hscopes, [], by rw [hjournal, List.append_nil], fun _ h => nomatch h⟩

end SessionState

open Run SessionState

namespace Session

variable {ι μ : Type}

/-- Quiet steps are where the checker does not turn to the extensions. Nothing else halts them. -/
abbrev IsQuiet {α : Type} (m : Session ι μ α) : Prop := Keeps Quiet Halt.isDueToExtensions m

/-- All that a step enters into the journal has a property, however the step ends. -/
abbrev Writes {α : Type} (P : Event ι → Prop) (m : Session ι μ α) : Prop :=
  Keeps (Wrote P) (fun _ => True) m

theorem writes_of_keeps {α : Type} {m : Session ι μ α} {P : Event ι → Prop} {H : Halt → Prop}
    (h : Keeps (Wrote P) H m) : Writes P m :=
  h.mono id fun _ => trivial

theorem IsQuiet.writes {α : Type} {m : Session ι μ α} {P : Event ι → Prop} (h : IsQuiet m)
    (hP : ∀ e : Event ι, e.isTurn = false → P e) : Writes P m :=
  h.mono (fun hst => hst.wrote.mono hP) fun _ => trivial

theorem quiet_record {event : Event ι} (h : event.isTurn = false) :
    IsQuiet (record event : Session ι μ Unit) :=
  Keeps.modify fun s => ⟨rfl, wrote_record s h⟩

theorem quiet_print (line : String) : IsQuiet (print line : Session ι μ Unit) := quiet_record rfl

theorem quiet_report (code : Code) (message : String) (o : Occurrence) :
    IsQuiet (report code message o : Session ι μ Unit) :=
  Keeps.bind (Keeps.modify fun _ => quiet_of_eq rfl rfl) fun _ => quiet_record rfl

theorem quiet_store (o : Occurrence) (type : Option CheckedType) :
    IsQuiet (store o type : Session ι μ Unit) :=
  Keeps.bind (Keeps.modify fun _ => quiet_of_eq rfl rfl) fun _ => quiet_record rfl

theorem quiet_typeOf (o : Occurrence) : IsQuiet (typeOf o : Session ι μ CheckedType) :=
  Keeps.get.bind fun _ => (quiet_record rfl).bind fun _ => Keeps.pure _

theorem quiet_hasStored (o : Occurrence) : IsQuiet (hasStored o : Session ι μ Bool) :=
  Keeps.get.bind fun _ => (quiet_record rfl).bind fun _ => Keeps.pure _

theorem quiet_target? (call : Occurrence) :
    IsQuiet (target? call : Session ι μ (Option (Candidate CheckedType))) :=
  Keeps.get.bind fun _ => (quiet_record rfl).bind fun _ => Keeps.pure _

/-- Closing the innermost scope fails if there is none. -/
theorem popLocal_of_nil {s : SessionState ι μ} (h : s.registry.scopes = []) :
    (popLocal : Session ι μ Unit) s = .error (.thrown .noActiveScope) s := by
  have hpop : s.registry.popLocal = .error .noActiveScope := by rw [Registry.popLocal, h]
  rw [popLocal, bind_of_ok (show (get : Session ι μ _) s = .ok s s from rfl), hpop]
  rfl

theorem popLocal_of_cons {s : SessionState ι μ} {scope : List ι} {outer : List (List ι)}
    (h : s.registry.scopes = scope :: outer) : (popLocal : Session ι μ Unit) s =
      .ok () { s with registry := { s.registry with scopes := outer } } := by
  have hpop : s.registry.popLocal = .ok { s.registry with scopes := outer } := by
    rw [Registry.popLocal, h]
  rw [popLocal, bind_of_ok (show (get : Session ι μ _) s = .ok s s from rfl), hpop]
  rfl

theorem journal_of_popLocal {s t : SessionState ι μ} (h : popLocal s = .ok () t) :
    t.journal = s.journal := by
  cases hscopes : s.registry.scopes with
  | nil =>
      rw [popLocal_of_nil hscopes] at h
      cases h
  | cons scope outer =>
      rw [popLocal_of_cons hscopes] at h
      cases h
      rfl

/-- Neither opening nor closing a scope is entered into the journal. -/
theorem writes_pushLocal (P : Event ι → Prop) (extensions : List ι) :
    Writes P (pushLocal extensions : Session ι μ Unit) :=
  Keeps.modify fun s => refl_of (Wrote P) s

theorem writes_popLocal (P : Event ι → Prop) : Writes P (popLocal : Session ι μ Unit) := by
  refine ⟨fun s => ?_, fun _ => trivial⟩
  cases hscopes : s.registry.scopes with
  | nil =>
      rw [after_of_error (popLocal_of_nil hscopes)]
      exact refl_of (Wrote P) s
  | cons scope outer =>
      rw [after_of_ok (popLocal_of_cons hscopes)]
      exact refl_of (Wrote P) s

theorem quiet_register (extension : ι) : IsQuiet (register extension : Session ι μ Unit) :=
  Keeps.bind (Keeps.modify fun _ => quiet_of_eq rfl rfl) fun _ => quiet_record rfl

variable [DecidableEq ι]

theorem quiet_unregister (extension : ι) : IsQuiet (unregister extension : Session ι μ Unit) :=
  Keeps.bind (Keeps.modify fun _ => quiet_of_eq rfl rfl) fun _ => quiet_record rfl

/-- Extensions have no way to open or close a scope, nor to use a hook. -/
theorem quiet_serve (r : Request ι Occurrence CheckedType μ Empty) : IsQuiet (serve r) := by
  cases r with
  | typeOf node => exact quiet_typeOf node
  | storeType node type => exact quiet_store node type
  | reportError message node => exact quiet_report _ message node
  | selectedMethod call => exact quiet_target? call
  | register extension => exact quiet_register extension
  | unregister extension => exact quiet_unregister extension
  | write line => exact quiet_record rfl
  | readMemory => exact Keeps.get.bind fun _ => Keeps.pure _
  | writeMemory memory => exact Keeps.modify fun _ => quiet_of_eq rfl rfl
  | perform request => exact nomatch request

theorem quiet_run {α : Type} (action : SessionAction ι μ α) : IsQuiet (action.run serve) :=
  Action.keeps_run quiet_serve (fun _ _ => trivial) action

end Session

namespace Checker

open Session

variable {ι μ : Type} [DecidableEq ι] (c : Checker ι μ)

theorem quiet_invoke (extension : ι) (call : HookCall Occurrence CheckedType) :
    IsQuiet (c.invoke extension call) :=
  (quiet_record rfl).bind fun _ => quiet_run _

theorem quiet_dispatch (call : HookCall Occurrence CheckedType) :
    IsQuiet (c.dispatcher.dispatch call) :=
  Dispatcher.keeps_dispatch c.quiet_invoke quiet_print trivial call

/-- The use of a hook leaves the scopes alone. It is entered into the journal with the registry as it
was, and again when it is settled. -/
theorem raise_spec (call : HookCall Occurrence CheckedType) (s : SessionState ι μ) :
    ∃ events : List (Event ι), (∀ e ∈ events, e.isTurn = false) ∧
      match c.raise call s with
      | .ok answer t => t.registry.scopes = s.registry.scopes ∧ t.journal.toList =
          s.journal.toList ++ .raised call s.registry :: (events ++ [.settled call answer])
      | .error _ t => t.registry.scopes = s.registry.scopes ∧ t.journal.toList =
          s.journal.toList ++ .raised call s.registry :: events := by
  obtain ⟨hscopes, events, hjournal, hquiet⟩ :=
    (c.quiet_dispatch call).state (s.record (.raised call s.registry))
  refine ⟨events, hquiet, ?_⟩
  have hraise : c.raise call s =
      (c.dispatcher.dispatch call >>= fun answer => do
        record (.settled call answer)
        return answer) (s.record (.raised call s.registry)) := rfl
  cases hd : c.dispatcher.dispatch call (s.record (.raised call s.registry)) with
  | ok answer t =>
      rw [after_of_ok hd] at hscopes hjournal
      have hend : c.raise call s = .ok answer (t.record (.settled call answer)) := by
        rw [hraise]
        exact bind_eq_ok_iff.mpr ⟨answer, t, hd, rfl⟩
      rw [hend]
      refine ⟨hscopes, ?_⟩
      rw [journal_record, hjournal, journal_record]
      simp
  | error halt t =>
      rw [after_of_error hd] at hscopes hjournal
      have hend : c.raise call s = .error halt t := by
        rw [hraise]
        exact bind_eq_error_iff.mpr (Or.inl hd)
      rw [hend]
      refine ⟨hscopes, ?_⟩
      rw [hjournal, journal_record]
      simp

/-- What answers when a closure is asked for its extensions. -/
def provided (closure : Occurrence) : Session ι μ (List ι) :=
  match c.localExtensions with
  | none => pure []
  | some provide => (provide closure).run serve

theorem quiet_provided (closure : Occurrence) : IsQuiet (c.provided closure) := by
  rw [provided]
  split
  · exact Keeps.pure []
  · exact quiet_run _

theorem localExtensionsFor_eq (closure : Occurrence) :
    c.localExtensionsFor closure = c.provided closure >>= fun extensions => do
      record (.brought closure extensions)
      return extensions := by
  rw [localExtensionsFor, provided]
  cases c.localExtensions <;> rfl

/-- What is brought along is what is answered, and it is entered into the journal right then. -/
theorem localExtensionsFor_apply (closure : Occurrence) (s : SessionState ι μ) :
    c.localExtensionsFor closure s =
      match c.provided closure s with
      | .error halt t => .error halt t
      | .ok extensions t => .ok extensions (t.record (.brought closure extensions)) := by
  rw [localExtensionsFor_eq]
  cases hp : c.provided closure s with
  | ok extensions t => exact bind_of_ok hp
  | error halt t => exact bind_of_error hp

/-- Both entries that the use of a hook makes have a property. -/
def EntersAs (P : Event ι → Prop) (call : HookCall Occurrence CheckedType) : Prop :=
  (∀ registry, P (.raised call registry)) ∧ ∀ answer, P (.settled call answer)

theorem writes_raise {P : Event ι → Prop} {call : HookCall Occurrence CheckedType}
    (hquiet : ∀ e : Event ι, e.isTurn = false → P e) (hcall : EntersAs P call) :
    Keeps (Wrote P) Halt.isDueToExtensions (c.raise call) := by
  refine Keeps.bind Keeps.get fun s => Keeps.bind (Keeps.modify fun t => ?_) fun _ => ?_
  · exact wrote_record t (hcall.1 s.registry)
  refine ((c.quiet_dispatch call).mono (fun h => h.wrote.mono hquiet) id).bind fun answer => ?_
  exact Keeps.bind (Keeps.modify fun t => wrote_record t (hcall.2 answer)) fun _ => Keeps.pure _

theorem writes_localExtensionsFor {P : Event ι → Prop} {closure : Occurrence}
    (hquiet : ∀ e : Event ι, e.isTurn = false → P e)
    (hbrought : ∀ extensions, P (.brought closure extensions)) :
    Keeps (Wrote P) Halt.isDueToExtensions (c.localExtensionsFor closure) := by
  rw [localExtensionsFor_eq]
  refine ((c.quiet_provided closure).mono (fun h => h.wrote.mono hquiet) id).bind
    fun extensions => ?_
  exact Keeps.bind (Keeps.modify fun t => wrote_record t (hbrought extensions)) fun _ =>
    Keeps.pure _

theorem quiet_start : IsQuiet c.start :=
  Keeps.forM fun create _ => Keeps.bind (quiet_run create) quiet_register

end Checker

/-- The turns that the checker has taken, in order. -/
def SessionState.turns {ι μ : Type} (s : SessionState ι μ) : List (Event ι) :=
  s.journal.toList.filter Event.isTurn

namespace Session

variable {ι μ α β : Type}

theorem filter_isTurn_eq_nil {events : List (Event ι)} (h : ∀ e ∈ events, e.isTurn = false) :
    events.filter Event.isTurn = [] :=
  List.filter_eq_nil_iff.mpr fun e he => Bool.eq_false_iff.mp (h e he)

/-- Whenever the run ends with a result, the turns that it took have a property. -/
def TakesTurns (m : Session ι μ α) (L : α → List (Event ι) → Prop) : Prop :=
  ∀ s a t, m s = .ok a t → ∃ turns, t.turns = s.turns ++ turns ∧ L a turns

theorem TakesTurns.mono {m : Session ι μ α} {L L' : α → List (Event ι) → Prop}
    (h : TakesTurns m L) (hL : ∀ a turns, L a turns → L' a turns) : TakesTurns m L' := by
  intro s a t hm
  obtain ⟨turns, hgrown, hturns⟩ := h s a t hm
  exact ⟨turns, hgrown, hL a turns hturns⟩

/-- A run takes its turns once, whatever is said about them. -/
theorem TakesTurns.and {m : Session ι μ α} {L L' : α → List (Event ι) → Prop} (h : TakesTurns m L)
    (h' : TakesTurns m L') : TakesTurns m fun a turns => L a turns ∧ L' a turns := by
  intro s a t hm
  obtain ⟨turns, hgrown, hturns⟩ := h s a t hm
  obtain ⟨turns', hgrown', hturns'⟩ := h' s a t hm
  obtain rfl : turns = turns' := List.append_cancel_left (hgrown.symm.trans hgrown')
  exact ⟨turns, hgrown, hturns, hturns'⟩

theorem TakesTurns.bind {m : Session ι μ α} {f : α → Session ι μ β}
    {L : α → List (Event ι) → Prop} {L' : α → β → List (Event ι) → Prop} (hm : TakesTurns m L)
    (hf : ∀ a, TakesTurns (f a) (L' a)) :
    TakesTurns (m >>= f) fun b turns => ∃ a first rest, turns = first ++ rest ∧ L a first ∧
      L' a b rest := by
  intro s b t h
  obtain ⟨a, r, hmr, hfr⟩ := bind_eq_ok_iff.mp h
  obtain ⟨first, hr, hfirst⟩ := hm s a r hmr
  obtain ⟨rest, ht, hrest⟩ := hf a r b t hfr
  refine ⟨first ++ rest, ?_, a, first, rest, rfl, hfirst, hrest⟩
  rw [ht, hr, List.append_assoc]

/-- What is quiet takes no turns. -/
theorem IsQuiet.takesTurns {m : Session ι μ α} (h : IsQuiet m) :
    TakesTurns m fun _ turns => turns = [] := by
  intro s a t hm
  obtain ⟨-, events, hjournal, hquiet⟩ := h.state s
  rw [after_of_ok hm] at hjournal
  refine ⟨[], ?_, rfl⟩
  rw [turns, hjournal, List.filter_append, filter_isTurn_eq_nil hquiet]
  rfl

end Session

namespace Checker

open Session

variable {ι μ : Type} [DecidableEq ι] (c : Checker ι μ)

theorem raise_takesTurns (call : HookCall Occurrence CheckedType) :
    TakesTurns (c.raise call) fun answer turns =>
      ∃ registry, turns = [.raised call registry, .settled call answer] := by
  intro s answer t h
  obtain ⟨events, hquiet, hspec⟩ := c.raise_spec call s
  rw [h] at hspec
  obtain ⟨-, hjournal⟩ := hspec
  refine ⟨[.raised call s.registry, .settled call answer], ?_, s.registry, rfl⟩
  rw [turns, hjournal, List.filter_append, List.filter_cons_of_pos rfl, List.filter_append,
    filter_isTurn_eq_nil hquiet]
  rfl

theorem localExtensionsFor_takesTurns (closure : Occurrence) :
    TakesTurns (c.localExtensionsFor closure) fun extensions turns =>
      turns = [.brought closure extensions] := by
  intro s extensions t h
  obtain ⟨-, events, hjournal, hquiet⟩ := (c.quiet_provided closure).state s
  rw [localExtensionsFor_apply] at h
  cases hanswer : c.provided closure s with
  | error halt r =>
      rw [hanswer] at h
      cases h
  | ok answer r =>
      rw [hanswer] at h
      cases h
      rw [after_of_ok hanswer] at hjournal
      refine ⟨[.brought closure extensions], ?_, rfl⟩
      rw [turns, journal_record, hjournal, List.filter_append, List.filter_append,
        filter_isTurn_eq_nil hquiet, List.append_nil]
      rfl

end Checker

end ExtensibleCheck
