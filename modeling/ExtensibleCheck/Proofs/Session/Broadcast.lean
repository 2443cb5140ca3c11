import ExtensibleCheck.Proofs.Registry.Round
import ExtensibleCheck.Proofs.Session.Journal

/-! News that reach everybody. The journal of a broadcast tells how the global extensions were
registered, removed and consulted, and so which registration was told when. Each registration that is
still there in the end was told once, unless it was overrun: whenever an extension is removed that was
told already, the next in turn gets its place and is not told. -/

namespace ExtensibleCheck

variable {ι μ : Type}

/-- The extension that was consulted, and on what. -/
def Event.consultation? : Event ι → Option (ι × HookCall Occurrence CheckedType)
  | consulted extension call => some (extension, call)
  | _ => none

def Event.isRegistration : Event ι → Bool
  | registered _ => true
  | _ => false

namespace Round

variable [DecidableEq ι]

/-- What an event means for a round through the global extensions. -/
def follow (r : Round ι) : Event ι → Round ι
  | .registered extension => r.add extension
  | .unregistered extension => r.remove extension
  | .consulted _ _ => r.visit
  | _ => r

/-- The round as the events tell it. -/
def replay (r : Round ι) (events : List (Event ι)) : Round ι := events.foldl follow r

theorem replay_append (r : Round ι) (events events' : List (Event ι)) :
    r.replay (events ++ events') = (r.replay events).replay events' := List.foldl_append

theorem Sound.replay {r : Round ι} (h : r.Sound) (events : List (Event ι)) :
    (r.replay events).Sound := by
  induction events generalizing r with
  | nil => exact h
  | cons e events ih =>
      apply ih
      cases e with
      | registered extension => exact h.add extension
      | unregistered extension => exact h.remove extension
      | consulted => exact h.visit
      | _ => exact h

/-- Every extension that is registered gets a number of its own. -/
theorem fresh_replay (r : Round ι) (events : List (Event ι)) :
    (r.replay events).fresh = r.fresh + events.countP Event.isRegistration := by
  induction events generalizing r with
  | nil => rfl
  | cons e events ih =>
      have hfirst : (r.follow e).fresh = r.fresh + if e.isRegistration then 1 else 0 := by
        cases e with
        | unregistered extension =>
            show (r.remove extension).fresh = r.fresh
            unfold remove
            dsimp only
            split
            · split <;> rfl
            · rfl
        | consulted extension call =>
            show r.visit.fresh = r.fresh
            unfold visit
            split <;> rfl
        | _ => rfl
      show ((r.follow e).replay events).fresh = _
      rw [ih, hfirst, List.countP_cons]
      omega

/-- Neither what is added nor what is removed moves the position. -/
theorem next_replay {r : Round ι} {events : List (Event ι)}
    (h : ∀ e ∈ events, e.consultation? = none) :
    (r.replay events).next = r.next ∧ (r.replay events).reached = r.reached := by
  induction events generalizing r with
  | nil => exact ⟨rfl, rfl⟩
  | cons e events ih =>
      have hrest := ih (r := r.follow e) fun e he => h e (List.mem_cons_of_mem _ he)
      have hfirst : (r.follow e).next = r.next ∧ (r.follow e).reached = r.reached := by
        cases e with
        | consulted => exact nomatch h _ List.mem_cons_self
        | unregistered extension =>
            show (r.remove extension).next = r.next ∧ (r.remove extension).reached = r.reached
            unfold remove
            dsimp only
            split
            · split <;> exact ⟨rfl, rfl⟩
            · exact ⟨rfl, rfl⟩
        | _ => exact ⟨rfl, rfl⟩
      exact ⟨hrest.1.trans hfirst.1, hrest.2.trans hfirst.2⟩

end Round

open Run Session SessionState

variable [DecidableEq ι]

namespace SessionState

/-- Between two consultations: the events tell what became of the global extensions. -/
structure Retold (s t : SessionState ι μ) : Prop where
  scopes : t.registry.scopes = s.registry.scopes
  grown : ∃ events, t.journal.toList = s.journal.toList ++ events ∧
    (∀ e ∈ events, e.consultation? = none) ∧
    ∀ r : Round ι, r.globals = s.registry.globals → (r.replay events).globals = t.registry.globals

instance : IsPreorder (SessionState ι μ) Retold where
  refl s := ⟨rfl, [], (List.append_nil _).symm, (fun _ h => nomatch h), fun _ h => h⟩
  trans := by
    rintro r s t ⟨hscopes, events, hs, hnone, hround⟩ ⟨hscopes', events', ht, hnone', hround'⟩
    refine ⟨hscopes'.trans hscopes, events ++ events', ?_, fun e he => ?_, fun round h => ?_⟩
    · rw [ht, hs, List.append_assoc]
    · exact (List.mem_append.mp he).elim (hnone e) (hnone' e)
    · rw [Round.replay_append]
      exact hround' _ (hround round h)

theorem retold_of_eq {s t : SessionState ι μ} (hregistry : t.registry = s.registry)
    (hjournal : t.journal = s.journal) : Retold s t :=
  ⟨by rw [hregistry], [], by rw [hjournal, List.append_nil], (fun _ h => nomatch h),
    fun r h => by rw [hregistry]; exact h⟩

/-- An event that is entered tells what changed with it. -/
theorem retold_record {s t : SessionState ι μ} {event : Event ι}
    (hscopes : t.registry.scopes = s.registry.scopes) (hjournal : t.journal = s.journal)
    (hnone : event.consultation? = none)
    (hround : ∀ r : Round ι, r.globals = s.registry.globals →
      (r.follow event).globals = t.registry.globals) : Retold s (t.record event) := by
  refine ⟨hscopes, [event], ?_, fun e he => List.mem_singleton.mp he ▸ hnone, hround⟩
  rw [journal_record, hjournal]

end SessionState

namespace Session

/-- Code of an extension halts a run only by an error of its own. -/
def Raised (halt : Halt) : Prop := ∃ kind message, halt = .thrown (.raised kind message)

theorem retold_record_unchanged {event : Event ι} (hnone : event.consultation? = none)
    (hround : ∀ r : Round ι, r.follow event = r) :
    Keeps (Retold (ι := ι) (μ := μ)) Raised (record event) := by
  refine Keeps.modify fun s => retold_record rfl rfl hnone fun r h => ?_
  rw [hround]
  exact h

theorem retold_register (extension : ι) :
    Keeps (Retold (ι := ι) (μ := μ)) Raised (register extension) := by
  refine ⟨fun s => ?_, fun herror => nomatch herror⟩
  refine retold_record (t := { s with registry := s.registry.addGlobal (some extension) }) rfl rfl rfl
    fun r h => ?_
  show (r.add extension).globals = _
  rw [Round.globals_add, h]
  rfl

theorem retold_unregister (extension : ι) :
    Keeps (Retold (ι := ι) (μ := μ)) Raised (unregister extension) := by
  refine ⟨fun s => ?_, fun herror => nomatch herror⟩
  refine retold_record (t := { s with registry := s.registry.removeGlobal (some extension) }) rfl rfl
    rfl fun r h => ?_
  show (r.remove extension).globals = _
  rw [Round.globals_remove, h]
  rfl

theorem retold_serve (r : Request ι Occurrence CheckedType μ Empty) :
    Keeps (Retold (ι := ι) (μ := μ)) Raised (serve r) := by
  cases r with
  | register extension => exact retold_register extension
  | unregister extension => exact retold_unregister extension
  | storeType node type =>
      exact Keeps.bind (Keeps.modify fun _ => retold_of_eq rfl rfl) fun _ =>
        retold_record_unchanged rfl fun _ => rfl
  | reportError message node =>
      exact Keeps.bind (Keeps.modify fun _ => retold_of_eq rfl rfl) fun _ =>
        retold_record_unchanged rfl fun _ => rfl
  | write line => exact retold_record_unchanged rfl fun _ => rfl
  | writeMemory memory => exact Keeps.modify fun _ => retold_of_eq rfl rfl
  | typeOf node =>
      exact Keeps.get.bind fun _ => (retold_record_unchanged rfl fun _ => rfl).bind fun _ =>
        Keeps.pure _
  | selectedMethod call =>
      exact Keeps.get.bind fun _ => (retold_record_unchanged rfl fun _ => rfl).bind fun _ =>
        Keeps.pure _
  | readMemory => exact Keeps.get.bind fun _ => Keeps.pure _
  | perform request => exact nomatch request

theorem retold_run {α : Type} (action : SessionAction ι μ α) :
    Keeps Retold Raised (action.run serve) :=
  Action.keeps_run retold_serve (fun kind message => ⟨kind, message, rfl⟩) action

end Session

namespace Checker

/-- A stretch of a round from one state to another: the events tell what became of the global
extensions, and the round came to those that were consulted. -/
structure Follows (notice : Notice Occurrence CheckedType) (r : Round ι) (s t : SessionState ι μ)
    (events : List (Event ι)) : Prop where
  scopes : t.registry.scopes = s.registry.scopes
  journal : t.journal.toList = s.journal.toList ++ events
  globals : (r.replay events).globals = t.registry.globals
  told : (r.replay events).reached.map (fun (_, extension) => (extension, .notify notice)) =
    r.reached.map (fun (_, extension) => (extension, .notify notice)) ++
      events.filterMap Event.consultation?

namespace Follows

variable {notice : Notice Occurrence CheckedType} {r : Round ι} {s t u : SessionState ι μ}
  {events events' : List (Event ι)}

theorem refl (h : r.globals = s.registry.globals) : Follows notice r s s [] :=
  ⟨rfl, (List.append_nil _).symm, h, (List.append_nil _).symm⟩

theorem trans (h : Follows notice r s t events)
    (h' : Follows notice (r.replay events) t u events') :
    Follows notice r s u (events ++ events') := by
  refine ⟨h'.scopes.trans h.scopes, ?_, ?_, ?_⟩
  · rw [h'.journal, h.journal, List.append_assoc]
  · rw [Round.replay_append]
    exact h'.globals
  · rw [Round.replay_append, h'.told, h.told, List.filterMap_append, List.append_assoc]

/-- What goes on between consultations belongs to the round. -/
theorem of_retold (notice : Notice Occurrence CheckedType) (hr : r.globals = s.registry.globals)
    (h : Retold s t) :
    ∃ events, Follows notice r s t events ∧ (r.replay events).next = r.next ∧
      (r.replay events).reached = r.reached := by
  obtain ⟨hscopes, events, hjournal, hnone, hround⟩ := h
  obtain ⟨hnext, hreached⟩ := Round.next_replay (r := r) hnone
  refine ⟨events, ⟨hscopes, hjournal, hround r hr, ?_⟩, hnext, hreached⟩
  rw [hreached, List.filterMap_eq_nil_iff.mpr hnone, List.append_nil]

end Follows

variable (c : Checker ι μ)

/-- The extension that is next in turn is consulted, and then the turn goes on behind it. -/
theorem invoke_follows (notice : Notice Occurrence CheckedType) {r : Round ι}
    {s : SessionState ι μ} {extension : ι} {i : Nat} (hr : r.globals = s.registry.globals)
    (hnext : nextOccupied s.registry.globals r.next = some (extension, i)) :
    ∃ events, Follows notice r s ((c.invoke extension (.notify notice)).after s) events ∧
      (r.replay events).next = i + 1 ∧
      (r.replay events).reached.length = r.reached.length + 1 := by
  rw [← hr] at hnext
  obtain ⟨k, -, -, -, hvisit⟩ := Round.visit_of_nextOccupied hnext
  have hconsulted : Follows notice r s (s.record (.consulted extension (.notify notice)))
      [.consulted extension (.notify notice)] := by
    refine ⟨rfl, Array.toList_push, (Round.globals_visit r).trans hr, ?_⟩
    show r.visit.reached.map _ = _
    rw [hvisit, List.map_append]
    rfl
  obtain ⟨events, hfollows, hkept, hkept'⟩ := Follows.of_retold notice
    hconsulted.globals ((retold_run (c.behaviour extension (.notify notice))).state _)
  refine ⟨_, hconsulted.trans hfollows, ?_, ?_⟩
  · rw [Round.replay_append, hkept]
    show r.visit.next = _
    rw [hvisit]
  · rw [Round.replay_append, hkept']
    show r.visit.reached.length = _
    rw [hvisit, List.length_append]
    rfl

theorem raised_of_invoke {extension : ι} {call : HookCall Occurrence CheckedType}
    {s t : SessionState ι μ} {halt : Halt} (h : c.invoke extension call s = .error halt t) :
    Raised halt :=
  (retold_run (c.behaviour extension call)).halts h

/-- Whether a traversal that will not come to a scope goes on at a position. -/
def StandsAt (cursor : Cursor (List ι)) (next : Nat) : Prop :=
  cursor = .unopened ∧ next = 0 ∨ cursor = .inGlobals next none

omit [DecidableEq ι] in
theorem advance_of_standsAt {cursor : Cursor (List ι)} {registry : Registry ι (List ι)} {next : Nat}
    (hscopes : registry.scopes = []) (h : StandsAt cursor next) :
    cursor.advance (List.map some) registry =
      match nextOccupied registry.globals next with
      | some (extension, i) => (some extension, .inGlobals (i + 1) none)
      | none => (none, .finished) := by
  have hstep : cursor.advance (List.map some) registry =
      Cursor.stepGlobals (List.map some) registry.globals next none := by
    rcases h with ⟨rfl, rfl⟩ | rfl
    · rw [Cursor.advance, hscopes]
      rfl
    · rfl
  rw [hstep]
  unfold Cursor.stepGlobals
  cases nextOccupied registry.globals next <;> rfl

/-- Tells one extension the news, and counts it. -/
def tell (notice : Notice Occurrence CheckedType) (count : Nat) (extension : ι) :
    Session ι μ (Progress Nat) := do
  c.invoke extension (.notify notice)
  return .go (count + 1)

/-- How a traversal that tells the news may end: there is nobody left to tell, an extension raised an
error, or the traversal was cut off after it consulted as many as it may. -/
def EndsRound (limit : Nat) (before after : Round ι) : EStateM.Result Halt (SessionState ι μ) Nat → Prop
  | .ok _ t => nextOccupied t.registry.globals after.next = none
  | .error halt _ =>
    Raised halt ∨ halt = .exhausted ∧ after.reached.length = before.reached.length + limit

omit [DecidableEq ι] in
theorem EndsRound.succ {limit : Nat} {r before after : Round ι}
    {result : EStateM.Result Halt (SessionState ι μ) Nat} (h : EndsRound limit before after result)
    (hlength : before.reached.length = r.reached.length + 1) :
    EndsRound (limit + 1) r after result := by
  cases result with
  | ok count t => exact h
  | error halt t =>
      rcases h with hraised | ⟨hexhausted, hcount⟩
      · exact Or.inl hraised
      · exact Or.inr ⟨hexhausted, by omega⟩

/-- A traversal that tells the news makes the round through the global extensions. The induction is on
how many it may still consult. -/
theorem consult_follows (notice : Notice Occurrence CheckedType) (limit : Nat)
    (cursor : Cursor (List ι)) (count : Nat) (s : SessionState ι μ) (r : Round ι)
    (hscopes : s.registry.scopes = []) (hr : r.globals = s.registry.globals)
    (hcursor : StandsAt cursor r.next) :
    ∃ events, Follows notice r s
      ((c.dispatcher.consult (c.tell notice) limit cursor count).after s) events ∧
      EndsRound limit r (r.replay events)
        (c.dispatcher.consult (c.tell notice) limit cursor count s) := by
  induction limit generalizing cursor count s r with
  | zero => exact ⟨[], Follows.refl hr, Or.inr ⟨rfl, rfl⟩⟩
  | succ limit ih =>
      have hadvance := advance_of_standsAt hscopes hcursor
      cases hnext : nextOccupied s.registry.globals r.next with
      | none =>
          rw [hnext] at hadvance
          have hrun : c.dispatcher.consult (c.tell notice) (limit + 1) cursor count s =
              .ok count s := Dispatcher.consult_of_none hadvance
          rw [after_of_ok hrun, hrun]
          exact ⟨[], Follows.refl hr, hnext⟩
      | some found =>
          obtain ⟨extension, i⟩ := found
          rw [hnext] at hadvance
          have hrun : c.dispatcher.consult (c.tell notice) (limit + 1) cursor count s =
              (c.invoke extension (.notify notice) >>= fun _ =>
                c.dispatcher.consult (c.tell notice) limit (.inGlobals (i + 1) none)
                  (count + 1)) s := by
            rw [Dispatcher.consult_of_some hadvance, tell, bind_assoc]
            rfl
          obtain ⟨events, hfollows, hturn, hlength⟩ :=
            c.invoke_follows notice hr hnext
          cases hinvoke : c.invoke extension (.notify notice) s with
          | error halt t =>
              rw [after_of_error hinvoke] at hfollows
              rw [bind_of_error hinvoke] at hrun
              rw [after_of_error hrun, hrun]
              exact ⟨events, hfollows, Or.inl (c.raised_of_invoke hinvoke)⟩
          | ok u t =>
              rw [after_of_ok hinvoke] at hfollows
              rw [bind_of_ok hinvoke] at hrun
              obtain ⟨events', hfollows', hends⟩ :=
                ih (.inGlobals (i + 1) none) (count + 1) t (r.replay events)
                  (hfollows.scopes.trans hscopes) hfollows.globals (Or.inr (by rw [hturn]))
              rw [after, hrun]
              refine ⟨events ++ events', hfollows.trans hfollows', ?_⟩
              rw [Round.replay_append]
              exact hends.succ hlength

/-- The line in the log after everybody was told, where one is wanted. -/
def summarize (notice : Notice Occurrence CheckedType) (count : Nat) : Session ι μ Unit :=
  match Dispatcher.summary? count notice with
  | some line => c.dispatcher.say line
  | none => pure ()

/-- What comes after everybody was told: perhaps a line in the log, and the entry that the use of the
hook is settled. -/
def conclude (notice : Notice Occurrence CheckedType) (count : Nat) : Session ι μ Unit := do
  c.summarize notice count
  record (.settled (.notify notice) ())

/-- The conclusion of a broadcast never fails, and leaves the registry as it is. -/
theorem conclude_retold (notice : Notice Occurrence CheckedType) (count : Nat)
    (s : SessionState ι μ) :
    ∃ t, c.conclude notice count s = .ok () t ∧ t.registry = s.registry ∧ Retold s t := by
  have hsummary : ∃ t, c.summarize notice count s = .ok () t ∧ t.registry = s.registry ∧
      Retold s t := by
    rw [summarize]
    cases Dispatcher.summary? count notice with
    | none => exact ⟨s, rfl, rfl, refl_of Retold s⟩
    | some line =>
        show ∃ t, (if c.verbose then print line else pure () : Session ι μ Unit) s = .ok () t ∧ _
        by_cases hverbose : c.verbose = true
        · rw [if_pos hverbose]
          exact ⟨s.record (.printed line), rfl, rfl, retold_record rfl rfl rfl fun _ h => h⟩
        · rw [if_neg hverbose]
          exact ⟨s, rfl, rfl, refl_of Retold s⟩
  obtain ⟨t, hrun, hregistry, hretold⟩ := hsummary
  have hsettled : Retold t (t.record (.settled (.notify notice) ())) :=
    retold_record rfl rfl rfl fun _ h => h
  exact ⟨_, bind_of_ok hrun, hregistry, trans_of Retold hretold hsettled⟩

theorem raise_notify_eq (notice : Notice Occurrence CheckedType) (s : SessionState ι μ) :
    c.raise (.notify notice) s =
      (c.dispatcher.consult (c.tell notice) (c.limit + 1) .unopened 0 >>= c.conclude notice)
        (s.record (.raised (.notify notice) s.registry)) := by
  have hraise : c.raise (.notify notice) s = (c.dispatcher.notify notice >>= fun answer => do
      record (.settled (.notify notice) answer)
      return answer) (s.record (.raised (.notify notice) s.registry)) := rfl
  rw [hraise, Dispatcher.notify, bind_assoc]
  rfl

/-- A broadcast makes the round through the global extensions, from the start to where nobody is left,
unless an extension raises an error or the broadcast is cut off. -/
theorem raise_follows (notice : Notice Occurrence CheckedType) {s : SessionState ι μ}
    (hscopes : s.registry.scopes = []) :
    ∃ events, Follows notice (.start s.registry.globals) s ((c.raise (.notify notice)).after s)
        events ∧
      match c.raise (.notify notice) s with
      | .ok _ t =>
        nextOccupied t.registry.globals ((Round.start s.registry.globals).replay events).next = none
      | .error halt _ => Raised halt ∨ halt = .exhausted ∧
        ((Round.start s.registry.globals).replay events).reached.length = c.limit + 1 := by
  have hbegin : Follows notice (.start s.registry.globals) s
      (s.record (.raised (.notify notice) s.registry)) [.raised (.notify notice) s.registry] :=
    ⟨rfl, Array.toList_push, Round.globals_start _, (List.append_nil _).symm⟩
  obtain ⟨events, hround, hends⟩ := c.consult_follows notice (c.limit + 1) .unopened 0
    (s.record (.raised (.notify notice) s.registry)) (.start s.registry.globals) hscopes
    hbegin.globals (Or.inl ⟨rfl, rfl⟩)
  have htold := hbegin.trans hround
  have hraise := c.raise_notify_eq notice s
  cases hconsult : c.dispatcher.consult (c.tell notice) (c.limit + 1) .unopened 0
      (s.record (.raised (.notify notice) s.registry)) with
  | error halt t =>
      rw [bind_of_error hconsult] at hraise
      rw [after_of_error hconsult] at htold
      rw [hconsult] at hends
      rw [after_of_error hraise, hraise]
      refine ⟨_, htold, ?_⟩
      rcases hends with hraised | ⟨hexhausted, hlength⟩
      · exact Or.inl hraised
      · exact Or.inr ⟨hexhausted, hlength.trans (Nat.zero_add _)⟩
  | ok count t =>
      rw [bind_of_ok hconsult] at hraise
      rw [after_of_ok hconsult] at htold
      rw [hconsult] at hends
      obtain ⟨u, hconclude, hregistry, hretold⟩ := c.conclude_retold notice count t
      rw [hconclude] at hraise
      rw [after_of_ok hraise, hraise]
      obtain ⟨last, hlast, hnext, -⟩ := Follows.of_retold notice htold.globals hretold
      refine ⟨_, htold.trans hlast, ?_⟩
      rw [Round.replay_append, hnext]
      show nextOccupied u.registry.globals _ = none
      rw [hregistry]
      exact hends

/-- What happens in a broadcast, from a state on. -/
def broadcast (notice : Notice Occurrence CheckedType) (s : SessionState ι μ) : List (Event ι) :=
  ((c.raise (.notify notice)).after s).journal.toList.drop s.journal.toList.length

/-- The round that a broadcast makes through the global extensions. -/
def broadcastRound (notice : Notice Occurrence CheckedType) (s : SessionState ι μ) : Round ι :=
  (Round.start s.registry.globals).replay (c.broadcast notice s)

/-- Whatever the extensions register and remove meanwhile: where no local scope is active, a broadcast
comes to every registration that is there in the end exactly once, except that it never comes to one
that is overrun. Every removal of a slot before the position costs one registration its turn. A
broadcast ends early only if an extension raises an error, or if there are more registrations than
it may consult. -/
theorem broadcast_reaches (notice : Notice Occurrence CheckedType) {s : SessionState ι μ}
    (hscopes : s.registry.scopes = []) :
    let round := c.broadcastRound notice s
    round.globals = ((c.raise (.notify notice)).after s).registry.globals ∧
      (c.broadcast notice s).filterMap Event.consultation? =
        round.reached.map (fun (_, extension) => (extension, .notify notice)) ∧
      round.overrun.length + (round.next - round.slots.length) = round.lost ∧
      match c.raise (.notify notice) s with
      | .ok _ _ => ∀ k x, ⟨k, some x⟩ ∈ round.slots →
        round.reachedNumbers.count k = if k ∈ round.overrun then 0 else 1
      | .error halt _ => Raised halt ∨ halt = .exhausted ∧ c.limit <
        s.registry.globals.length + (c.broadcast notice s).countP Event.isRegistration := by
  obtain ⟨events, hfollows, hends⟩ := c.raise_follows notice hscopes
  have hbroadcast : c.broadcast notice s = events := by
    rw [broadcast, hfollows.journal, List.drop_left]
  have hround : c.broadcastRound notice s = (Round.start s.registry.globals).replay events := by
    rw [broadcastRound, hbroadcast]
  have hsound := (Round.sound_start s.registry.globals).replay events
  rw [hbroadcast, hround]
  refine ⟨hfollows.globals, hfollows.told.symm, hsound.account, ?_⟩
  have hglobals := hfollows.globals
  cases hraise : c.raise (.notify notice) s with
  | ok answer t =>
      rw [hraise] at hends
      rw [after_of_ok hraise] at hglobals
      intro k x hslot
      apply hsound.count_reached ?_ hslot
      rw [hglobals]
      exact hends
  | error halt t =>
      rw [hraise] at hends
      rcases hends with hraised | ⟨hexhausted, hlength⟩
      · exact Or.inl hraised
      · refine Or.inr ⟨hexhausted, ?_⟩
        calc c.limit < ((Round.start s.registry.globals).replay events).reached.length := by omega
          _ ≤ ((Round.start s.registry.globals).replay events).fresh := hsound.length_reached_le
          _ = s.registry.globals.length + events.countP Event.isRegistration :=
            Round.fresh_replay _ _

end Checker

/-- An extension that adds another one to follow it when it is set up. -/
def bringsSuccessor : Checker Nat Unit where
  behaviour
    | 0, .notify .setup => .request (.register 1) .done
    | _, call => Behaviour.neutral call
  label _ := .anonymous
  limit := 2

/-- The successor is set up too. -/
theorem setup_bringsSuccessor :
    let s : SessionState Nat Unit := { registry := { globals := [some 0] }, memory := () }
    let round := bringsSuccessor.broadcastRound .setup s
    s.registry.scopes = [] ∧ (bringsSuccessor.raise (.notify .setup)).finishes s ∧
      round.slots = [⟨0, some 0⟩, ⟨1, some 1⟩] ∧ round.overrun = [] ∧
      round.globals = ((bringsSuccessor.raise (.notify .setup)).after s).registry.globals ∧
      ∀ k x, ⟨k, some x⟩ ∈ round.slots → round.reachedNumbers.count k = 1 := by
  intro s round
  have hfinishes : (bringsSuccessor.raise (.notify .setup)).finishes s := by decide +kernel
  obtain ⟨hglobals, -, -, hreached⟩ := bringsSuccessor.broadcast_reaches .setup (s := s) rfl
  obtain ⟨answer, hraise⟩ := exists_of_finishes hfinishes
  rw [hraise] at hreached
  have hoverrun : round.overrun = [] := by decide +kernel
  refine ⟨rfl, hfinishes, by decide +kernel, hoverrun, hglobals, fun k x hslot => ?_⟩
  rw [hreached k x hslot]
  show (if k ∈ round.overrun then 0 else 1) = 1
  rw [hoverrun]
  rfl

/-- An extension that is set up by putting another one in its place. -/
def replacesItself : Checker Nat Unit where
  behaviour
    | 0, .notify .setup => .request (.unregister 0) fun _ => .request (.register 1) .done
    | _, call => Behaviour.neutral call
  label _ := .anonymous
  limit := 2

/-- The extension in its place is there in the end, but it is never set up. -/
theorem setup_replacesItself :
    let s : SessionState Nat Unit := { registry := { globals := [some 0] }, memory := () }
    let setup := replacesItself.raise (.notify .setup)
    s.registry.scopes = [] ∧ setup.finishes s ∧
      (setup.after s).registry.globals = [some 1] ∧
      ((replacesItself.broadcast .setup s).filterMap Event.consultation?).map Prod.fst = [0] := by
  decide +kernel

end ExtensibleCheck
