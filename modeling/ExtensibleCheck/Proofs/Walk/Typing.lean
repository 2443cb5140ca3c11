import ExtensibleCheck.Proofs.Walk.Steps

/-! Which type counts for a node. Extensions store types, and the selection of a method gives its return
type to the call. Whoever looks up the type of a node gets what came last of the two. So what an
extension stored counts until it is stored anew, or until a method with a return type is selected for the
node, which happens to calls only. -/

namespace ExtensibleCheck

/-- What an event stores for a node on behalf of an extension. -/
def Event.storing? {ι : Type} (id : NodeId) : Event ι → Option (Option CheckedType)
  | stored o type => if o.id = id then some type else none
  | _ => none

/-- The return type that an event gives to a node for which it selects a method. -/
def Event.selecting? {ι : Type} (id : NodeId) : Event ι → Option CheckedType
  | selected call target => if call.id = id then target.returns else none
  | _ => none

/-- What counts for a node from the event on. -/
def Event.typing? {ι : Type} (id : NodeId) (e : Event ι) : Option (Option CheckedType) :=
  (e.storing? id).or ((e.selecting? id).map some)

/-- The method of which an event tells that it is selected for a node. -/
def Event.target? {ι : Type} (id : NodeId) : Event ι → Option (Candidate CheckedType)
  | raised (.notify (.methodSelection call target)) _ => if call.id = id then some target else none
  | _ => none

section

variable {ι : Type} (events : List (Event ι)) (id : NodeId)

/-- What counts for a node after some events, if anything. -/
def lastTyping : Option (Option CheckedType) := (events.filterMap (Event.typing? id)).getLast?

/-- The return type of the method that was selected last for a node. -/
def lastSelected : Option CheckedType := (events.filterMap (Event.selecting? id)).getLast?

/-- The method of which it was last told that it is selected for a node. -/
def lastTarget : Option (Candidate CheckedType) := (events.filterMap (Event.target? id)).getLast?

variable {events} {id}

/-- The type of a node after some events: what counts for it, or else what the compiler says. -/
def typeIn (events : List (Event ι)) (o : Occurrence) : CheckedType :=
  ((lastTyping events o.id).getD none).getD o.node.info.type

/-- Whether an event is what it has to be after the events before it: what somebody gets who looks up a
type, asks whether there is one, or asks for the method selected for a call. -/
def Event.FollowsFrom (past : List (Event ι)) : Event ι → Prop
  | lookedUp o type => type = typeIn past o
  | probed o found => found = (lastTyping past o.id).isSome
  | recalled call target => target = lastTarget past call.id
  | selected call _ => call.isCall
  | raised (.notify (.methodSelection call target)) _ => ∃ before, past = before ++ [.selected call target]
  | _ => True

theorem lastTarget_concat (event : Event ι) :
    lastTarget (events ++ [event]) id = (event.target? id).or (lastTarget events id) := by
  rw [lastTarget, List.filterMap_append, List.getLast?_append, List.filterMap_cons]
  cases event.target? id <;> rfl

theorem Event.exists_of_target? {e : Event ι} {target : Candidate CheckedType}
    (h : e.target? id = some target) :
    ∃ call registry, call.id = id ∧ e = .raised (.notify (.methodSelection call target)) registry := by
  cases e with
  | raised use registry =>
      cases use with
      | notify notice =>
          cases notice with
          | methodSelection call target' =>
              rw [Event.target?] at h
              split at h
              · rename_i hid
                cases h
                exact ⟨call, registry, hid, rfl⟩
              · cases h
          | _ => cases h
      | _ => cases h
  | _ => cases h

/-- What was told last was told. -/
theorem exists_told_of_lastTarget {target : Candidate CheckedType} (h : lastTarget events id = some target) :
    ∃ call registry, call.id = id ∧
      .raised (.notify (.methodSelection call target)) registry ∈ events := by
  obtain ⟨e, he, htarget⟩ := List.mem_filterMap.mp (List.mem_of_getLast? h)
  obtain ⟨call, registry, hid, rfl⟩ := Event.exists_of_target? htarget
  exact ⟨call, registry, hid, he⟩

theorem lastTyping_concat (event : Event ι) :
    lastTyping (events ++ [event]) id = (event.typing? id).or (lastTyping events id) := by
  rw [lastTyping, List.filterMap_append, List.getLast?_append, List.filterMap_cons]
  cases event.typing? id <;> rfl

theorem lastTyping_append {since : List (Event ι)} (h : ∀ e ∈ since, e.typing? id = none) :
    lastTyping (events ++ since) id = lastTyping events id := by
  rw [lastTyping, List.filterMap_append, List.filterMap_eq_nil_iff.mpr h, List.append_nil, lastTyping]

/-- What does not bear on the type of a node leaves it as it is. -/
theorem typeIn_append {since : List (Event ι)} {o : Occurrence} (h : ∀ e ∈ since, e.typing? o.id = none) :
    typeIn (events ++ since) o = typeIn events o := by
  rw [typeIn, lastTyping_append h, typeIn]

theorem typeIn_concat {event : Event ι} {o : Occurrence} (h : event.typing? o.id = none) :
    typeIn (events ++ [event]) o = typeIn events o :=
  typeIn_append fun _ he => List.mem_singleton.mp he ▸ h

/-- Where nothing is stored, what counts is the return type of the method selected last. -/
theorem lastTyping_of_not_stored (h : ∀ e ∈ events, e.storing? id = none) :
    lastTyping events id = (lastSelected events id).map some := by
  have hall : events.filterMap (Event.typing? id) =
      (events.filterMap (Event.selecting? id)).map some := by
    rw [List.map_filterMap]
    refine List.filterMap_congr fun e he => ?_
    rw [Event.typing?, h e he, Option.none_or]
  rw [lastTyping, hall, List.getLast?_map, lastSelected]

/-- After something was stored, what counts is that, or the return type of a method selected since. -/
theorem lastTyping_of_stored {past since : List (Event ι)} {node : Occurrence}
    {type : Option CheckedType} (h : ∀ e ∈ since, e.storing? node.id = none) :
    lastTyping (past ++ .stored node type :: since) node.id =
      some ((lastSelected since node.id).elim type some) := by
  have hhere : (Event.stored node type : Event ι).typing? node.id = some type := by
    rw [Event.typing?, Event.storing?, if_pos rfl, Option.some_or]
  have hsince := lastTyping_of_not_stored h
  rw [lastTyping] at hsince ⊢
  rw [List.filterMap_append, List.filterMap_cons, hhere, List.getLast?_append,
    List.getLast?_cons, hsince]
  cases lastSelected since node.id <;> rfl

end

namespace SessionState

variable {ι μ : Type}

/-- What the state says about types and selected methods can be told from the journal, and what was
looked up, asked for or selected at any time from the entries before. -/
structure Typed (s : SessionState ι μ) : Prop where
  stored : ∀ id, s.stored.get? id = lastTyping s.journal.toList id
  targets : ∀ id, s.targets.get? id = lastTarget s.journal.toList id
  follows : ∀ {past e rest}, s.journal.toList = past ++ e :: rest → Event.FollowsFrom past e

theorem typed_start (memory : μ) : Typed ({ memory } : SessionState ι μ) where
  stored _ := rfl
  targets _ := rfl
  follows hsplit := absurd (List.append_eq_nil_iff.mp hsplit.symm).2 (List.cons_ne_nil _ _)

theorem Typed.lookups {s : SessionState ι μ} (h : Typed s) {past rest : List (Event ι)}
    {o : Occurrence} {type : CheckedType} (hsplit : s.journal.toList = past ++ .lookedUp o type :: rest) :
    type = ((lastTyping past o.id).getD none).getD o.node.info.type :=
  h.follows hsplit

theorem Typed.calls {s : SessionState ι μ} (h : Typed s) {call : Occurrence}
    {target : Candidate CheckedType} (hmem : .selected call target ∈ s.journal.toList) : call.isCall := by
  obtain ⟨past, rest, hsplit⟩ := List.append_of_mem hmem
  exact h.follows hsplit

/-- One more entry keeps this, if it follows from those before it. -/
theorem Typed.record {s t : SessionState ι μ} {event : Event ι} (h : Typed s)
    (hjournal : t.journal = s.journal)
    (hstored : ∀ id, t.stored.get? id = (event.typing? id).or (s.stored.get? id))
    (htargets : ∀ id, t.targets.get? id = (event.target? id).or (s.targets.get? id))
    (hfollows : event.FollowsFrom s.journal.toList) : Typed (t.record event) := by
  have hgrown : (t.record event).journal.toList = s.journal.toList ++ [event] := by
    rw [journal_record, hjournal]
  constructor
  · intro id
    rw [hgrown, lastTyping_concat, ← h.stored]
    exact hstored id
  · intro id
    rw [hgrown, lastTarget_concat, ← h.targets]
    exact htargets id
  · intro past e rest hsplit
    rw [hgrown] at hsplit
    -- Either this is the new entry, or it has the same entries before it as in `s`.
    rcases List.eq_nil_or_concat rest with rfl | ⟨rest, last, rfl⟩
    · obtain ⟨rfl, hevent⟩ := List.append_inj' hsplit rfl
      exact List.singleton_inj.mp hevent ▸ hfollows
    · rw [List.concat_eq_append, ← List.cons_append, ← List.append_assoc] at hsplit
      exact h.follows (List.append_inj' hsplit rfl).1

theorem Change.typed [DecidableEq ι] {s t : SessionState ι μ} (hchange : Change s t)
    (h : Typed s) : Typed t := by
  cases hchange with
  | @note event hnote =>
      cases event with
      | stored | selected | lookedUp | probed | recalled => cases hnote
      | raised call =>
          cases call with
          | notify notice =>
              cases notice with
              | methodSelection => cases hnote
              | _ => exact h.record rfl (fun _ => rfl) (fun _ => rfl) trivial
          | _ => exact h.record rfl (fun _ => rfl) (fun _ => rfl) trivial
      | _ => exact h.record rfl (fun _ => rfl) (fun _ => rfl) trivial
  | lookUp o =>
      refine h.record rfl (fun _ => rfl) (fun _ => rfl) ?_
      rw [Event.FollowsFrom, typeIn, ← h.stored]
      rfl
  | probe o =>
      refine h.record rfl (fun _ => rfl) (fun _ => rfl) ?_
      rw [Event.FollowsFrom, ← h.stored]
      rfl
  | readTarget call =>
      refine h.record rfl (fun _ => rfl) (fun _ => rfl) ?_
      rw [Event.FollowsFrom, ← h.targets]
      rfl
  | store o type =>
      refine h.record rfl (fun id => ?_) (fun _ => rfl) trivial
      rw [OrderedMap.get?_insert, Event.typing?, Event.storing?]
      split <;> rfl
  | @select call target hcall =>
      -- First the type of the call counts, then its target.
      have hselected : Typed ({ s with stored := (s.selecting call target).stored }.record
          (.selected call target)) := by
        refine h.record rfl (fun id => ?_) (fun _ => rfl) hcall
        show _ = ((if call.id = id then target.returns else none).map some).or (s.stored.get? id)
        rw [selecting]
        cases target.returns with
        | none =>
            rw [ite_self]
            rfl
        | some type =>
            rw [OrderedMap.get?_insert]
            split <;> rfl
      refine hselected.record rfl (fun _ => rfl) (fun id => ?_) ⟨_, Array.toList_push⟩
      show (s.targets.insert call.id target).get? id = _
      rw [OrderedMap.get?_insert, Event.target?]
      split <;> rfl
  | report | register | unregister => exact h.record rfl (fun _ => rfl) (fun _ => rfl) trivial
  | scopes | memory => exact ⟨h.stored, h.targets, h.follows⟩

end SessionState

open Run SessionState

namespace Checker

variable {ι μ : Type} [DecidableEq ι] (c : Checker ι μ)

theorem typed_check (p : Program) (memory : μ) : Typed ((c.check p).after { memory }) :=
  ((c.gradual_check p).state { memory }).keep Change.typed (typed_start memory)

/-- However a check ends, once an extension stored something for a node, that is what everybody gets who
looks up its type, and what the result says, until an extension stores something for it anew or a method
with a return type is selected for it. Methods are selected for calls only. -/
theorem check_stored_types (p : Program) (memory : μ) :
    let s := (c.check p).after { memory }
    let journal := s.journal.toList
    (∀ past node type since o found rest,
      journal = past ++ .stored node type :: since ++ .lookedUp o found :: rest →
      (∀ e ∈ since, e.storing? node.id = none) → o.id = node.id →
      found = ((lastSelected since node.id).elim type some).getD o.node.info.type) ∧
    (∀ past node type since result, journal = past ++ .stored node type :: since →
      (∀ e ∈ since, e.storing? node.id = none) → c.check p { memory } = .ok (.ok result) s →
      result.inferredTypes.get? node.id = some ((lastSelected since node.id).elim type some)) ∧
    ∀ call target, .selected call target ∈ journal → call.isCall := by
  have htyped := c.typed_check p memory
  generalize (c.check p).after { memory } = s at htyped ⊢
  refine ⟨fun past node type since o found rest hsplit hsince ho => ?_,
    fun past node type since result hsplit hsince hrun => ?_, fun _ _ => htyped.calls⟩
  · rw [htyped.lookups hsplit, ho, lastTyping_of_stored hsince, Option.getD_some]
  · have hresult : result.inferredTypes = s.stored := by
      have hverdict := c.eq_verdict_of_check hrun
      rw [verdict] at hverdict
      split at hverdict
      · cases hverdict
      · cases hverdict
        rfl
    rw [hresult, htyped.stored, hsplit, lastTyping_of_stored hsince]

end Checker

/-- What an event has to do with the type of a node: what an extension stored for it, or what somebody
got who looked it up. -/
def Event.typed? {ι : Type} (id : NodeId) : Event ι → Option (Option CheckedType ⊕ CheckedType)
  | stored o type => if o.id = id then some (.inl type) else none
  | lookedUp o type => if o.id = id then some (.inr type) else none
  | _ => none

/-- A call of a function that returns a string. -/
def resolvedCall : Program :=
  let declaration : Declaration CheckedType :=
    { kind := .functionDeclaration, name := none,
      parent := { kind := .sourceFile, name := none, type := .any } }
  let signature : Signature CheckedType :=
    { parameters := [], returns := { text := "string" }, declaration := some declaration }
  let call : Node :=
    .mk { role := .other "statements*", kind := .callExpression, start := 0, stop := 0,
          signature := some signature } [.bare .identifier .expression]
  ⟨[⟨0, "call.ts", "", .bare .sourceFile (.other "") [call], []⟩]⟩

/-- An extension that stores the type of every call ahead of it, and looks it up when all is done. -/
def typesCallsAhead : Checker Unit Unit where
  extensions := [.done ()]
  behaviour
    | _, .ask (.beforeMethodCall call) =>
        .request (.storeType call (some { text := "number" })) fun _ => .done false
    | _, .notify (.afterMethodCall call) => .request (.typeOf call) fun _ => .done ()
    | _, call => Behaviour.neutral call
  label _ := .anonymous
  limit := 1

/-- The type that was stored is lost to that of the selected method, for whoever looks it up and in the
result. -/
theorem typesCallsAhead_loses :
    let s := (typesCallsAhead.check resolvedCall).after { memory := () }
    s.journal.toList.filterMap (Event.typed? ⟨0, [0]⟩) =
        [.inl (some { text := "number" }), .inr { text := "string" }] ∧
      ∃ result, typesCallsAhead.check resolvedCall { memory := () } = .ok (.ok result) s ∧
        result.inferredTypes.get? ⟨0, [0]⟩ = some (some { text := "string" }) := by
  refine ⟨by decide +kernel, _, rfl, by decide +kernel⟩

end ExtensibleCheck
