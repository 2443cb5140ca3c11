import ExtensibleCheck.Proofs.Session.Entries

/-! What a run enters into the journal however it ends. A run unfolds into a language if it enters a
word of the language whenever it ends with a result, and the beginning of a word when it is aborted.
Whatever is true of all beginnings of words is then true of the journal, wherever the run stopped. -/

namespace ExtensibleCheck

open Run SessionState

/-- The whole use of a hook: it begins, the extensions do their deeds, and it is settled. -/
inductive Exchange {ι : Type} (call : HookCall Occurrence CheckedType) (answer : call.Answer) :
    List (Event ι) → Prop
  | mk (registry : Registry ι (List ι)) {during : List (Event ι)} : (∀ e ∈ during, e.isDeed) →
      Exchange call answer (.raised call registry :: (during ++ [.settled call answer]))

section

variable {ι κ : Type} {events : List (Event ι)} {f : Event ι → Option κ}
  (hf : ∀ e : Event ι, e.isDeed → f e = none)

include hf

theorem filterMap_deeds (h : ∀ e ∈ events, e.isDeed) : events.filterMap f = [] :=
  List.filterMap_eq_nil_iff.mpr fun e he => hf e (h e he)

/-- Where deeds do not count, of the use of a hook only its beginning and its end are left. -/
theorem Exchange.filterMap {call : HookCall Occurrence CheckedType} {answer : call.Answer}
    (h : Exchange call answer events) : ∃ registry, events.filterMap f =
      (f (.raised call registry)).toList ++ (f (.settled call answer)).toList := by
  obtain ⟨registry, hduring⟩ := h
  refine ⟨registry, ?_⟩
  rw [List.filterMap_cons, List.filterMap_append, filterMap_deeds hf hduring, List.nil_append,
    List.filterMap_cons]
  cases f (.raised call registry) <;> cases f (.settled call answer) <;> rfl

end

theorem Exchange.settled_mem {ι : Type} {call : HookCall Occurrence CheckedType} {answer : call.Answer}
    {events : List (Event ι)} (h : Exchange call answer events) : .settled call answer ∈ events := by
  obtain ⟨registry, hduring⟩ := h
  simp

theorem Exchange.exists_settled {ι : Type} {call : HookCall Occurrence CheckedType} {answer : call.Answer}
    {events : List (Event ι)} (h : Exchange call answer events) :
    ∃ before, events = before ++ [.settled call answer] := by
  obtain ⟨registry, hduring⟩ := h
  exact ⟨_, (List.cons_append ..).symm⟩

namespace Session

variable {ι μ α β : Type}

/-- What the run enters is a word of a language that depends on the result, or the beginning of one if
there is no result. -/
structure Unfolds (m : Session ι μ α) (L : α → List (Event ι) → Prop) : Prop where
  whole : Enters m L
  part : ∀ {s halt t}, m s = .error halt t → ∃ events rest a,
    t.journal.toList = s.journal.toList ++ events ∧ L a (events ++ rest)

namespace Unfolds

variable {m : Session ι μ α} {L L' : α → List (Event ι) → Prop}

theorem mono (h : Unfolds m L) (hL : ∀ a events, L a events → L' a events) : Unfolds m L' := by
  refine ⟨h.whole.mono hL, fun herror => ?_⟩
  obtain ⟨events, rest, a, hgrown, hevents⟩ := h.part herror
  exact ⟨events, rest, a, hgrown, hL a _ hevents⟩

/-- However the run ends, it enters the beginning of a word, and a whole one if it is not aborted. -/
theorem exists_beginning (h : Unfolds m L) (s : SessionState ι μ) : ∃ events rest a,
    (m.after s).journal.toList = s.journal.toList ++ events ∧ L a (events ++ rest) ∧
      (m.finishes s → rest = []) := by
  cases hm : m s with
  | ok a t =>
      obtain ⟨events, hgrown, hword⟩ := h.whole s a t hm
      rw [after_of_ok hm]
      exact ⟨events, [], a, hgrown, (List.append_nil events).symm ▸ hword, fun _ => rfl⟩
  | error halt t =>
      obtain ⟨events, rest, a, hgrown, hword⟩ := h.part hm
      rw [after_of_error hm]
      refine ⟨events, rest, a, hgrown, hword, fun hfinishes => ?_⟩
      rw [finishes, hm] at hfinishes
      cases hfinishes

/-- A language into which some run unfolds has words. -/
theorem exists_word (h : Unfolds m L) (s : SessionState ι μ) : ∃ a events, L a events := by
  obtain ⟨events, rest, a, -, hword, -⟩ := h.exists_beginning s
  exact ⟨a, events ++ rest, hword⟩

/-- A run in two parts. If it is aborted in the first, the second could have gone on somehow. -/
theorem bind {f : α → Session ι μ β} {M : α → β → List (Event ι) → Prop} (hm : Unfolds m L)
    (hf : ∀ a, Unfolds (f a) (M a)) :
    Unfolds (m >>= f) fun b events => ∃ a first rest, events = first ++ rest ∧ L a first ∧
      M a b rest := by
  refine ⟨hm.whole.bind fun a => (hf a).whole, fun {s halt t} herror => ?_⟩
  rcases bind_eq_error_iff.mp herror with herror | ⟨a, r, hfirst, herror⟩
  · obtain ⟨events, rest, a, hgrown, hword⟩ := hm.part herror
    obtain ⟨b, further, hfurther⟩ := (hf a).exists_word t
    refine ⟨events, rest ++ further, b, hgrown, a, events ++ rest, further, ?_, hword, hfurther⟩
    rw [List.append_assoc]
  · obtain ⟨first, hr, hword⟩ := hm.whole s a r hfirst
    obtain ⟨events, rest, b, ht, hrest⟩ := (hf a).part herror
    refine ⟨first ++ events, rest, b, ?_, a, first, events ++ rest, ?_, hword, hrest⟩
    · rw [ht, hr, List.append_assoc]
    · rw [List.append_assoc]

theorem ite {p : Prop} [Decidable p] {m' : Session ι μ α} (h : p → Unfolds m L)
    (h' : ¬p → Unfolds m' L) : Unfolds (if p then m else m') L := by
  by_cases hp : p
  · rw [if_pos hp]
    exact h hp
  · rw [if_neg hp]
    exact h' hp

theorem ofEnters (h : Enters m L) (hends : ∀ s, m.finishes s) : Unfolds m L := by
  refine ⟨h, fun {s halt t} herror => ?_⟩
  have hfinishes := hends s
  rw [finishes, herror] at hfinishes
  cases hfinishes

/-- A run of which only the kind of its entries is known. It could have had any result. -/
theorem ofWrites {P : Event ι → Prop} (h : Writes P m) (a : α) :
    Unfolds m fun _ events => ∀ e ∈ events, P e := by
  refine ⟨Enters.ofKeeps h, fun {s halt t} herror => ?_⟩
  obtain ⟨events, hgrown, hevents⟩ := h.state s
  rw [after_of_error herror] at hgrown
  exact ⟨events, [], a, hgrown, (List.append_nil events).symm ▸ hevents⟩

end Unfolds

theorem unfolds_pure (a : α) :
    Unfolds (pure a : Session ι μ α) fun b events => b = a ∧ events = [] :=
  .ofEnters (enters_pure a) fun _ => rfl

theorem unfolds_record (event : Event ι) :
    Unfolds (record event : Session ι μ Unit) fun _ events => events = [event] :=
  .ofEnters (enters_record event) fun _ => rfl

theorem unfolds_report (code : Code) (message : String) (o : Occurrence) :
    Unfolds (report code message o : Session ι μ Unit) fun _ events =>
      events = [.reported ⟨code, .error, message, some o.location⟩] :=
  .ofEnters (enters_report code message o) fun _ => rfl

theorem unfolds_typeOf (o : Occurrence) :
    Unfolds (typeOf o : Session ι μ CheckedType) fun type events => events = [.lookedUp o type] :=
  .ofEnters (enters_typeOf o) fun _ => rfl

theorem unfolds_hasStored (o : Occurrence) :
    Unfolds (hasStored o : Session ι μ Bool) fun found events => events = [.probed o found] :=
  .ofEnters (enters_hasStored o) fun _ => rfl

theorem Unfolds.get_bind {f : SessionState ι μ → Session ι μ α} {L : α → List (Event ι) → Prop}
    (h : ∀ s, Unfolds (f s) L) : Unfolds (get >>= f) L :=
  ⟨fun s a t hm => (h s).whole s a t hm, fun {s _ _} herror => (h s).part herror⟩

/-- Opening and closing a scope around a run does not show in the journal. -/
theorem Unfolds.scoped {m : Session ι μ Unit} {L : List (Event ι) → Prop}
    (h : Unfolds m fun _ => L) (extensions : List ι) :
    Unfolds (do pushLocal extensions; Run.ensuring m popLocal) fun _ => L := by
  have hpop (s : SessionState ι μ) : (popLocal.after s).journal = s.journal := by
    cases hscopes : s.registry.scopes with
    | nil => rw [after_of_error (popLocal_of_nil hscopes)]
    | cons scope outer => rw [after_of_ok (popLocal_of_cons hscopes)]
  refine ⟨h.whole.scoped extensions, fun {s halt t} herror => ?_⟩
  rcases bind_eq_error_iff.mp herror with hpush | ⟨_, r, hpush, herror⟩
  · cases hpush
  have hbegin : r.journal = s.journal := by
    cases hpush
    rfl
  rw [← hbegin]
  cases hm : m r with
  | ok a u =>
      obtain ⟨events, hgrown, hevents⟩ := h.whole r a u hm
      have hend : t.journal = u.journal := by
        rw [ensuring_of_ok hm] at herror
        rcases bind_eq_error_iff.mp herror with hpopped | ⟨_, _, _, hpure⟩
        · rw [← hpop u, after_of_error hpopped]
        · cases hpure
      exact ⟨events, [], (), by rw [hend, hgrown], (List.append_nil events).symm ▸ hevents⟩
  | error halt' u =>
      have hend : t.journal = u.journal := by
        rw [ensuring_of_error hm] at herror
        rcases bind_eq_error_iff.mp herror with hpopped | ⟨_, _, hpopped, hthrow⟩
        · rw [← hpop u, after_of_error hpopped]
        · cases hthrow
          exact journal_of_popLocal hpopped
      rw [hend]
      exact h.part hm

end Session

namespace Checker

open Session

variable {ι μ : Type} [DecidableEq ι] (c : Checker ι μ)

/-- The use of a hook is entered when it begins and when it is settled, with deeds between. -/
theorem raise_unfolds (call : HookCall Occurrence CheckedType) :
    Unfolds (c.raise call) (Exchange call) := by
  refine Unfolds.get_bind fun s => ?_
  have hdispatch := Unfolds.ofWrites (c.deed_dispatch call) call.neutral
  refine ((unfolds_record (.raised call s.registry)).bind fun _ => hdispatch.bind fun answer =>
    (unfolds_record (.settled call answer)).bind fun _ => unfolds_pure answer).mono ?_
  rintro _ _ ⟨_, _, _, rfl, rfl, answer, during, _, rfl, hduring, _, _, _, rfl, rfl, rfl, rfl⟩
  exact .mk s.registry hduring

/-- A closure is asked for its extensions, who may do deeds, and then the answer is entered. -/
theorem localExtensionsFor_unfolds (closure : Occurrence) :
    Unfolds (c.localExtensionsFor closure) fun extensions events => ∃ during,
      (∀ e ∈ during, e.isDeed) ∧ events = during ++ [.brought closure extensions] := by
  rw [localExtensionsFor_eq]
  refine ((Unfolds.ofWrites (c.deed_provided closure) []).bind fun extensions =>
    (unfolds_record (.brought closure extensions)).bind fun _ => unfolds_pure extensions).mono ?_
  rintro _ _ ⟨extensions, during, _, rfl, hduring, _, _, _, rfl, rfl, rfl, rfl⟩
  exact ⟨during, hduring, rfl⟩

end Checker

end ExtensibleCheck
