import ExtensibleCheck.Proofs.Walk.Hooks
import ExtensibleCheck.Proofs.Walk.Marks
import ExtensibleCheck.Proofs.Walk.Typing

/-! The methods that are selected for calls. Everybody is told of a selection once it has been made, at
most once for each call, and what counts as the method of a call at any moment is the one that was told.
Only calls that the walk reaches and nobody takes over ever get one. -/

namespace ExtensibleCheck

open Occurrence

section

variable {ι : Type} {events : List (Event ι)} {call : Occurrence} {target : Candidate CheckedType}

theorem getLast?_filterMap_of_rest {α β : Type} {f : α → Option β} {past rest : List α} {a : α} {b : β}
    (h : f a = some b) (hrest : ∀ a ∈ rest, f a = none) :
    ((past ++ a :: rest).filterMap f).getLast? = some b := by
  rw [List.filterMap_append, List.filterMap_cons_some h, List.filterMap_eq_nil_iff.mpr hrest,
    List.getLast?_append, List.getLast?_singleton, Option.some_or]

/-- Where a selection is told of only once for each call, the last one told of is the one. -/
theorem lastTarget_eq_some_iff (h : (marks events).Nodup) {id : NodeId} :
    lastTarget events id = some target ↔ ∃ call registry, call.id = id ∧
      .raised (.notify (.methodSelection call target)) registry ∈ events := by
  constructor
  · exact exists_told_of_lastTarget
  · rintro ⟨call, registry, rfl, hmem⟩
    obtain ⟨past, rest, rfl⟩ := List.append_of_mem hmem
    refine getLast?_filterMap_of_rest (if_pos rfl) fun e he => Option.eq_none_iff_forall_ne_some.mpr ?_
    intro target' htarget
    obtain ⟨call', registry', hid, rfl⟩ := Event.exists_of_target? htarget
    refine mark?_ne_of_nodup_marks h rfl (List.mem_append_right past he) ?_
    rw [Event.mark?, hid]

/-- Where a method with a return type was selected for a node, and since then no other one and nothing
stored, that type counts. -/
theorem lastTyping_of_selected {past since : List (Event ι)} {returned : CheckedType}
    (hreturns : target.returns = some returned)
    (hagain : ∀ call' target', .selected call' target' ∈ since → call'.id ≠ call.id)
    (hsince : ∀ e ∈ since, e.storing? call.id = none) :
    lastTyping (past ++ .selected call target :: since) call.id = some (some returned) := by
  have hhere : (Event.selected call target : Event ι).typing? call.id = some (some returned) := by
    show ((if call.id = call.id then target.returns else none).map some) = _
    rw [if_pos rfl, hreturns]
    rfl
  refine getLast?_filterMap_of_rest hhere fun e he => ?_
  rw [Event.typing?, hsince e he, Option.none_or, Option.map_eq_none_iff]
  cases e with
  | selected call' target' => rw [Event.selecting?, if_neg (hagain call' target' he)]
  | _ => rfl

/-- A selection is told of at once, and is the only one for the node. -/
theorem lastTyping_of_selection {past since : List (Event ι)} {registry : Registry ι (List ι)}
    {returned : CheckedType} (hreturns : target.returns = some returned)
    (h : (marks (past ++ .selected call target ::
      .raised (.notify (.methodSelection call target)) registry :: since)).Nodup)
    (hsince : ∀ e ∈ since, e.storing? call.id = none) :
    lastTyping (past ++ .selected call target ::
      .raised (.notify (.methodSelection call target)) registry :: since) call.id =
        some (some returned) := by
  refine lastTyping_of_selected hreturns (fun call' target' he hid => ?_) fun e he => ?_
  · exact mark?_ne_of_nodup_marks h rfl (List.mem_append_right past he) (by rw [Event.mark?, hid])
  · rcases List.mem_cons.mp he with rfl | he
    · rfl
    · exact hsince e he

/-- A method is only selected where the walk gets to, and nobody took the call over. -/
theorem Course.reaches_of_told {p : Program} {further : List (Event ι)}
    (h : Course p (events ++ further)) (hnumbers : (p.files.map (·.number)).Nodup)
    {registry : Registry ι (List ι)}
    (hmem : .raised (.notify (.methodSelection call target)) registry ∈ events) :
    p.Reaches events call ∧ call.isCall ∧ ¬ call.TakenOver events ∧
      ∀ a ∈ call.ancestors, a.isEntered ∧ ¬ a.TakenOver events := by
  obtain ⟨past, rest, hsplit⟩ := List.append_of_mem hmem
  have hconsistent := h.consistent hnumbers fun e (he : e ∈ events) => List.mem_append_left further he
  have hlonger : events ++ further = past ++
      .raised (.notify (.methodSelection call target)) registry :: (rest ++ further) := by
    rw [hsplit, List.append_assoc, List.cons_append]
  rcases h.exists_piece hconsistent hlonger with
    hambient | ⟨n, _, first, last, _, -, -, hreaches, hpiece⟩
  · cases hambient
  obtain ⟨rfl, hkind, hfree⟩ := hpiece.call_of_resolves
    (mem_raisedIn.mpr ⟨registry, List.mem_append_right first List.mem_cons_self⟩) .selection
  exact ⟨hreaches, hkind, hfree, fun a ha => hreaches.ancestors ha⟩

end

open Run Session SessionState

namespace Checker

variable {ι μ : Type} [DecidableEq ι] (c : Checker ι μ)

/-- Whatever the program, the extensions and their answers, and however the check ends: a call has a
method if and only if everybody was told of it or is being told, which happens for one method of each
call at most. From then on that method is what extensions get who ask for it, and its return type is the
type of the call, unless an extension stores another. No call has one that was taken over, or that
stands within something that was taken over or is not entered. -/
theorem check_selections (p : Program) (memory : μ) (hnumbers : (p.files.map (·.number)).Nodup) :
    let s := (c.check p).after { memory }
    let journal := s.journal.toList
    (∀ id target, s.targets.get? id = some target ↔ ∃ call registry, call.id = id ∧
      .raised (.notify (.methodSelection call target)) registry ∈ journal) ∧
    (∀ past call target registry rest,
      journal = past ++ .raised (.notify (.methodSelection call target)) registry :: rest →
      ∀ call' target' registry', call'.id = call.id →
        .raised (.notify (.methodSelection call' target')) registry' ∉ past ++ rest) ∧
    (∀ past asked found rest, journal = past ++ .recalled asked found :: rest →
      ∀ target, found = some target ↔ ∃ call registry, call.id = asked.id ∧
        .raised (.notify (.methodSelection call target)) registry ∈ past) ∧
    (∀ past call target registry since o type rest,
      journal = past ++ .raised (.notify (.methodSelection call target)) registry :: since ++
        .lookedUp o type :: rest →
      o.id = call.id → (∀ e ∈ since, e.storing? call.id = none) →
      ∀ returned, target.returns = some returned → type = returned) ∧
    (∀ call target registry, .raised (.notify (.methodSelection call target)) registry ∈ journal →
      p.Reaches journal call ∧ call.isCall ∧ ¬ call.TakenOver journal ∧
        ∀ a ∈ call.ancestors, a.isEntered ∧ ¬ a.TakenOver journal) ∧
    ∀ result, c.check p { memory } = .ok (.ok result) s → result.selectedMethods = s.targets := by
  have htyped := c.typed_check p memory
  obtain ⟨further, hcourse, -⟩ := c.check_course p memory
  generalize (c.check p).after { memory } = s at htyped hcourse ⊢
  have hall : (marks (s.journal.toList ++ further)).Nodup := hcourse.nodup_marks hnumbers
  have hmarks : (marks s.journal.toList).Nodup := by
    rw [marks_append] at hall
    exact (List.nodup_append.mp hall).1
  have hbeginning {past rest : List (Event ι)} (hsplit : s.journal.toList = past ++ rest) :
      (marks past).Nodup := by
    rw [hsplit, marks_append] at hmarks
    exact (List.nodup_append.mp hmarks).1
  refine ⟨fun id target => ?_, fun past call target registry rest hsplit => ?_,
    fun past asked found rest hsplit target => ?_,
    fun past call target registry since o type rest hsplit ho hsince returned hreturns => ?_,
    fun call target registry hmem => hcourse.reaches_of_told hnumbers hmem, fun result hrun => ?_⟩
  · rw [htyped.targets]
    exact lastTarget_eq_some_iff hmarks
  · intro call' target' registry' hid hmem
    rw [hsplit] at hmarks
    refine mark?_ne_of_nodup_marks hmarks rfl hmem ?_
    rw [Event.mark?, hid]
  · obtain rfl : found = lastTarget past asked.id := htyped.follows hsplit
    exact lastTarget_eq_some_iff (hbeginning hsplit)
  · have htold := hsplit
    rw [List.append_assoc, List.cons_append] at htold
    obtain ⟨before, rfl⟩ := htyped.follows htold
    have hpast := hbeginning hsplit
    rw [htyped.lookups hsplit, ho]
    rw [List.append_assoc, List.singleton_append] at hpast ⊢
    rw [lastTyping_of_selection hreturns hpast hsince]
    rfl
  · have hverdict := c.eq_verdict_of_check hrun
    rw [verdict] at hverdict
    split at hverdict
    · cases hverdict
    · cases hverdict
      rfl

end Checker

/-- The one call has the method that was told of at last. -/
theorem check_selections_typesCallsAhead :
    let s := (typesCallsAhead.check resolvedCall).after { memory := () }
    (resolvedCall.files.map (·.number)).Nodup ∧ (s.targets.get? ⟨0, [0]⟩).isSome ∧
      ∀ id target, s.targets.get? id = some target ↔ ∃ call registry, call.id = id ∧
        .raised (.notify (.methodSelection call target)) registry ∈ s.journal.toList := by
  have hnumbers : (resolvedCall.files.map (·.number)).Nodup := by decide
  exact ⟨hnumbers, by decide +kernel, (typesCallsAhead.check_selections resolvedCall () hnumbers).1⟩

end ExtensibleCheck
