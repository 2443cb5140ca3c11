import ExtensibleCheck.Proofs.Walk.Reach

/-! Which hooks the walk uses at a node, in order: one when it opens the node, and when it closes the
node one for a mistake, or those that resolve a call, and one to take leave. -/

namespace ExtensibleCheck

section

variable {ι : Type} {events : List (Event ι)} {o : Occurrence}

def Event.raised? : Event ι → Option (HookCall Occurrence CheckedType)
  | raised call _ => some call
  | _ => none

/-- The uses of hooks that began, in order. -/
def raisedIn (events : List (Event ι)) : List (HookCall Occurrence CheckedType) :=
  events.filterMap Event.raised?

theorem raisedIn_append (events rest : List (Event ι)) :
    raisedIn (events ++ rest) = raisedIn events ++ raisedIn rest :=
  List.filterMap_append

theorem mem_raisedIn {call : HookCall Occurrence CheckedType} :
    call ∈ raisedIn events ↔ ∃ registry, .raised call registry ∈ events := by
  rw [raisedIn, List.mem_filterMap]
  constructor
  · rintro ⟨e, he, hcall⟩
    cases e with
    | raised _ registry =>
        cases hcall
        exact ⟨registry, he⟩
    | _ => cases hcall
  · rintro ⟨registry, he⟩
    exact ⟨_, he, rfl⟩

/-- Where the use of a hook begins only once, two ways to part a list there are the same. -/
theorem eq_of_raised_once {first last ahead rest : List (Event ι)}
    {use use' : HookCall Occurrence CheckedType} {registry registry' : Registry ι (List ι)}
    (h : first ++ .raised use registry :: last = ahead ++ .raised use' registry' :: rest)
    (hahead : use ∉ raisedIn ahead) (hrest : use ∉ raisedIn rest) :
    first = ahead ∧ use = use' ∧ last = rest := by
  have hnone {list : List (Event ι)} (hlist : use ∉ raisedIn list) : .raised use registry ∉ list :=
    fun hmem => hlist (mem_raisedIn.mpr ⟨registry, hmem⟩)
  obtain ⟨hfirst, hsame, hlast⟩ :=
    (List.append_cons_inj_of_notMem (hnone hahead) (hnone hrest)).mp h.symm
  cases hsame
  exact ⟨hfirst.symm, rfl, hlast.symm⟩

theorem Event.raised?_of_isDeed (e : Event ι) (h : e.isDeed) : e.raised? = none := by
  cases e <;> first | rfl | cases h

/-- The use of a hook begins at once, and no other begins until it is settled. -/
theorem Exchange.begins {call : HookCall Occurrence CheckedType} {answer : call.Answer}
    (h : Exchange call answer events) : ∃ registry rest, events = .raised call registry :: rest ∧
      raisedIn rest = [] := by
  obtain ⟨registry, hduring⟩ := h
  refine ⟨registry, _, rfl, ?_⟩
  rw [raisedIn_append, raisedIn, filterMap_deeds Event.raised?_of_isDeed hduring]
  rfl

theorem Offered.begins {question : Question Occurrence CheckedType} {code : Code} {message : String}
    {place : Occurrence} (h : Offered question code message place events) : ∃ registry rest,
      events = .raised (.ask question) registry :: rest ∧ raisedIn rest = [] := by
  cases h with
  | handled h => exact h.begins
  | unhandled h =>
      obtain ⟨registry, rest, rfl, hrest⟩ := h.begins
      refine ⟨registry, _, List.cons_append, ?_⟩
      rw [raisedIn_append, hrest]
      rfl

theorem Exchange.raised {call : HookCall Occurrence CheckedType} {answer : call.Answer}
    (h : Exchange call answer events) : raisedIn events = [call] := by
  obtain ⟨registry, rest, rfl, hrest⟩ := h.begins
  exact congrArg (call :: ·) hrest

theorem Offered.raised {question : Question Occurrence CheckedType} {code : Code} {message : String}
    {place : Occurrence} (h : Offered question code message place events) :
    raisedIn events = [.ask question] := by
  obtain ⟨registry, rest, rfl, hrest⟩ := h.begins
  exact congrArg (HookCall.ask question :: ·) hrest

theorem VariableCheck.raised (h : VariableCheck o events) :
    raisedIn events = [] ∨ raisedIn events = [.ask (.unresolvedVariable o)] := by
  cases h with
  | unread | known => exact Or.inl rfl
  | unknown _ _ hoffered => exact Or.inr hoffered.raised

theorem VariableCheck.eq_of_raised (h : VariableCheck o events) {use : HookCall Occurrence CheckedType}
    (huse : use ∈ raisedIn events) : use = .ask (.unresolvedVariable o) := by
  obtain h | h := h.raised <;> rw [h] at huse
  · exact nomatch huse
  · exact List.mem_singleton.mp huse

theorem raisedIn_probing (matter : Matter) : raisedIn (matter.probing (ι := ι) o) = [] := by
  rw [Matter.probing]
  split <;> rfl

theorem Remark.raised (h : Remark o events) :
    raisedIn events = [] ∨ ∃ question, Mistaken o question ∧ raisedIn events = [.ask question] := by
  cases h with
  | nothing => exact Or.inl rfl
  | @inquiry matter events hmatter h =>
      cases h with
      | spared | vouched => exact Or.inl rfl
      | settled =>
          left
          rw [raisedIn_append, raisedIn_probing]
          rfl
      | @offered type _ _ rest hstands _ hoffered =>
          refine Or.inr ⟨_, mistaken_of_matter? hmatter hstands.arises type, ?_⟩
          rw [raisedIn_append, raisedIn_probing, List.nil_append]
          exact hoffered.raised

/-- Whether a hook is used to resolve a call. -/
inductive Resolves (o : Occurrence) : HookCall Occurrence CheckedType → Prop
  | missing {receiver name arguments types} :
      Resolves o (.contribute ⟨receiver, name, arguments, types, o⟩)
  | ambiguous {candidates} : Resolves o (.narrow candidates o)
  | selection {target} : Resolves o (.notify (.methodSelection o target))

/-- The hooks that resolve a call, each of which may be left out. -/
inductive Resolving (o : Occurrence) : List (HookCall Occurrence CheckedType) → Prop
  | compiled {selecting} : (selecting = [] ∨ ∃ target, selecting = [.notify (.methodSelection o target)]) →
      Resolving o selecting
  | supplied {receiver name arguments types narrowing selecting} :
      (narrowing = [] ∨ ∃ candidates, narrowing = [.narrow candidates o]) →
      (selecting = [] ∨ ∃ target, selecting = [.notify (.methodSelection o target)]) →
      Resolving o (.contribute ⟨receiver, name, arguments, types, o⟩ :: (narrowing ++ selecting))

theorem Resolving.resolves {calls : List (HookCall Occurrence CheckedType)} (h : Resolving o calls)
    {call : HookCall Occurrence CheckedType} (hcall : call ∈ calls) : Resolves o call := by
  have hselecting {selecting : List (HookCall Occurrence CheckedType)}
      (h : selecting = [] ∨ ∃ target, selecting = [.notify (.methodSelection o target)])
      (hcall : call ∈ selecting) : Resolves o call := by
    obtain rfl | ⟨target, rfl⟩ := h
    · exact nomatch hcall
    · exact List.mem_singleton.mp hcall ▸ .selection
  cases h with
  | compiled h => exact hselecting h hcall
  | supplied hnarrowing h =>
      rcases List.mem_cons.mp hcall with rfl | hcall
      · exact .missing
      rcases List.mem_append.mp hcall with hcall | hcall
      · obtain rfl | ⟨candidates, rfl⟩ := hnarrowing
        · exact nomatch hcall
        · exact List.mem_singleton.mp hcall ▸ .ambiguous
      · exact hselecting h hcall

theorem Selecting.raised {target : Candidate CheckedType} (h : Selecting o target events) :
    raisedIn events = [.notify (.methodSelection o target)] := by
  obtain ⟨h⟩ := h
  exact h.raised

theorem Choosing.raised {name : Occurrence} {receiver : CheckedType} {types : List CheckedType}
    {candidates : List (Candidate CheckedType)} (h : Choosing o name receiver types candidates events) :
    raisedIn events = [] ∨ ∃ target, raisedIn events = [.notify (.methodSelection o target)] := by
  cases h with
  | none | many => exact Or.inl rfl
  | one h => exact Or.inr ⟨_, h.raised⟩

theorem Narrowing.raised {found chosen : List (Candidate CheckedType)}
    (h : Narrowing o found chosen events) :
    raisedIn events = [] ∨ ∃ candidates, raisedIn events = [.narrow candidates o] := by
  cases h with
  | several _ h => exact Or.inr ⟨found, h.raised⟩
  | few => exact Or.inl rfl

theorem Resolution.raised (h : Resolution o events) : Resolving o (raisedIn events) := by
  cases h with
  | compiled _ h =>
      refine .compiled (h.imp ?_ ?_)
      · rintro rfl
        rfl
      · rintro ⟨target, h⟩
        exact ⟨target, h.raised⟩
  | unchecked => exact .compiled (Or.inl rfl)
  | @supplied object name receiver types found chosen contributing narrowing choosing _ _ _ _
      hcontributing hnarrowing hchoosing =>
      rw [raisedIn, filterMap_supplied Event.raised?_of_isDeed]
      show Resolving o (raisedIn contributing ++ raisedIn narrowing ++ raisedIn choosing)
      rw [hcontributing.raised, List.append_assoc, List.singleton_append]
      exact .supplied hnarrowing.raised hchoosing.raised

theorem Opening.raised {enters : Bool} (h : Opening o enters events) :
    raisedIn events = [] ∨ ∃ before after, o.announcement? = some (before, after) ∧
      raisedIn events = [.ask before] := by
  cases h with
  | plain => exact Or.inl rfl
  | closure _ hduring =>
      left
      rw [raisedIn_append, raisedIn, filterMap_deeds Event.raised?_of_isDeed hduring]
      rfl
  | announced hannounced hasked => exact Or.inr ⟨_, _, hannounced, hasked.raised⟩

theorem Opening.eq_of_raised {enters : Bool} (h : Opening o enters events)
    {use : HookCall Occurrence CheckedType} (huse : use ∈ raisedIn events) :
    ∃ before after, o.announcement? = some (before, after) ∧ use = .ask before := by
  obtain h | ⟨before, after, hannounced, h⟩ := h.raised <;> rw [h] at huse
  · exact nomatch huse
  · exact ⟨before, after, hannounced, List.mem_singleton.mp huse⟩

/-- The hooks that are used when a node is closed. -/
inductive Leaving (o : Occurrence) : List (HookCall Occurrence CheckedType) → Prop
  | silent : Leaving o []
  | mistaken {question} : o.announcement? = none → Mistaken o question → Leaving o [.ask question]
  | announced {before after resolving} : o.announcement? = some (before, after) →
      (resolving = [] ∨ o.isCall ∧ Resolving o resolving) →
      Leaving o (resolving ++ [.notify after])

theorem Leaving.cases {calls : List (HookCall Occurrence CheckedType)} (h : Leaving o calls)
    {call : HookCall Occurrence CheckedType} (hcall : call ∈ calls) :
    (∃ question, call = .ask question ∧ Mistaken o question) ∨ (o.isCall ∧ Resolves o call) ∨
      ∃ before after, o.announcement? = some (before, after) ∧ call = .notify after := by
  cases h with
  | silent => exact nomatch hcall
  | mistaken _ hmistaken => exact Or.inl ⟨_, List.mem_singleton.mp hcall, hmistaken⟩
  | announced hannounced hresolving =>
      rcases List.mem_append.mp hcall with hcall | hcall
      · obtain rfl | ⟨hkind, h⟩ := hresolving
        · exact nomatch hcall
        · exact Or.inr (Or.inl ⟨hkind, h.resolves hcall⟩)
      · exact Or.inr (Or.inr ⟨_, _, hannounced, List.mem_singleton.mp hcall⟩)

theorem Closing.raised {enters : Bool} (h : Closing o enters events) : Leaving o (raisedIn events) := by
  cases h with
  | plain hannounced h =>
      obtain h | ⟨question, hmistaken, h⟩ := h.raised <;> rw [h]
      · exact .silent
      · exact .mistaken hannounced hmistaken
  | @announced before after own told hannounced hown htold =>
      rw [raisedIn_append, htold.raised]
      refine .announced hannounced ?_
      split at hown
      · rename_i hcall
        exact Or.inr ⟨hcall, hown.raised⟩
      · exact Or.inl (hown ▸ rfl)
  | passed hannounced htold =>
      rw [htold.raised]
      exact Leaving.announced hannounced (Or.inl (rfl : [] = []))

/-- The hooks that resolve a call are used when that call is closed, and nobody took it over. -/
theorem Piece.call_of_resolves {journal : List (Event ι)} {call n : Occurrence}
    (h : Piece journal n events) {use : HookCall Occurrence CheckedType} (huse : use ∈ raisedIn events)
    (hresolves : Resolves call use) : n = call ∧ call.isCall ∧ ¬ call.TakenOver journal := by
  cases h with
  | «variable» _ hcheck =>
      cases hcheck.eq_of_raised huse
      cases hresolves
  | opening hopening =>
      obtain ⟨before, after, -, rfl⟩ := hopening.eq_of_raised huse
      cases hresolves
  | @closing enters _ _ hfree hclosing =>
      have hnotify {before : Question Occurrence CheckedType} {after : Notice Occurrence CheckedType}
          (hannounced : n.announcement? = some (before, after)) : ¬ Resolves call (.notify after) := by
        intro hresolves
        have hother := Occurrence.isSelection_of_announcement? hannounced
        cases hresolves
        cases hother
      cases enters with
      | true =>
          rcases hclosing.raised.cases huse with
            ⟨question, rfl, -⟩ | ⟨hkind, hown⟩ | ⟨before, after, hannounced, rfl⟩
          · cases hresolves
          · cases hown <;> cases hresolves <;> exact ⟨rfl, hkind, hfree rfl⟩
          · exact absurd hresolves (hnotify hannounced)
      | false =>
          cases hclosing with
          | passed hannounced htold =>
              rw [htold.raised] at huse
              cases List.mem_singleton.mp huse
              exact absurd hresolves (hnotify hannounced)

end

end ExtensibleCheck
