import ExtensibleCheck.Proofs.Session.Broadcast
import ExtensibleCheck.Proofs.Session.Entries

/-! What comes of a dispatch. The journal tells who was consulted meanwhile, and whoever was consulted
came to an answer by its own code. A question is answered with yes as soon as somebody does, candidates
are supplied by those who were asked for them, and what is printed tells no more than that. -/

namespace ExtensibleCheck

variable {ι μ : Type}

/-- The line that was printed, if the event is that. -/
def Event.line? : Event ι → Option String
  | printed line => some line
  | _ => none

/-- The lines that were printed in the course of some events. -/
def printedLines (events : List (Event ι)) : List String := events.filterMap Event.line?

/-- Who was consulted in the course of some events, and on what. -/
def consultations (events : List (Event ι)) : List (ι × HookCall Occurrence CheckedType) :=
  events.filterMap Event.consultation?

theorem Event.line?_of_isRequest {e : Event ι} (h : e.isRequest) : e.line? = none := by
  cases e with
  | printed => cases h
  | _ => rfl

theorem Event.consultation?_of_isRequest {e : Event ι} (h : e.isRequest) : e.consultation? = none := by
  cases e with
  | consulted => cases h
  | _ => rfl

theorem printedLines_append (events events' : List (Event ι)) :
    printedLines (events ++ events') = printedLines events ++ printedLines events' :=
  List.filterMap_append

theorem consultations_append (events events' : List (Event ι)) :
    consultations (events ++ events') = consultations events ++ consultations events' :=
  List.filterMap_append

section

variable {e : ι} {use : HookCall Occurrence CheckedType} {own : List (Event ι)}
  (h : ∀ event ∈ own, event.isRequest)

include h

/-- What code of an extension does prints nothing. -/
theorem printedLines_consulted : printedLines (.consulted e use :: own) = [] :=
  List.filterMap_eq_nil_iff.mpr fun event hevent => (List.mem_cons.mp hevent).elim
    (fun hfirst => hfirst ▸ rfl) fun hown => Event.line?_of_isRequest (h event hown)

/-- Nor does it have anybody consulted. -/
theorem consultations_consulted : consultations (.consulted e use :: own) = [(e, use)] := by
  have hown : own.filterMap Event.consultation? = [] :=
    List.filterMap_eq_nil_iff.mpr fun event hevent => Event.consultation?_of_isRequest (h event hevent)
  show (e, use) :: own.filterMap Event.consultation? = _
  rw [hown]

end

open Run Session SessionState

namespace Checker

variable [DecidableEq ι] (c : Checker ι μ)

/-- As the journal tells, an extension was consulted on something, and its code has just come to an
answer. -/
def Gives (journal : List (Event ι)) (e : ι) (use : HookCall Occurrence CheckedType)
    (answer : use.Answer) : Prop :=
  ∃ (past : List (Event ι)) (s t : SessionState ι μ), s.journal.toList = past ++ [.consulted e use] ∧
    (c.behaviour e use).run serve s = .ok answer t ∧ t.journal.toList = journal

/-- It came to that answer some time ago. -/
def Gave (journal : List (Event ι)) (e : ι) (use : HookCall Occurrence CheckedType)
    (answer : use.Answer) : Prop :=
  ∃ before, c.Gives before e use answer ∧ before <+: journal

/-- What is printed in the course of a dispatch. If a question is answered with yes, this is one line,
which names the extension that was consulted last and has just done so. When everybody was told that the
check begins or ends, this is one line with the number of extensions that were. -/
def Says (journal during : List (Event ι)) : (call : HookCall Occurrence CheckedType) → call.Answer → Prop
  | .ask question, true => ∃ e others before line,
      line = question.hook.name ++ " handled by " ++ (c.label e).describe ∧
      consultations during = others ++ [(e, .ask question)] ∧ c.Gives before e (.ask question) true ∧
      journal = before ++ [.printed line] ∧ printedLines during = [line]
  | .notify notice, _ => (∀ told ∈ consultations during, told.2 = .notify notice) ∧
      printedLines during = (Dispatcher.summary? (consultations during).length notice).toList
  | _, _ => printedLines during = []

variable {c} {s t : SessionState ι μ}

theorem Gave.mono {journal journal' : List (Event ι)} {e : ι} {use : HookCall Occurrence CheckedType}
    {answer : use.Answer} (h : c.Gave journal e use answer) (hlater : journal <+: journal') :
    c.Gave journal' e use answer := by
  obtain ⟨before, hgives, hbefore⟩ := h
  exact ⟨before, hgives, hbefore.trans hlater⟩

theorem Gives.gave {journal : List (Event ι)} {e : ι} {use : HookCall Occurrence CheckedType}
    {answer : use.Answer} (h : c.Gives journal e use answer) : c.Gave journal e use answer :=
  ⟨journal, h, List.prefix_rfl⟩

/-- A consultation that comes to an answer is entered together with what the extension does. -/
theorem invoke_heard {e : ι} {use : HookCall Occurrence CheckedType} {answer : use.Answer}
    (h : c.invoke e use s = .ok answer t) : c.Gives t.journal.toList e use answer ∧
      ∃ own, (∀ event ∈ own, event.isRequest) ∧
        t.journal.toList = s.journal.toList ++ .consulted e use :: own := by
  have hrun : (c.behaviour e use).run serve (s.record (.consulted e use)) = .ok answer t := h
  have hbegun := s.journal_record (.consulted e use)
  obtain ⟨own, hjournal, hown⟩ :=
    (requests_run (c.behaviour e use)).state (s.record (.consulted e use))
  rw [after_of_ok hrun, hbegun, List.append_assoc] at hjournal
  exact ⟨⟨_, _, t, hbegun, hrun, rfl⟩, own, hown, hjournal⟩

/-- When an extension is consulted, this is entered, and whatever the extension asks for. -/
theorem writes_invoke {P : Event ι → Prop} {e : ι} {use : HookCall Occurrence CheckedType}
    (hconsulted : P (.consulted e use)) (hown : ∀ event : Event ι, event.isRequest → P event) :
    Writes P (c.invoke e use) := by
  have hrun : Writes P ((c.behaviour e use).run serve : Session ι μ use.Answer) :=
    (requests_run _).mono (fun hwrote => hwrote.mono hown) id
  exact (writes_record hconsulted).bind fun _ => hrun

theorem unsaid_invoke (e : ι) (use : HookCall Occurrence CheckedType) :
    Writes (fun event => event.line? = none) (c.invoke e use) :=
  writes_invoke rfl fun _ => Event.line?_of_isRequest

/-- The extensions that supply candidates do so when they are asked for them, and whoever left out the
owner gets `Object`. -/
theorem contribute_gave {missing : MissingMethod Occurrence CheckedType}
    {found : List (Candidate CheckedType)} (h : c.dispatcher.contribute missing s = .ok found t) :
    ∀ candidate ∈ found, ∃ e contributed, ∃ d ∈ contributed,
      c.Gave t.journal.toList e (.contribute missing) contributed ∧ candidate = d.owned := by
  refine Dispatcher.consult_result
    (I := fun found (u : SessionState ι μ) => ∀ candidate ∈ found, ∃ e contributed, ∃ d ∈ contributed,
      c.Gave u.journal.toList e (.contribute missing) contributed ∧ candidate = d.owned)
    (fun {found e u found' u'} hfound hstep => ?_) (fun _ hstep => ?_) id (List.forall_mem_nil _) h
  · obtain ⟨contributed, r, hinvoke, hgo⟩ := bind_eq_ok_iff.mp hstep
    cases hgo
    obtain ⟨hgives, own, -, hjournal⟩ := invoke_heard hinvoke
    intro candidate hcandidate
    rcases List.mem_append.mp hcandidate with hold | hnew
    · obtain ⟨e', contributed', d, hd, hgave', hsame⟩ := hfound candidate hold
      exact ⟨e', contributed', d, hd, hgave'.mono ⟨_, hjournal.symm⟩, hsame⟩
    · obtain ⟨d, hd, hsame⟩ := List.mem_map.mp hnew
      exact ⟨e, contributed, d, hd, hgives.gave, hsame.symm⟩
  · obtain ⟨_, _, _, hgo⟩ := bind_eq_ok_iff.mp hstep
    cases hgo

/-- What remains of several candidates is all of them, or what an extension left that had several to
choose from. -/
theorem narrow_gave {candidates left : List (Candidate CheckedType)} {origin : Occurrence}
    (h : c.dispatcher.narrow candidates origin s = .ok left t) :
    left = candidates ∨ ∃ e offered, 1 < offered.length ∧
      c.Gave t.journal.toList e (.narrow offered origin) left := by
  refine Dispatcher.consult_result
    (I := fun left (u : SessionState ι μ) => left = candidates ∨ ∃ e offered, 1 < offered.length ∧
      c.Gave u.journal.toList e (.narrow offered origin) left)
    (fun {offered e u left u'} _ hstep => ?_) (fun {left e u left' u'} hleft hstep => ?_) id (.inl rfl) h
  · by_cases hshort : offered.length ≤ 1
    · rw [if_pos hshort] at hstep
      cases hstep
    · rw [if_neg hshort] at hstep
      obtain ⟨answer, r, hinvoke, hgo⟩ := bind_eq_ok_iff.mp hstep
      cases hgo
      exact .inr ⟨e, offered, Nat.lt_of_not_le hshort, (invoke_heard hinvoke).1.gave⟩
  · by_cases hshort : left.length ≤ 1
    · rw [if_pos hshort] at hstep
      cases hstep
      exact hleft
    · rw [if_neg hshort] at hstep
      obtain ⟨_, _, _, hgo⟩ := bind_eq_ok_iff.mp hstep
      cases hgo

/-- Those who are told are consulted, once each, and counted. -/
theorem tell_heard {notice : Notice Occurrence CheckedType} {count : Nat}
    (h : c.dispatcher.consultAll 0 (c.tell notice) s = .ok count t) : ∃ during,
      t.journal.toList = s.journal.toList ++ during ∧ count = (consultations during).length ∧
        (∀ told ∈ consultations during, told.2 = .notify notice) ∧ printedLines during = [] := by
  refine Dispatcher.consult_result
    (I := fun count (u : SessionState ι μ) => ∃ during,
      u.journal.toList = s.journal.toList ++ during ∧ count = (consultations during).length ∧
        (∀ told ∈ consultations during, told.2 = .notify notice) ∧ printedLines during = [])
    (fun {count e u _ u'} hI hstep => ?_) (fun _ hstep => ?_) id
    ⟨[], (List.append_nil _).symm, rfl, List.forall_mem_nil _, rfl⟩ h
  · obtain ⟨during, hduring, rfl, htold, hsilent⟩ := hI
    obtain ⟨_, r, hinvoke, hgo⟩ := bind_eq_ok_iff.mp hstep
    cases hgo
    obtain ⟨-, own, hown, hr⟩ := invoke_heard hinvoke
    rw [hduring, List.append_assoc] at hr
    have hconsulted : consultations (during ++ .consulted e (.notify notice) :: own) =
        consultations during ++ [(e, .notify notice)] := by
      rw [consultations_append, consultations_consulted hown]
    refine ⟨_, hr, ?_, ?_, ?_⟩
    · rw [hconsulted, List.length_append, List.length_singleton]
    · rw [hconsulted]
      exact List.forall_mem_append.mpr ⟨htold, List.forall_mem_singleton.mpr rfl⟩
    · rw [printedLines_append, hsilent, printedLines_consulted hown, List.append_nil]
  · obtain ⟨_, _, _, hgo⟩ := bind_eq_ok_iff.mp hstep
    cases hgo

section

variable (hverbose : c.verbose = true)

include hverbose

/-- A line that is said is printed. -/
theorem say_heard {line : String} (h : c.dispatcher.say line s = .ok () t) :
    t.journal.toList = s.journal.toList ++ [.printed line] := by
  replace h : (if c.verbose then print line else pure () : Session ι μ Unit) s = .ok () t := h
  rw [if_pos hverbose] at h
  cases h
  exact s.journal_record (.printed line)

theorem says_ask {question : Question Occurrence CheckedType} {handled : Bool}
    (h : c.dispatcher.ask question s = .ok handled t) : ∃ during,
      t.journal.toList = s.journal.toList ++ during ∧
        c.Says t.journal.toList during (.ask question) handled := by
  -- As long as the traversal goes on, nobody has taken care, and nothing was printed.
  refine Dispatcher.consult_result
    (I := fun handled (u : SessionState ι μ) => handled = false ∧ ∃ during,
      u.journal.toList = s.journal.toList ++ during ∧ printedLines during = [])
    (J := fun handled (u : SessionState ι μ) => ∃ during,
      u.journal.toList = s.journal.toList ++ during ∧
        c.Says u.journal.toList during (.ask question) handled)
    (fun {_ e u _ u'} hI hstep => ?_) (fun {_ e u handled u'} hI hstep => ?_)
    (fun hI => hI.1 ▸ hI.2) ⟨rfl, [], (List.append_nil _).symm, rfl⟩ h
  all_goals
    obtain ⟨-, during, hduring, hsilent⟩ := hI
    obtain ⟨answer, r, hinvoke, hstep⟩ := bind_eq_ok_iff.mp hstep
    obtain ⟨hgives, own, hown, hr⟩ := invoke_heard hinvoke
  · cases answer with
    | true =>
        obtain ⟨_, _, _, hstop⟩ := bind_eq_ok_iff.mp hstep
        cases hstop
    | false =>
        cases hstep
        rw [hduring, List.append_assoc] at hr
        refine ⟨rfl, _, hr, ?_⟩
        rw [printedLines_append, hsilent, printedLines_consulted hown, List.append_nil]
  · cases answer with
    | false => cases hstep
    | true =>
        obtain ⟨_, r', hsay, hstop⟩ := bind_eq_ok_iff.mp hstep
        cases hstop
        have hend := say_heard hverbose hsay
        have hwhole := hend
        rw [hr, hduring, List.append_assoc, List.append_assoc] at hwhole
        refine ⟨_, hwhole, e, consultations during, _, _, rfl, ?_, hgives, hend, ?_⟩
        · rw [consultations_append, consultations_append, consultations_consulted hown]
          rfl
        · rw [printedLines_append, printedLines_append, hsilent, printedLines_consulted hown]
          rfl

theorem says_notify {notice : Notice Occurrence CheckedType}
    (h : c.dispatcher.notify notice s = .ok () t) : ∃ during,
      t.journal.toList = s.journal.toList ++ during ∧
        c.Says t.journal.toList during (.notify notice) () := by
  obtain ⟨count, r, hall, hsummary⟩ := bind_eq_ok_iff.mp h
  obtain ⟨during, hr, hcount, htold, hsilent⟩ := tell_heard hall
  cases hline : Dispatcher.summary? count notice with
  | none =>
      rw [hline] at hsummary
      cases hsummary
      refine ⟨during, hr, htold, ?_⟩
      rw [← hcount, hline, hsilent, Option.toList_none]
  | some line =>
      rw [hline] at hsummary
      have hend := say_heard hverbose hsummary
      rw [hr, List.append_assoc] at hend
      have hsame : consultations (during ++ [.printed line]) = consultations during := by
        rw [consultations_append]
        exact List.append_nil _
      refine ⟨_, hend, ?_, ?_⟩
      · rwa [hsame]
      · rw [hsame, ← hcount, hline, printedLines_append, hsilent]
        rfl

end

/-- Nothing is printed about candidates. -/
theorem narrow_unsaid (candidates : List (Candidate CheckedType)) (origin : Occurrence) :
    Writes (fun e => e.line? = none) (c.dispatcher.narrow candidates origin) :=
  Dispatcher.keeps_consult (fun _ e => Keeps.ite (Keeps.pure _)
    ((unsaid_invoke e _).bind fun _ => Keeps.pure _)) trivial _ _ _

theorem contribute_unsaid (missing : MissingMethod Occurrence CheckedType) :
    Writes (fun e => e.line? = none) (c.dispatcher.contribute missing) :=
  Dispatcher.keeps_consult (fun _ e => (unsaid_invoke e _).bind fun _ => Keeps.pure _) trivial _ _ _

/-- In a talkative session the lines that are printed tell what came of each dispatch. -/
theorem says_dispatch (hverbose : c.verbose = true) {call : HookCall Occurrence CheckedType}
    {answer : call.Answer} (h : c.dispatcher.dispatch call s = .ok answer t) : ∃ during,
      t.journal.toList = s.journal.toList ++ during ∧ c.Says t.journal.toList during call answer := by
  have hunsaid {m : Session ι μ call.Answer} (hm : Writes (fun e => e.line? = none) m)
      (h : m s = .ok answer t) :
      ∃ during, t.journal.toList = s.journal.toList ++ during ∧ printedLines during = [] := by
    obtain ⟨during, hduring, hsilent⟩ := hm.state s
    rw [after_of_ok h] at hduring
    exact ⟨during, hduring, List.filterMap_eq_nil_iff.mpr hsilent⟩
  cases call with
  | ask question => exact says_ask hverbose h
  | narrow candidates origin => exact hunsaid (narrow_unsaid candidates origin) h
  | contribute missing => exact hunsaid (contribute_unsaid missing) h
  | notify notice => exact says_notify hverbose h

end Checker

end ExtensibleCheck
