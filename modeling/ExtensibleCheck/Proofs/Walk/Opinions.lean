import ExtensibleCheck.Proofs.Registry.Insertion
import ExtensibleCheck.Proofs.Session.Answers
import ExtensibleCheck.Proofs.Session.Spared

/-! Extensions that only answer, in other company. Where nobody narrows or contributes candidates, the
order of the extensions makes no difference to a check. One more extension that takes care of some
mistakes makes those reports go away that the mistakes gave rise to, and no other difference: the types,
the selections and the other reports stay as they are. -/

namespace ExtensibleCheck

/-- That one of the runs was cut off. -/
def Excuse.cutOff {ι : Type} : Excuse ι := firstCutOff.or secondCutOff

open Run Session SessionState

namespace Checker

variable {ι μ : Type} [DecidableEq ι] {c : Checker ι μ} {answers : Answers ι Occurrence CheckedType}
  {G : Registry ι (List ι) → Registry ι (List ι) → Prop} {K : Account ι → Account ι → Prop}
  {E : Excuse ι} {call : HookCall Occurrence CheckedType} {s s' t t' : SessionState ι μ}

/-- The use of a hook that was answered by answers only, as it is entered. -/
structure Answered (call : HookCall Occurrence CheckedType) (answer : call.Answer)
    (events : List (Event ι)) : Prop where
  silent : ∀ e ∈ events, e.report? = none
  last : ∀ cause, lastCause cause events = (Event.settled (ι := ι) call answer).leavesUnhandled?

omit [DecidableEq ι] in
theorem Answered.ofMurmurs {answer : call.Answer} (registry : Registry ι (List ι))
    {during : List (Event ι)} (hduring : ∀ e ∈ during, e.isMurmur) :
    Answered call answer (.raised call registry :: (during ++ [.settled call answer])) := by
  refine ⟨fun e he => ?_, fun cause => ?_⟩
  · rcases List.mem_cons.mp he with rfl | he
    · rfl
    rcases List.mem_append.mp he with he | he
    · have hmurmur := hduring e he
      cases e with
      | consulted | printed => rfl
      | _ => cases hmurmur
    · cases List.mem_singleton.mp he
      rfl
  · rw [← List.cons_append]
    exact lastCause_concat _

/-- The use of a hook is cut off, or only entered into the journal. -/
theorem raise_answered (hpure : ∀ e call, c.behaviour e call = .done (answers e call))
    (call : HookCall Occurrence CheckedType) (s : SessionState ι μ) :
    let answer := agreed answers (s.registry.view (List.map some)) call
    (∃ t, c.raise call s = .error .exhausted t) ∨
      ∃ t events, c.raise call s = .ok answer t ∧ t = { s with journal := t.journal } ∧
        t.account = s.account.note events ∧ Answered call answer events := by
  rcases raise_answers hpure call s with hcutOff | ⟨t, during, hrun, hsame, hjournal, hduring⟩
  · exact .inl hcutOff
  · refine .inr ⟨t, _, hrun, hsame, ?_, .ofMurmurs s.registry hduring⟩
    rw [account, hjournal, hsame]
    rfl

variable {c' : Checker ι μ} (hpure : ∀ e call, c.behaviour e call = .done (answers e call))
  (hpure' : ∀ e call, c'.behaviour e call = .done (answers e call))

include hpure hpure' in
/-- The use of a hook goes abreast if it is answered alike and both accounts may enter it. -/
theorem raise_agreed (hE : ∀ {e e'}, Excuse.cutOff.holds e e' → E.holds e e')
    (hview : ∀ {r r'}, G r r' → agreed answers (r.view (List.map some)) call =
      agreed answers (r'.view (List.map some)) call)
    (hK : ∀ {a a' answer events events'}, K a a' → Answered call answer events →
      Answered call answer events' → K (a.note events) (a'.note events')) :
    Abreast E (Beside G K) Eq (c.raise call) (c'.raise call) := by
  refine ⟨c.grows_raise call, c'.grows_raise call, fun {s s'} h => ?_⟩
  rcases raise_answered hpure call s with ⟨t, hrun⟩ | ⟨t, events, hrun, hsame, haccount, hanswered⟩
  · rw [hrun]
    exact .inl (hE (.inl rfl))
  rcases raise_answered hpure' call s' with
    ⟨t', hrun'⟩ | ⟨t', events', hrun', hsame', haccount', hanswered'⟩
  · rw [hrun']
    exact .inl (hE (.inr rfl))
  have hanswer := hview h.registry
  rw [← hanswer] at hanswered'
  have hentry := hK h.account hanswered hanswered'
  rw [← haccount, ← haccount'] at hentry
  rw [hrun, hrun']
  exact .inr ⟨hanswer, h.since hsame hsame' hentry⟩

omit [DecidableEq ι] in
/-- A question about what an extension takes care of adds that to what the others do. -/
theorem agreed_ask_insert (x : ι) (front back : List ι) (question : Question Occurrence CheckedType) :
    agreed answers (front ++ x :: back) (.ask question) =
      (agreed answers (front ++ back) (.ask question) || answers x (.ask question)) := by
  show (front ++ x :: back).any _ = ((front ++ back).any _ || _)
  rw [List.any_append, List.any_append, List.any_cons, Bool.or_assoc]
  congr 1
  exact Bool.or_comm _ _

end Checker

/-- An extension that takes care of mistakes, if of anything. -/
structure CaresForMistakes {ι : Type} (answers : Answers ι Occurrence CheckedType) (x : ι) : Prop extends
    LeavesCandidates answers x where
  announced : ∀ question, question.mistake? = none → answers x (.ask question) = false

/-- What excuses two checks from going on alike of which the second one has one more extension: that this
is unregistered, or that one of the checks is cut off. -/
def Excuse.adding {ι : Type} (x : ι) : Excuse ι :=
  (Excuse.ofJournal (.unregistered x ∈ ·) fun h rest => List.mem_append_left rest h).or .cutOff

/-- Two sessions that are the same but for one more extension in the second one, which takes care of some
mistakes. -/
abbrev Relieved {ι μ : Type} (x : ι) (claims : Question Occurrence CheckedType → Bool) :
    SessionState ι μ → SessionState ι μ → Prop :=
  Beside (Registry.Gains x) fun a a' => a.Spared claims none a'.findings

namespace Session

variable {ι μ : Type} [DecidableEq ι] {x : ι} {claims : Question Occurrence CheckedType → Bool}

/-- Whatever an extension does goes abreast, or it unregisters the one that was added. -/
theorem serve_relieved (r : Request ι Occurrence CheckedType μ Empty) :
    Abreast (.adding x) (Relieved x claims) Eq (serve r) (serve r) := by
  refine serve_beside (admits_spared_deed claims) (fun extension _ _ h => h.addGlobal extension)
    (fun extension => ?_) r
  by_cases hsame : extension = x
  · refine ⟨(quiet_unregister _).grows, (quiet_unregister _).grows, fun {s s'} _ => ?_⟩
    have hentry : .unregistered x ∈ (s.journal.push (.unregistered extension)).toList := by
      simp [hsame]
    exact .inl (.inl hentry)
  · exact unregister_beside (admits_spared claims) rfl fun h => h.removeGlobal hsame

end Session

namespace Checker

variable {ι μ : Type} [DecidableEq ι] {c : Checker ι μ} {answers : Answers ι Occurrence CheckedType}
  {x : ι} {limit : Nat}

/-- What is offered goes abreast, together with the report that may come of it. -/
theorem offer_relieved {c' : Checker ι μ} (hpure : ∀ e call, c.behaviour e call = .done (answers e call))
    (hpure' : ∀ e call, c'.behaviour e call = .done (answers e call))
    {question : Question Occurrence CheckedType} {code : Code} {message : String} {place : Occurrence}
    (hmistake : question.mistake? = some (code, place)) :
    Abreast (.adding x) (Relieved (μ := μ) x fun question => answers x (.ask question)) Eq
      (do unless ← c.raise (.ask question) do report code message place)
      (do unless ← c'.raise (.ask question) do report code message place) := by
  have hgrows (c : Checker ι μ) :
      Grows (do unless ← c.raise (.ask question) do report code message place) :=
    (c.grows_raise _).bind fun handled => .ite (Keeps.pure ()) (quiet_report code message place).grows
  refine ⟨hgrows c, hgrows c', fun {s s'} h => ?_⟩
  rcases raise_answered hpure (.ask question) s with
    ⟨t, hrun⟩ | ⟨t, events, hrun, hsame, haccount, hanswered⟩
  · rw [bind_of_error hrun]
    exact .inl (.inr (.inl rfl))
  rcases raise_answered hpure' (.ask question) s' with
    ⟨t', hrun'⟩ | ⟨t', events', hrun', hsame', haccount', hanswered'⟩
  · rw [bind_of_error hrun']
    exact .inl (.inr (.inr rfl))
  obtain ⟨front, back, hview, hview'⟩ := h.registry.view_eq (List.map some)
  rw [hview] at hrun hanswered
  rw [hview', agreed_ask_insert] at hrun'
  have hnoted := h.account.note hanswered.silent
  have hleft : t'.account.findings = s'.account.findings := by
    rw [haccount']
    rfl
  rw [← haccount, hanswered.last, ← hleft] at hnoted
  have hrest : Beside (Registry.Gains x) (fun _ _ => True) t t' := h.since hsame hsame' trivial
  rw [bind_of_ok hrun, bind_of_ok hrun']
  cases hhandled : agreed answers (front ++ back) (.ask question) with
  | true =>
      rw [hhandled] at hnoted
      exact .inr ⟨rfl, hrest.stored, hrest.targets, hrest.memory, hrest.registry, hnoted⟩
  | false =>
      have hcause : (Event.settled (ι := ι) (.ask question) false).leavesUnhandled? = some question := by
        simp [Event.leavesUnhandled?, hmistake]
      rw [hhandled, hcause] at hnoted
      have hreport := hnoted.report (d := ⟨code, .error, message, some place.location⟩)
        ⟨code, place, hmistake, rfl⟩
      rw [← account_report] at hreport
      -- If the new extension takes care of the matter, it is reported in the first check alone.
      cases hclaims : answers x (.ask question) with
      | true =>
          refine .inr ⟨rfl, hrest.stored, hrest.targets, hrest.memory, hrest.registry, ?_⟩
          simp only [Option.any_some, hclaims] at hreport
          exact hreport
      | false =>
          refine .inr ⟨rfl, hrest.stored, hrest.targets, hrest.memory, hrest.registry, ?_⟩
          simp only [Option.any_some, hclaims] at hreport
          exact hreport

/-- The two checks keep pace. -/
theorem keepsPace_relieved (hpure : ∀ e call, c.behaviour e call = .done (answers e call))
    (hcares : CaresForMistakes answers x) (extensions : List (SessionAction ι μ ι)) :
    c.KeepsPace (c.staffedWith extensions limit) (.adding x)
      (Relieved x fun question => answers x (.ask question)) := by
  have hpure' : ∀ e call, (c.staffedWith extensions limit).behaviour e call = .done (answers e call) :=
    hpure
  refine keepsPace_beside (fun _ => say_beside rfl (admits_spared _ _ rfl)) rfl (admits_spared _)
    serve_relieved (·.scopes_eq) (fun scopes h => h.withScopes scopes) (fun call hcall => ?_)
    fun question code message place hmistake => offer_relieved hpure hpure' hmistake
  have hask (question : Question Occurrence CheckedType) (h : call = .ask question) :
      answers x (.ask question) = false := by
    rw [h, HookCall.isMistake, Option.isSome_eq_false_iff, Option.isNone_iff_eq_none] at hcall
    exact hcares.announced question hcall
  refine raise_agreed hpure hpure' .inr (fun {r r'} h => ?_)
    fun {a a' answer events events'} h hanswered _ => ?_
  · obtain ⟨front, back, hview, hview'⟩ := h.view_eq (List.map some)
    rw [hview, hview', agreed_insert hcares.toLeavesCandidates front back hask]
  · have hnoted := h.note hanswered.silent
    have hplain : (Event.settled (ι := ι) call answer).isPlain := by
      cases call with
      | ask question =>
          show (answer || question.mistake?.isNone) = true
          rw [HookCall.isMistake, Option.isSome_eq_false_iff] at hcall
          rw [hcall, Bool.or_true]
      | _ => rfl
    rwa [hanswered.last, Event.leavesUnhandled?_of_isPlain hplain] at hnoted

/-- What extensions do while they are created is all spared. -/
theorem createAll_spared (claims : Question Occurrence CheckedType → Bool)
    (extensions : List (SessionAction ι μ ι)) (memory : μ) :
    let t := (createAll extensions : Session ι μ Unit).after { memory }
    t.account.Spared claims none t.findings := by
  have hserve (r : Request ι Occurrence CheckedType μ Empty) :
      Abreast (μ := μ) .never
        (Beside Eq fun a a' => a.Spared claims none a'.findings) Eq (serve r) (serve r) :=
    serve_beside (admits_spared_deed claims) (fun extension _ _ h => by rw [h])
      (fun extension => unregister_beside (P := fun e => e.isPlain = true) (admits_spared claims) rfl
        fun h => by rw [h]) r
  have hcreate : Abreast .never
      (Beside Eq fun a a' => a.Spared claims none a'.findings) Eq (createAll extensions)
      (createAll extensions) :=
    .forM fun create _ => (Abreast.run hserve create).andThen fun extension =>
      hserve (.register extension)
  have hbegin : Beside Eq (fun a a' : Account ι => a.Spared claims none a'.findings)
      ({ memory } : SessionState ι μ) { memory } := ⟨rfl, rfl, rfl, rfl, .initial⟩
  exact (Agree.after ((hcreate.ends hbegin).resolve_left id)).account

/-- One more extension that takes care of some mistakes, next to extensions that only answer: both checks
are halted for the same reason, if at all, and go side by side up to there, or one of them is excused. -/
theorem check_relieved (hpure : ∀ e call, c.behaviour e call = .done (answers e call))
    (hcares : CaresForMistakes answers x) {before after : List (SessionAction ι μ ι)}
    (hextensions : c.extensions = before ++ after) (limit : Nat) (p : Program) (memory : μ) :
    let joined := c.staffedWith (before ++ .done x :: after) limit
    (Excuse.adding x).holds (.of (c.check p { memory })) (.of (joined.check p { memory })) ∨
      Agree (Beside (fun _ _ => True) fun a a' =>
          a.Spared (fun question => answers x (.ask question)) none a'.findings)
        (fun _ _ => True) (c.check p { memory }) (joined.check p { memory }) := by
  intro joined
  have pace : c.KeepsPace joined (.adding x) (Relieved x fun question => answers x (.ask question)) :=
    keepsPace_relieved hpure hcares (before ++ .done x :: after)
  have hcreated := createAll_spared (fun question => answers x (.ask question)) before memory
  refine check_inserted (Q := fun r r' => (Excuse.adding x).holds (.of r) (.of r') ∨
    Agree (Beside (fun _ _ => True) fun a a' =>
        a.Spared (fun question => answers x (.ask question)) none a'.findings)
      (fun _ _ => True) r r') hextensions rfl (fun halt t ht => ?_) fun t ht => ?_
  · rw [after_of_error ht] at hcreated
    exact .inr ⟨rfl, rfl, rfl, rfl, trivial, hcreated⟩
  · obtain ⟨members, hmembers⟩ := createAll_occupied ht
    rw [after_of_ok ht] at hcreated
    have hstart : Relieved x (fun question => answers x (.ask question)) t
        ({ t with registry := t.registry.addGlobal (some x) }.record (.registered x)) :=
      ⟨rfl, rfl, rfl, Registry.gains_addGlobal hmembers x, hcreated⟩
    refine ((pace.checkFrom (V := fun _ _ => True) serve_relieved (fun _ => trivial) after p).ends
      hstart).imp_right ?_
    exact Agree.mono (fun _ _ => id) fun h => ⟨h.stored, h.targets, h.memory, trivial, h.account⟩

end Checker

/-- Two sessions that are the same but for the order of the global extensions. -/
abbrev Reordered {ι μ : Type} : SessionState ι μ → SessionState ι μ → Prop :=
  Beside (fun r r' => r.scopes = r'.scopes ∧ r.globals.Perm r'.globals)
    fun a a' => a.findings = a'.findings

theorem admits_findings {ι : Type} (P : Event ι → Prop) :
    Admits (fun a a' : Account ι => a.findings = a'.findings) P := by
  intro a a' e _ h
  rw [Account.enter, Account.enter, h]

namespace Checker

variable {ι μ : Type} [DecidableEq ι] {c : Checker ι μ} {answers : Answers ι Occurrence CheckedType}
  {limit : Nat} {p : Program} {memory : μ}

/-- Whatever an extension does goes abreast. -/
theorem serve_reordered (r : Request ι Occurrence CheckedType μ Empty) :
    Abreast .cutOff Reordered Eq (serve r) (serve r) := by
  refine serve_beside (admits_findings _) (fun extension _ _ h => ⟨h.1, h.2.append_right _⟩)
    (fun extension => ?_) r
  exact unregister_beside (admits_findings fun _ => True) trivial fun h => ⟨h.1, h.2.erase _⟩

/-- The two checks keep pace. -/
theorem keepsPace_reordered (hpure : ∀ e call, c.behaviour e call = .done (answers e call))
    (hleave : ∀ e, LeavesCandidates answers e) (extensions : List (SessionAction ι μ ι)) :
    c.KeepsPace (c.staffedWith extensions limit) .cutOff Reordered := by
  have hpure' : ∀ e call, (c.staffedWith extensions limit).behaviour e call = .done (answers e call) :=
    hpure
  have hraise (call : HookCall Occurrence CheckedType) :
      Abreast .cutOff Reordered Eq (c.raise call) ((c.staffedWith extensions limit).raise call) := by
    refine raise_agreed hpure hpure' id (fun {r r'} h => agreed_perm ?_ hleave call)
      fun h _ _ => h
    rw [Registry.view, Registry.view, h.1]
    exact (h.2.append_right _).filterMap id
  refine keepsPace_beside (fun _ => say_beside rfl (admits_findings (fun _ => True) _ trivial)) rfl
    (admits_findings _) serve_reordered (·.1) (fun scopes h => ⟨rfl, h.2⟩) (fun call _ => hraise call)
    fun question code message place _ => (hraise (.ask question)).andThen fun handled => ?_
  exact .ite (fun _ => .pure rfl) fun _ => report_beside (admits_findings fun _ => True) trivial

/-- Where extensions only come into being, all that is left of it is that they are registered. -/
theorem createAll_done (es : List ι) (s : SessionState ι μ) :
    ∃ t, createAll (es.map .done) s = .ok () t ∧ t = { s with
      registry := { s.registry with globals := s.registry.globals ++ es.map some }
      journal := t.journal } := by
  induction es generalizing s with
  | nil =>
      refine ⟨s, rfl, ?_⟩
      rw [List.map_nil, List.append_nil]
  | cons e es ih =>
      obtain ⟨t, hrun, ht⟩ :=
        ih ({ s with registry := s.registry.addGlobal (some e) }.record (.registered e))
      refine ⟨t, hrun, ht.trans ?_⟩
      rw [List.map_cons]
      simp [Registry.addGlobal, SessionState.record]

/-- Extensions that only answer, and do not care for candidates, in another order. -/
theorem check_reordered (hpure : ∀ e call, c.behaviour e call = .done (answers e call))
    (hleave : ∀ e, LeavesCandidates answers e) {es es' : List ι}
    (hextensions : c.extensions = es.map .done) (hperm : es.Perm es') (limit : Nat) (p : Program)
    (memory : μ) :
    let other := c.staffedWith (es'.map .done) limit
    Excuse.cutOff.holds (.of (c.check p { memory })) (.of (other.check p { memory })) ∨
      Agree Reordered Eq (c.check p { memory }) (other.check p { memory }) := by
  intro other
  have pace : c.KeepsPace other .cutOff Reordered :=
    keepsPace_reordered hpure hleave (es'.map .done)
  have hverdict {s s' : SessionState ι μ} (h : Reordered s s') : s.verdict = s'.verdict := by
    have hfindings : s.findings = s'.findings := h.account
    rw [verdict, verdict, hfindings, h.stored, h.targets]
  obtain ⟨t, hrun, ht⟩ := createAll_done es ({ memory } : SessionState ι μ)
  obtain ⟨t', hrun', ht'⟩ := createAll_done es' ({ memory } : SessionState ι μ)
  have hstart : Reordered t t' := by
    refine ⟨?_, ?_, ?_, ⟨?_, ?_⟩, ?_⟩ <;> rw [ht, ht']
    · exact (hperm.map some).append_left []
    · rfl
  have hother : other.extensions = es'.map .done ++ [] := (List.append_nil _).symm
  rw [check_eq_append (hextensions.trans (List.append_nil _).symm), check_eq_append hother,
    bind_of_ok hrun, bind_of_ok hrun']
  exact (pace.checkFrom serve_reordered hverdict [] p).ends hstart

/-- Extensions whose answers depend on the questions alone, and that do nothing else. If they do not care
for candidates, a check comes to the same outcome in whatever order they are, with the same findings, types
and selections. If one more is added, at any place, that only takes care of mistakes, then the types and
selections stay the same, and so do the findings except that the reports of just those mistakes are
missing that it takes care of. -/
theorem check_of_answers (hpure : ∀ e call, c.behaviour e call = .done (answers e call)) (limit : Nat)
    (p : Program) (memory : μ) :
    let s := (c.check p).after { memory }
    (∀ es es' : List ι, c.extensions = es.map .done → es.Perm es' →
      (∀ e, LeavesCandidates answers e) →
      let other := c.staffedWith (es'.map .done) limit
      let s' := (other.check p).after { memory }
      (c.check p).outcome { memory } ≠ .error .exhausted →
      (other.check p).outcome { memory } ≠ .error .exhausted →
        (other.check p).outcome { memory } = (c.check p).outcome { memory } ∧
          s'.findings = s.findings ∧ s'.stored = s.stored ∧ s'.targets = s.targets) ∧
      ∀ before after x, c.extensions = before ++ after → CaresForMistakes answers x →
        let joined := c.staffedWith (before ++ .done x :: after) limit
        let s' := (joined.check p).after { memory }
        let reports := reportsWithCause none s.journal.toList
        (c.check p).outcome { memory } ≠ .error .exhausted →
        (joined.check p).outcome { memory } ≠ .error .exhausted →
        .unregistered x ∉ s.journal.toList →
          (∀ halt, (joined.check p).outcome { memory } = .error halt ↔
              (c.check p).outcome { memory } = .error halt) ∧
            s'.stored = s.stored ∧ s'.targets = s.targets ∧
            (∀ r ∈ reports, Justified r.1 r.2) ∧
            s.findings.diagnostics = reports.map (·.2) ∧
            s'.findings.diagnostics =
              (reports.filter fun r => !r.1.any fun question => answers x (.ask question)).map (·.2) := by
  intro s
  constructor
  · intro es es' hextensions hperm hleave other s' hends hends'
    have hagree := (check_reordered hpure hleave hextensions hperm limit p memory).resolve_left
      fun h => h.elim (fun hcut => hends (outcome_of_ending hcut))
        fun hcut => hends' (outcome_of_ending hcut)
    have hbeside := Agree.after hagree
    exact ⟨Agree.outcome_eq hagree, hbeside.account.symm, hbeside.stored.symm, hbeside.targets.symm⟩
  · intro before after x hextensions hcares joined s' reports hends hends' hstays
    have hagree := (check_relieved hpure hcares hextensions limit p memory).resolve_left fun h => by
      rcases h with hmeddles | hcut | hcut
      · replace hmeddles : .unregistered x ∈ (Ending.of (c.check p { memory })).journal := hmeddles
        rw [journal_ending] at hmeddles
        exact hstays hmeddles
      · exact hends (outcome_of_ending hcut)
      · exact hends' (outcome_of_ending hcut)
    have hbeside := Agree.after hagree
    have hspared := hbeside.account
    exact ⟨Agree.outcome_error_iff hagree, hbeside.stored.symm, hbeside.targets.symm, hspared.justified,
      hspared.found, hspared.spared⟩

end Checker

/-- What some readers answer: one knows the variables on the left, one those on the right. -/
def tastes : Answers Nat Occurrence CheckedType
  | 0, .ask (.unresolvedVariable name) => decide (name.node.role = .left)
  | 1, .ask (.unresolvedVariable name) => decide (name.node.role = .right)
  | _, call => call.neutral

/-- Readers that do nothing but answer. -/
def readers : Checker Nat Unit where
  extensions := [.done 0, .done 2]
  behaviour e call := .done (tastes e call)
  label _ := .anonymous
  limit := 2

/-- In whatever order they are, one of two variables is reported. With one more reader it is not, and the
check succeeds. -/
theorem check_of_answers_readers :
    let s := (readers.check strayNames).after { memory := () }
    let other := readers.staffedWith ([2, 0].map .done) 3
    let joined := readers.staffedWith ([.done 0] ++ .done 1 :: [.done 2]) 3
    s.findings.diagnostics.length = 1 ∧
      ((other.check strayNames).after { memory := () }).findings = s.findings ∧
      ((joined.check strayNames).after { memory := () }).findings.diagnostics = [] := by
  intro s other joined
  have hleave (e : Nat) : LeavesCandidates tastes e := by
    constructor <;> intros <;> rcases e with _ | _ | e <;> rfl
  have hcares : CaresForMistakes tastes 1 := by
    refine ⟨hleave 1, fun question hquestion => ?_⟩
    cases question <;> first | rfl | cases hquestion
  have hends : (readers.check strayNames).outcome { memory := () } ≠ .error .exhausted :=
    outcome_ne_of_finishes (by decide +kernel) _
  have hkinds : s.journal.toList.all (fun | .unregistered _ => false | _ => true) := by
    decide +kernel
  obtain ⟨hreordered, hrelieved⟩ := readers.check_of_answers (fun _ _ => rfl) 3 strayNames ()
  obtain ⟨-, hfindings, -, -⟩ := hreordered [0, 2] [2, 0] rfl (.swap 2 0 []) hleave hends
    (outcome_ne_of_finishes (by decide +kernel) _)
  obtain ⟨-, -, -, -, -, hspared⟩ := hrelieved [.done 0] [.done 2] 1 rfl hcares hends
    (outcome_ne_of_finishes (by decide +kernel) _)
    fun hmem => nomatch List.all_eq_true.mp hkinds _ hmem
  exact ⟨by decide +kernel, hfindings, hspared.trans (by decide +kernel)⟩

end ExtensibleCheck
