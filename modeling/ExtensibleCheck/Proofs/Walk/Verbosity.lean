import ExtensibleCheck.Proofs.Session.Beside
import ExtensibleCheck.Proofs.Session.Convoy
import ExtensibleCheck.Proofs.Walk.Reasons

/-! Talkative checkers. All that a talkative checker does besides is to print lines. Extensions are
consulted on the same matters in the same order, and whatever comes of it is the same. The lines tell
which extension took care of a matter, and how many were told that the check begins and ends. -/

namespace ExtensibleCheck

variable {ι μ : Type}

/-- All events but those that a line was printed. -/
def unprinted (events : List (Event ι)) : List (Event ι) := events.filter (·.line?.isNone)

theorem unprinted_append (events events' : List (Event ι)) :
    unprinted (events ++ events') = unprinted events ++ unprinted events' :=
  List.filter_append ..

theorem unprinted_of_silent {events : List (Event ι)} (h : printedLines events = []) :
    unprinted events = events :=
  List.filter_eq_self.mpr fun e he => Option.isNone_iff_eq_none.mpr (List.filterMap_eq_nil_iff.mp h e he)

/-- Lines that are printed are no consultations. -/
theorem consultations_unprinted (events : List (Event ι)) :
    consultations (unprinted events) = consultations events := by
  rw [consultations, consultations, unprinted, List.filterMap_filter]
  refine List.filterMap_congr fun e _ => ?_
  cases e <;> rfl

/-- Two accounts tell the same, lines that were printed aside. -/
structure Account.SameUnprinted (a a' : Account ι) : Prop where
  findings : a.findings = a'.findings
  journal : unprinted a.journal = unprinted a'.journal

open Run Session SessionState

theorem admits_unprinted : Admits (Account.SameUnprinted (ι := ι)) fun _ => True := by
  intro a a' e _ h
  refine ⟨?_, ?_⟩
  · rw [Account.enter, Account.enter, h.findings]
  · rw [Account.enter, Account.enter, unprinted_append, unprinted_append, h.journal]

namespace Checker

variable [DecidableEq ι] (c : Checker ι μ)

/-- The checker with the same extensions, talkative or not. -/
def talking (verbose : Bool) : Checker ι μ := { c with verbose }

section

variable {K : Account ι → Account ι → Prop} (hK : Admits K fun _ => True)

include hK

/-- Nothing that an extension can ask for depends on what the accounts tell. -/
theorem serve_admitted (r : Request ι Occurrence CheckedType μ Empty) :
    Abreast (μ := μ) .never (Beside Eq K) Eq (serve r) (serve r) :=
  serve_beside (fun e _ => hK e trivial) (fun extension _ _ h => by rw [h])
    (fun extension => unregister_beside hK trivial fun h => by rw [h]) r

variable {verbose verbose' : Bool} (hsay : ∀ line, Abreast .never (Beside (μ := μ) Eq K) Eq
  ((c.talking verbose).dispatcher.say line) ((c.talking verbose').dispatcher.say line))

include hsay

theorem raise_talking (call : HookCall Occurrence CheckedType) : Abreast .never (Beside (μ := μ) Eq K) Eq
    ((c.talking verbose).raise call) ((c.talking verbose').raise call) := by
  have hlimit : (c.talking verbose).limit = (c.talking verbose').limit := rfl
  have hrecord {e : Event ι} (h : e.report? = none) :
      Abreast .never (Beside (μ := μ) Eq K) Eq (record e) (record e) :=
    record_beside h h (hK e trivial)
  refine raise_inStep hlimit rfl (·.registry) (fun e he => hrecord ?_) hsay (fun extension call => ?_) call
  · cases e with
    | reported => cases he
    | _ => rfl
  · exact (hrecord rfl).andThen fun _ => .run (serve_admitted hK) _

/-- Checkers with the same extensions keep pace, if what they say is in keeping with their accounts. -/
theorem keepsPace_talking :
    (c.talking verbose).KeepsPace (c.talking verbose') .never (Beside Eq K) := by
  refine keepsPace_beside hsay rfl (fun e _ => hK e trivial) (serve_admitted hK) (fun h => by rw [h])
    (fun scopes h => by rw [h]) (fun call _ => c.raise_talking hK hsay call)
    fun question code message place _ => (c.raise_talking hK hsay (.ask question)).andThen fun handled => ?_
  exact .ite (fun _ => .pure rfl) fun _ => report_beside hK trivial

theorem check_talking (hfindings : ∀ {a a'}, K a a' → a.findings = a'.findings) (p : Program)
    {s s' : SessionState ι μ} (h : Beside Eq K s s') :
    Agree (Beside Eq K) Eq ((c.talking verbose).check p s) ((c.talking verbose').check p s') := by
  have hverdict {s s' : SessionState ι μ} (h : Beside Eq K s s') : s.verdict = s'.verdict := by
    have hsame : s.findings = s'.findings := hfindings h.account
    rw [verdict, verdict, hsame, h.stored, h.targets]
  have hall := (c.keepsPace_talking hK hsay).checkFrom (serve_admitted hK) hverdict c.extensions p
  rw [check_eq_checkFrom, check_eq_checkFrom]
  exact (hall.ends h).resolve_left id

end

/-- What a talkative checker says, the other one keeps to itself. -/
theorem say_unprinted (line : String) : Abreast .never (Beside (μ := μ) Eq Account.SameUnprinted) Eq
    ((c.talking true).dispatcher.say line) ((c.talking false).dispatcher.say line) := by
  refine ⟨(writes_record trivial).ite (Keeps.pure ()), (writes_record trivial).ite (Keeps.pure ()),
    fun {s s'} h => .inr ⟨rfl, h.stored, h.targets, h.memory, h.registry, ?_⟩⟩
  show Account.SameUnprinted (s.record (.printed line)).account s'.account
  refine ⟨h.account.findings, ?_⟩
  rw [account_record s rfl, Account.enter, unprinted_append]
  exact (List.append_nil _).trans h.account.journal

theorem check_unprinted (p : Program) (memory : μ) :
    Agree (Beside Eq Account.SameUnprinted) Eq ((c.talking true).check p { memory })
      ((c.talking false).check p { memory }) :=
  c.check_talking admits_unprinted c.say_unprinted (·.findings) p ⟨rfl, rfl, rfl, rfl, rfl, rfl⟩

/-- Nothing is printed. -/
abbrev IsUnsaid {α : Type} (m : Session ι μ α) : Prop := Writes (fun e => e.line? = none) m

omit [DecidableEq ι] in
theorem unsaid_record {e : Event ι} (h : e.line? = none) : IsUnsaid (record e : Session ι μ Unit) :=
  writes_record h

omit [DecidableEq ι] in
theorem isHandedThrough_isUnsaid : IsHandedThrough fun _ (m : Session ι μ _) => IsUnsaid m :=
  .ofKeeps fun s _ => refl_of (Wrote _) s

theorem unsaid_run {α : Type} (action : SessionAction ι μ α) : IsUnsaid (action.run serve) :=
  (requests_run action).mono (fun hwrote => hwrote.mono fun _ => Event.line?_of_isRequest) id

theorem unsaid_localExtensionsFor (closure : Occurrence) : IsUnsaid (c.localExtensionsFor closure) := by
  have hprovided : IsUnsaid (c.provided closure) := by
    rw [provided]
    cases c.localExtensions with
    | none => exact Keeps.pure []
    | some provide => exact unsaid_run (provide closure)
  rw [localExtensionsFor_eq]
  exact hprovided.bind fun extensions => (unsaid_record rfl).bind fun _ => Keeps.pure extensions

section

variable {c} (hverbose : c.verbose = false)

include hverbose

theorem unsaid_say (line : String) : IsUnsaid (c.dispatcher.say line) := by
  have hsay : c.dispatcher.say line = pure () := by
    show (if c.verbose then print line else pure ()) = _
    rw [hverbose]
    rfl
  rw [hsay]
  exact Keeps.pure ()

theorem unsaid_raise (call : HookCall Occurrence CheckedType) : IsUnsaid (c.raise call) := by
  have hdispatch : IsUnsaid (c.dispatcher.dispatch call) :=
    Dispatcher.keeps_dispatch_of_consultations (fun e use _ => unsaid_invoke e use)
      (unsaid_say hverbose) trivial
  refine Keeps.get.bind fun s => (unsaid_record rfl).bind fun _ => hdispatch.bind fun answer => ?_
  exact (unsaid_record rfl).bind fun _ => Keeps.pure answer

theorem unsaid_select (call : Occurrence) (target : Candidate CheckedType) :
    IsUnsaid (c.select call target) := by
  have hselecting : IsUnsaid (do
      modify (·.selecting call target)
      record (.selected call target) : Session ι μ Unit) :=
    writes_change (fun _ => rfl) rfl
  exact hselecting.bind fun _ => unsaid_raise hverbose (.notify (.methodSelection call target))

theorem unsaid_visitor (file : SourceFile) : (c.visitor file).Composes fun _ m => IsUnsaid m := by
  have hsteps : (c.visitor file).Steps fun _ m => IsUnsaid m := {
    toIsHandedOn := isHandedThrough_isUnsaid.toIsHandedOn
    say := unsaid_say hverbose
    typeOf := fun _ _ => writes_typeOf fun _ => rfl
    hasStored := fun _ _ => writes_hasStored fun _ => rfl
    report := fun _ _ _ => writes_report rfl
    raise := fun call _ => unsaid_raise hverbose call
    enclosed := fun closure _ =>
      Visitor.enclosed_has isHandedThrough_isUnsaid c.unsaid_localExtensionsFor closure }
  exact hsteps.composes fun call target _ _ => unsaid_select hverbose call target

/-- A checker that is not talkative prints nothing. -/
theorem unsaid_check (p : Program) : IsUnsaid (c.check p) := by
  have hregister (extension : ι) : IsUnsaid (register extension : Session ι μ Unit) :=
    writes_change (fun _ => rfl) rfl
  exact check_has isHandedThrough_isUnsaid.toIsHandedOn (fun create _ => unsaid_run create) hregister
    (fun notice _ => unsaid_raise hverbose (.notify notice)) (fun file _ => unsaid_visitor hverbose file)
    Keeps.get

end

/-- When a talkative checker has settled the use of a hook, it has said what came of it. -/
theorem says_settled (hverbose : c.verbose = true) (p : Program) (memory : μ)
    {call : HookCall Occurrence CheckedType} {answer : call.Answer} {past rest : List (Event ι)}
    (hsplit : ((c.check p).after { memory }).journal.toList = past ++ .settled call answer :: rest) :
    ∃ before registry during, past = before ++ .raised call registry :: during ∧
      (∀ e ∈ during, e.isTurn = false) ∧ c.Says past during call answer := by
  obtain ⟨s, t, hdispatch, rfl⟩ := c.explained_check p memory hsplit
  obtain ⟨during, hduring, hsays⟩ := says_dispatch hverbose hdispatch
  obtain ⟨events, hevents, hquiet⟩ :=
    ((c.quiet_dispatch call).state (s.record (.raised call s.registry))).wrote
  rw [after_of_ok hdispatch, hduring] at hevents
  obtain rfl : during = events := List.append_cancel_left hevents
  refine ⟨s.journal.toList, s.registry, during, ?_, hquiet, hsays⟩
  rw [hduring, s.journal_record, List.append_assoc, List.singleton_append]

/-- Whatever the program, the memory in the beginning and the extensions, a check comes to the same end
whether the checker is talkative or not: with the same verdict or halted alike, with the same types
stored, methods selected and findings, after the same consultations. But for the lines that were printed
the two journals are the same, and if the checker is not talkative there are none. Otherwise they tell
what came of each use of a hook: of a question that was answered with yes, one line names the extension
that did so, and of the beginning and the end of the check, one line says how many were told. -/
theorem check_verbose_only_prints (p : Program) (memory : μ) :
    let s := ((c.talking true).check p).after { memory }
    let s' := ((c.talking false).check p).after { memory }
    ((c.talking true).check p).outcome { memory } = ((c.talking false).check p).outcome { memory } ∧
    s.stored = s'.stored ∧ s.targets = s'.targets ∧ s.findings = s'.findings ∧ s.memory = s'.memory ∧
    s.registry = s'.registry ∧
    consultations s.journal.toList = consultations s'.journal.toList ∧
    s'.journal.toList = unprinted s.journal.toList ∧
    s'.log = (unprinted s.journal.toList).filterMap Event.logLine? ∧
    printedLines s'.journal.toList = [] ∧
    ∀ past call answer rest, s.journal.toList = past ++ .settled call answer :: rest →
      ∃ before registry during, past = before ++ .raised call registry :: during ∧
        (∀ e ∈ during, e.isTurn = false) ∧ (c.talking true).Says past during call answer := by
  intro s s'
  have hagree := c.check_unprinted p memory
  have hbeside : Beside Eq Account.SameUnprinted s s' := hagree.after
  have hsilent : printedLines s'.journal.toList = [] := by
    obtain ⟨events, hjournal, hunsaid⟩ :=
      (unsaid_check (c := c.talking false) rfl p).state { memory }
    have hevents : s'.journal.toList = events := hjournal
    rw [hevents]
    exact List.filterMap_eq_nil_iff.mpr hunsaid
  have hjournal : s'.journal.toList = unprinted s.journal.toList := by
    have hsame : unprinted s.journal.toList = unprinted s'.journal.toList := hbeside.account.journal
    rw [hsame, unprinted_of_silent hsilent]
  refine ⟨hagree.outcome_eq.symm, hbeside.stored, hbeside.targets, hbeside.account.findings,
    hbeside.memory, hbeside.registry, ?_, hjournal, ?_, hsilent, fun past call answer rest hsplit => ?_⟩
  · rw [hjournal, consultations_unprinted]
  · rw [SessionState.log, hjournal]
  · exact (c.talking true).says_settled rfl p memory hsplit

end Checker

/-- What is printed when one of two stray names is taken care of. -/
example : printedLines (((caresForLeft.talking true).check strayNames).after
    { memory := () }).journal.toList = ["Set up 1 type checking extension(s)", "Checking stray.ts",
      "handleUnresolvedVariable handled by anonymous extension",
      "Finished 1 type checking extension(s)"] := by
  decide +kernel

end ExtensibleCheck
