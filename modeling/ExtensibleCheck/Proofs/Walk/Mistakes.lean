import ExtensibleCheck.Proofs.Session.Unfolding
import ExtensibleCheck.Proofs.Walk.Steps

/-! Mistakes and reports belong together one to one. When nobody takes care of a mistake that was
offered, the very next entry of the journal is the one report of it; a mistake that somebody takes care
of is not reported, and nothing else makes such a report. So the findings of a check are the unhandled
mistakes in the order in which they came up, among what the extensions reported by themselves and what
member calls gave rise to. -/

namespace ExtensibleCheck

/-- The findings that are not about a mistake that was offered: what extensions report, and calls of
members for which no method could be selected. -/
def Code.isAsideFromMistakes (code : Code) : Bool :=
  code ∈ [.extensionError, .missingMethod, .ambiguousMethod]

/-- Whether a hook is used to find the method for a call of a member. -/
def HookCall.isCollecting {ν τ : Type} : HookCall ν τ → Bool
  | narrow _ _ | contribute _ => true
  | _ => false

/-- What the checker reports by itself once a use of a hook is settled. -/
inductive Consequence {ι : Type} :
    (call : HookCall Occurrence CheckedType) → call.Answer → List (Event ι) → Prop
  | handled {question code place} : question.mistake? = some (code, place) →
      Consequence (.ask question) true []
  | unhandled {question code place} (message : String) : question.mistake? = some (code, place) →
      Consequence (.ask question) false [.reported ⟨code, .error, message, some place.location⟩]
  /-- To take over an announced node or not is no mistake. -/
  | announced {question} (taken : Bool) : (HookCall.ask question).announced?.isSome →
      Consequence (.ask question) taken []
  | collected {call answer} : call.isCollecting → Consequence call answer []
  /-- No method could be selected for a call, or there was no way to choose. -/
  | rejected {call answer} (d : Diagnostic) : call.isCollecting →
      d.code ∈ [.missingMethod, .ambiguousMethod] → Consequence call answer [.reported d]
  | told {notice} : Consequence (.notify notice) () []

/-- A journal accounted for entry by entry. From the beginning of the use of a hook until it is
settled there are only asides, and right after comes what the checker reports because of the answer. -/
inductive Accounted {ι : Type} : List (Event ι) → Prop
  | done : Accounted []
  | aside {event rest} : event.isAside → Accounted rest → Accounted (event :: rest)
  | use {call registry during answer reports rest} : (∀ e ∈ during, e.isAside) →
      Consequence call answer reports → Accounted rest →
      Accounted (.raised call registry :: (during ++ .settled call answer :: (reports ++ rest)))

/-- The mistake that was just left unhandled, if the event is that: under which code and where it is
to be reported. -/
def Event.unhandled? {ι : Type} : Event ι → Option (Code × Occurrence)
  | settled (.ask question) handled => if handled then none else question.mistake?
  | _ => none

/-- What a finding says besides its message. -/
def Diagnostic.heading (d : Diagnostic) : Code × Severity × Option Location :=
  (d.code, d.severity, d.location)

/-- The headings of the reports about mistakes that were offered. -/
def mistakesReported (findings : List Diagnostic) : List (Code × Severity × Option Location) :=
  (findings.filter fun d => !d.code.isAsideFromMistakes).map Diagnostic.heading

/-- The headings under which the unhandled mistakes are to be reported. -/
def mistakesUnhandled {ι : Type} (events : List (Event ι)) :
    List (Code × Severity × Option Location) :=
  (events.filterMap Event.unhandled?).map fun (code, place) => (code, .error, some place.location)

theorem Question.isAsideFromMistakes_of_mistake? {question : Question Occurrence CheckedType}
    {code : Code} {place : Occurrence} (h : question.mistake? = some (code, place)) :
    code.isAsideFromMistakes = false := by
  cases question with
  | unresolvedProperty access =>
      obtain ⟨name, -, hname⟩ := Option.map_eq_some_iff.mp h
      cases hname
      rfl
  | _ =>
      cases h
      all_goals rfl

theorem Question.mistake?_of_announced {question : Question Occurrence CheckedType}
    (h : (HookCall.ask question).announced?.isSome) : question.mistake? = none := by
  cases question with
  | beforeVisitMethod | beforeVisitClass | beforeMethodCall => rfl
  | _ => cases h

section

variable {ι : Type} {events rest : List (Event ι)}

theorem mistakesReported_append (findings findings' : List Diagnostic) :
    mistakesReported (findings ++ findings') =
      mistakesReported findings ++ mistakesReported findings' := by
  rw [mistakesReported, List.filter_append, List.map_append]
  rfl

theorem mistakesUnhandled_append :
    mistakesUnhandled (events ++ rest) = mistakesUnhandled events ++ mistakesUnhandled rest := by
  rw [mistakesUnhandled, List.filterMap_append, List.map_append]
  rfl

/-- Asides neither leave mistakes unhandled nor report them. -/
theorem mistakes_of_asides (h : ∀ e ∈ events, e.isAside) :
    mistakesReported (events.filterMap Event.report?) = [] ∧ mistakesUnhandled events = [] := by
  constructor
  · refine List.map_eq_nil_iff.mpr (List.filter_eq_nil_iff.mpr fun d hd => ?_)
    obtain ⟨e, he, hreport⟩ := List.mem_filterMap.mp hd
    have haside := h e he
    cases e with
    | reported =>
        cases hreport
        rw [Event.isAside, decide_eq_true_iff] at haside
        rw [haside]
        decide
    | _ => cases hreport
  · refine List.map_eq_nil_iff.mpr (List.filterMap_eq_nil_iff.mpr fun e he => ?_)
    have haside := h e he
    cases e with
    | settled => cases haside
    | _ => rfl

/-- The reports that follow the answer to a use of a hook are about the mistake that it left
unhandled. -/
theorem Consequence.mistakes {call : HookCall Occurrence CheckedType} {answer : call.Answer}
    {reports : List (Event ι)} (h : Consequence call answer reports) :
    mistakesReported ((.settled call answer :: reports).filterMap Event.report?) =
      mistakesUnhandled (.settled call answer :: reports) := by
  cases h with
  | handled _ => rfl
  | @unhandled question code place message hmistake =>
      have hcode := Question.isAsideFromMistakes_of_mistake? hmistake
      simp [mistakesReported, mistakesUnhandled, List.filterMap_cons, Event.report?,
        Event.unhandled?, hmistake, hcode, Diagnostic.heading]
  | announced taken hannounced =>
      have hnone := Question.mistake?_of_announced hannounced
      simp [mistakesReported, mistakesUnhandled, List.filterMap_cons, Event.report?,
        Event.unhandled?, hnone]
  | collected hcall =>
      cases call with
      | ask | notify => cases hcall
      | narrow | contribute => rfl
  | rejected d hcall hcode =>
      have haside : d.code.isAsideFromMistakes = true := by
        rcases List.mem_pair.mp hcode with hcode | hcode <;> rw [hcode] <;> rfl
      cases call with
      | ask | notify => cases hcall
      | narrow | contribute =>
          simp [mistakesReported, mistakesUnhandled, List.filterMap_cons, Event.report?,
            Event.unhandled?, haside]
  | told => rfl

namespace Accounted

theorem append (h : Accounted events) (hrest : Accounted rest) : Accounted (events ++ rest) := by
  induction h with
  | done => exact hrest
  | aside haside _ ih => exact .aside haside ih
  | use hduring hconsequence _ ih =>
      rw [List.cons_append, List.append_assoc, List.cons_append, List.append_assoc]
      exact .use hduring hconsequence ih

theorem of_asides (h : ∀ e ∈ events, e.isAside) : Accounted events := by
  induction events with
  | nil => exact .done
  | cons e events ih =>
      exact .aside (h e List.mem_cons_self) (ih fun e he => h e (List.mem_cons_of_mem _ he))

/-- In a journal that is accounted for, the reports about mistakes are those of the unhandled ones. -/
theorem mistakes (h : Accounted events) :
    mistakesReported (events.filterMap Event.report?) = mistakesUnhandled events := by
  induction h with
  | done => rfl
  | @aside event rest haside _ ih =>
      have hsingle : ∀ e ∈ [event], e.isAside := fun e he => List.mem_singleton.mp he ▸ haside
      obtain ⟨hreported, hunhandled⟩ := mistakes_of_asides hsingle
      calc mistakesReported (([event] ++ rest).filterMap Event.report?)
          = mistakesReported ([event].filterMap Event.report?) ++
              mistakesReported (rest.filterMap Event.report?) := by
            rw [List.filterMap_append, mistakesReported_append]
        _ = mistakesUnhandled [event] ++ mistakesUnhandled rest := by
            rw [hreported, hunhandled, ih]
        _ = mistakesUnhandled ([event] ++ rest) := mistakesUnhandled_append.symm
  | @use call registry during answer reports rest hduring hconsequence _ ih =>
      obtain ⟨hreported, hunhandled⟩ := mistakes_of_asides hduring
      show mistakesReported ((during ++ (.settled call answer :: reports ++ rest)).filterMap
          Event.report?) = mistakesUnhandled (during ++ (.settled call answer :: reports ++ rest))
      simp only [List.filterMap_append, mistakesReported_append, mistakesUnhandled_append]
      rw [hreported, hunhandled, hconsequence.mistakes, ih]

end Accounted

end

open Run Session SessionState

namespace Session

variable {ι μ α β : Type}

/-- What a run enters is accounted for. -/
abbrev IsAccounted (m : Session ι μ α) : Prop := Enters m fun _ => Accounted

theorem IsAside.accounted {m : Session ι μ α} (h : IsAside m) : IsAccounted m :=
  (Enters.ofKeeps h).mono fun _ _ => Accounted.of_asides

theorem accounted_bind {m : Session ι μ α} {f : α → Session ι μ β} (hm : IsAccounted m)
    (hf : ∀ a, IsAccounted (f a)) : IsAccounted (m >>= f) := by
  refine (hm.bind hf).mono ?_
  rintro _ _ ⟨_, first, rest, rfl, hfirst, hrest⟩
  exact hfirst.append hrest

end Session

namespace Checker

variable {ι μ β : Type} [DecidableEq ι] (c : Checker ι μ)

/-- The use of a hook is accounted for together with what follows, if that begins with its
consequence. -/
theorem accounted_raise_bind {call : HookCall Occurrence CheckedType}
    {f : call.Answer → Session ι μ β} (hf : ∀ answer, Enters (f answer) fun _ events =>
      ∃ reports rest, events = reports ++ rest ∧ Consequence call answer reports ∧ Accounted rest) :
    IsAccounted (c.raise call >>= f) := by
  refine ((c.raise_unfolds call).whole.bind hf).mono ?_
  rintro _ _ ⟨answer, _, _, rfl, ⟨registry, hduring⟩, reports, rest, rfl,
    hconsequence, hrest⟩
  rw [List.cons_append, List.append_assoc, List.singleton_append]
  exact .use (fun e he => Event.isAside_of_isDeed (hduring e he)) hconsequence hrest

/-- Nothing is reported because of news. -/
theorem accounted_notify (notice : Notice Occurrence CheckedType) :
    IsAccounted (c.raise (.notify notice)) := by
  refine (c.raise_unfolds (.notify notice)).whole.mono ?_
  rintro _ _ ⟨registry, hduring⟩
  exact .use (fun e he => Event.isAside_of_isDeed (hduring e he)) .told .done

theorem accounted_select (call : Occurrence) (target : Candidate CheckedType) :
    IsAccounted (c.select call target) := by
  have hselect : IsAside (do
      modify (·.selecting call target)
      record (.selected call target) : Session ι μ Unit) :=
    writes_change (fun _ => rfl) rfl
  have hall := accounted_bind hselect.accounted fun _ =>
    c.accounted_notify (.methodSelection call target)
  exact hall

end Checker

namespace Visitor

variable {ι μ : Type} [DecidableEq ι] {v : Visitor ι μ}

/-- The one method that was found is selected, or it is reported that there is none or no way to
choose. -/
theorem choose_enters (call name : Occurrence) (receiver : CheckedType) (types : List CheckedType)
    {hook : HookCall Occurrence CheckedType} (answer : hook.Answer) (hhook : hook.isCollecting)
    (chosen : List (Candidate CheckedType)) :
    Enters (v.choose call name receiver types chosen) fun _ events =>
      ∃ reports rest, events = reports ++ rest ∧ Consequence hook answer reports ∧
        Accounted rest := by
  have hrejected (code : Code) (message : String) (hcode : code ∈ [.missingMethod, .ambiguousMethod]) :
      Enters (report code message name : Session ι μ Unit) fun _ events =>
        ∃ reports rest, events = reports ++ rest ∧ Consequence hook answer reports ∧
          Accounted rest := by
    refine (enters_report code message name).mono ?_
    rintro _ _ rfl
    exact ⟨_, [], (List.append_nil _).symm, .rejected _ hhook hcode, .done⟩
  match chosen with
  | [] => exact hrejected _ _ (by decide)
  | [target] =>
      refine (v.checker.accounted_select call target).mono fun _ events hevents => ?_
      exact ⟨[], events, rfl, .collected hhook, hevents⟩
  | _ :: _ :: _ => exact hrejected _ _ (by decide)

theorem accounted_enclosed {closure : Occurrence} {body : Session ι μ Unit}
    (hbody : IsAccounted body) : IsAccounted (v.enclosed closure body) := by
  refine accounted_bind (v.checker.aside_localExtensionsFor closure).accounted fun extensions => ?_
  split
  · exact hbody
  · exact Enters.scoped hbody extensions

theorem Deals.accounted {o : Occurrence} {children : List Occurrence} {m : Session ι μ Unit}
    (h : v.Deals o children m) : IsAccounted m := by
  induction h with
  | nothing => exact (enters_pure ()).mono fun _ _ hnil => hnil.2 ▸ .done
  | andThen _ _ ih ih' => exact accounted_bind ih fun _ => ih'
  | say line => exact (v.checker.deed_say line).aside.accounted
  | lookUp _ _ ih =>
      refine accounted_bind ((enters_typeOf _).mono ?_) ih
      rintro _ _ rfl
      exact .aside rfl .done
  | askStored _ _ ih =>
      refine accounted_bind ((enters_hasStored _).mono ?_) ih
      rintro _ _ rfl
      exact .aside rfl .done
  | offer message _ hmistake =>
      refine v.checker.accounted_raise_bind fun handled => ?_
      cases handled with
      | true =>
          refine (enters_pure PUnit.unit).mono ?_
          rintro _ _ ⟨-, rfl⟩
          exact ⟨[], [], rfl, .handled hmistake, .done⟩
      | false =>
          refine (enters_report _ message _).mono ?_
          rintro _ _ rfl
          exact ⟨_, [], (List.append_nil _).symm, .unhandled message hmistake, .done⟩
  | select _ _ => exact v.checker.accounted_select _ _
  | @supply call name receiver arguments types _ =>
      refine v.checker.accounted_raise_bind fun found => ?_
      split
      · have hnarrowed : IsAccounted (v.checker.raise (.narrow found call) >>=
            v.choose call name receiver types) :=
          v.checker.accounted_raise_bind fun left =>
            choose_enters call name receiver types left rfl left
        refine hnarrowed.mono fun _ events hevents => ?_
        exact ⟨[], events, rfl, .collected rfl, hevents⟩
      · exact choose_enters call name receiver types found rfl found
  | inside _ _ _ _ _ _ ih => exact ih
  | @announced _ child before after _ body _ hannounced _ _ ih =>
      have hlast := v.checker.accounted_notify after
      have hbefore : (HookCall.ask before).announced?.isSome :=
        Option.isSome_of_mem (Occurrence.announcement?_spec hannounced).2.2.1
      refine v.checker.accounted_raise_bind fun taken => ?_
      have hrest : IsAccounted (if taken then v.checker.raise (.notify after)
          else body >>= fun _ => v.checker.raise (.notify after)) := by
        split
        · exact hlast
        · exact accounted_bind ih fun _ => hlast
      refine hrest.mono fun _ events hevents => ?_
      exact ⟨[], events, rfl, .announced taken hbefore, hevents⟩
  | enclosed _ _ _ _ ih => exact accounted_enclosed ih

end Visitor

/-- All that a check found, whether it stands against the program or not. -/
def Verdict.findings : Verdict → Collector
  | .error findings => findings
  | .ok result => result.findings

/-- What was reported so far, in order. -/
def SessionState.reports {ι μ : Type} (s : SessionState ι μ) : List Diagnostic :=
  s.journal.toList.filterMap Event.report?

theorem SessionState.reports_record {ι μ : Type} (s : SessionState ι μ) (event : Event ι) :
    (s.record event).reports = s.reports ++ event.report?.toList := by
  rw [reports, journal_record, List.filterMap_append, List.filterMap_cons]
  cases event.report? <;> rfl

/-- Nothing is found without being reported, nor the other way round. -/
theorem SessionState.Change.findings_eq {ι μ : Type} [DecidableEq ι] {s t : SessionState ι μ}
    (h : Change s t) (hs : s.findings.diagnostics = s.reports) :
    t.findings.diagnostics = t.reports := by
  have hsilent {event : Event ι} (hevent : event.report? = none) {t : SessionState ι μ}
      (hfindings : t.findings = s.findings) (hjournal : t.journal = s.journal) :
      (t.record event).findings.diagnostics = (t.record event).reports := by
    have hreports : t.reports = s.reports := by rw [reports, reports, hjournal]
    rw [reports_record, hevent, hreports, ← hs, ← hfindings]
    exact (List.append_nil _).symm
  cases h with
  | @note event hnote =>
      refine hsilent ?_ rfl rfl
      cases event with
      | reported => cases hnote
      | _ => rfl
  | report d =>
      rw [reports_record]
      exact congrArg (· ++ [d]) hs
  | select target =>
      rw [reports_record]
      exact (List.append_nil _).symm ▸ hsilent rfl rfl rfl
  | lookUp | probe | readTarget | store | register | unregister => exact hsilent rfl rfl rfl
  | scopes | memory => exact hs

namespace Checker

variable {ι μ : Type} [DecidableEq ι] (c : Checker ι μ)

theorem accounted_check (p : Program) : IsAccounted (c.check p) := by
  have hfiles : IsAccounted (p.files.forM c.visitFile) := by
    induction p.files with
    | nil => exact (enters_pure PUnit.unit).mono fun _ _ hnil => hnil.2 ▸ .done
    | cons file files ih => exact accounted_bind (c.visitFile_deals file).accounted fun _ => ih
  have hverdict : IsAccounted (do return (← get).verdict : Session ι μ Verdict) :=
    (Enters.nothing fun _ _ _ h => by cases h; rfl).mono fun _ _ hnil => hnil ▸ .done
  refine accounted_bind c.deed_start.aside.accounted fun _ => ?_
  refine accounted_bind (c.accounted_notify .setup) fun _ => accounted_bind hfiles fun _ => ?_
  exact accounted_bind (c.accounted_notify .finish) fun _ => hverdict

/-- Whatever the program, the extensions and their answers: in a check that is not aborted every
mistake that is left unhandled is followed at once by its one report, and the findings about mistakes
are exactly those reports, in order. -/
theorem check_reports_unhandled (p : Program) (memory : μ) (h : (c.check p).finishes { memory }) :
    let s := (c.check p).after { memory }
    let findings := s.verdict.findings.diagnostics
    c.check p { memory } = .ok s.verdict s ∧ Accounted s.journal.toList ∧
      findings = s.reports ∧ mistakesReported findings = mistakesUnhandled s.journal.toList := by
  obtain ⟨outcome, hrun⟩ := exists_of_finishes h
  have hfindings := ((c.gradual_check p).state { memory }).keep Change.findings_eq rfl
  generalize (c.check p).after { memory } = s at hrun hfindings ⊢
  obtain ⟨events, hjournal, haccounted⟩ := c.accounted_check p _ _ _ hrun
  obtain rfl : s.journal.toList = events := hjournal
  have hsame : s.verdict.findings.diagnostics = s.reports := by
    rw [← hfindings, verdict]
    cases s.findings.hasErrors <;> rfl
  refine ⟨c.eq_verdict_of_check hrun ▸ hrun, haccounted, hsame, ?_⟩
  show mistakesReported s.verdict.findings.diagnostics = _
  rw [hsame]
  exact haccounted.mistakes

end Checker

/-- Two variables that nobody declared, in one expression. -/
def strayNames : Program :=
  let name (role : Role) (start : Nat) : Node :=
    .mk { role, kind := .identifier, start, stop := start + 1, hasSymbol := false } []
  let sum := Node.bare .binaryExpression (.other "statements*") [name .left 0, name .right 2]
  ⟨[⟨0, "stray.ts", "", .bare .sourceFile (.other "") [sum], []⟩]⟩

/-- An extension that takes care of operands on the left, and has something to say about every one. -/
def caresForLeft : Checker Unit Unit where
  extensions := [.done ()]
  behaviour
    | _, .ask (.unresolvedVariable name) =>
        .request (.reportError "an operand" name) fun _ => .done (name.node.role = .left)
    | _, call => Behaviour.neutral call
  label _ := .anonymous
  limit := 1

/-- Of the three findings one is about a mistake, the operand on the right. -/
theorem check_reports_unhandled_strayNames :
    let run := caresForLeft.check strayNames
    let s := run.after { memory := () }
    run.finishes { memory := () } ∧ s.verdict.findings.diagnostics.length = 3 ∧
      (mistakesUnhandled s.journal.toList).length = 1 ∧ Accounted s.journal.toList ∧
        mistakesReported s.verdict.findings.diagnostics = mistakesUnhandled s.journal.toList := by
  have hfinishes : (caresForLeft.check strayNames).finishes { memory := () } := by decide +kernel
  obtain ⟨-, haccounted, -, hreported⟩ :=
    caresForLeft.check_reports_unhandled strayNames () hfinishes
  exact ⟨hfinishes, by decide +kernel, by decide +kernel, haccounted, hreported⟩

end ExtensibleCheck
