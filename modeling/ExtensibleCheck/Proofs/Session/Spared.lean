import ExtensibleCheck.Proofs.Session.Beside

/-! Reports and what they are about. A report either says which mistake was left unhandled right before
it, or it is about something else. If somebody takes care of some mistakes, then of the reports so far
those are left that are not about any of these. -/

namespace ExtensibleCheck

/-- The mistake that an event leaves unhandled. -/
def Event.leavesUnhandled? {ι : Type} : Event ι → Option (Question Occurrence CheckedType)
  | settled (.ask question) handled =>
    if handled || question.mistake?.isNone then none else some question
  | _ => none

/-- The reports among some events, each with the mistake that was left unhandled right before it. -/
def reportsWithCause {ι : Type} : Option (Question Occurrence CheckedType) → List (Event ι) →
    List (Option (Question Occurrence CheckedType) × Diagnostic)
  | _, [] => []
  | cause, e :: rest =>
    (e.report?.map fun d => (cause, d)).toList ++ reportsWithCause e.leavesUnhandled? rest

/-- The mistake that was left unhandled last, if nothing happened since. -/
def lastCause {ι : Type} : Option (Question Occurrence CheckedType) → List (Event ι) →
    Option (Question Occurrence CheckedType)
  | cause, [] => cause
  | _, e :: rest => lastCause e.leavesUnhandled? rest

/-- Whether a report says what the mistake is and where, if there is one. -/
def Justified (cause : Option (Question Occurrence CheckedType)) (d : Diagnostic) : Prop :=
  match cause with
  | none => d.code.isAsideFromMistakes
  | some question => ∃ code place, question.mistake? = some (code, place) ∧
      d.heading = (code, .error, some place.location)

section

variable {ι : Type} {cause : Option (Question Occurrence CheckedType)} {events rest : List (Event ι)}

theorem reportsWithCause_append : reportsWithCause cause (events ++ rest) =
    reportsWithCause cause events ++ reportsWithCause (lastCause cause events) rest := by
  induction events generalizing cause with
  | nil => rfl
  | cons e events ih => rw [List.cons_append, reportsWithCause, reportsWithCause, ih, lastCause,
      List.append_assoc]

theorem lastCause_append :
    lastCause cause (events ++ rest) = lastCause (lastCause cause events) rest := by
  induction events generalizing cause with
  | nil => rfl
  | cons e events ih => exact ih

theorem map_reportsWithCause :
    (reportsWithCause cause events).map (·.2) = events.filterMap Event.report? := by
  induction events generalizing cause with
  | nil => rfl
  | cons e events ih =>
      rw [reportsWithCause, List.map_append, ih, List.filterMap_cons]
      cases e.report? <;> rfl

/-- Where nothing is reported, nothing is reported with a cause. -/
theorem reportsWithCause_of_silent (h : ∀ e ∈ events, e.report? = none) :
    reportsWithCause cause events = [] := by
  refine List.map_eq_nil_iff.mp (map_reportsWithCause.trans ?_)
  exact List.filterMap_eq_nil_iff.mpr h

theorem lastCause_concat (e : Event ι) : lastCause cause (events ++ [e]) = e.leavesUnhandled? := by
  rw [lastCause_append]
  rfl

end

theorem Event.leavesUnhandled?_of_isPlain {ι : Type} {e : Event ι} (h : e.isPlain) :
    e.leavesUnhandled? = none := by
  cases e with
  | settled call answer =>
      cases call with
      | ask question => exact if_pos h
      | _ => rfl
  | _ => rfl

/-- The account after events that report nothing. -/
def Account.note {ι : Type} (a : Account ι) (events : List (Event ι)) : Account ι :=
  ⟨a.findings, a.journal ++ events⟩

/-- What is found in an account, and what of it is left to be found if somebody takes care of some
mistakes: all but the reports of those. `cause` is what is to be reported next, if anything. -/
structure Account.Spared {ι : Type} (claims : Question Occurrence CheckedType → Bool)
    (cause : Option (Question Occurrence CheckedType)) (a : Account ι) (left : Collector) : Prop where
  pending : lastCause none a.journal = cause
  justified : ∀ r ∈ reportsWithCause none a.journal, Justified r.1 r.2
  found : a.findings.diagnostics = (reportsWithCause none a.journal).map (·.2)
  spared : left.diagnostics =
    ((reportsWithCause none a.journal).filter fun r => !r.1.any claims).map (·.2)

namespace Account.Spared

variable {ι : Type} {claims : Question Occurrence CheckedType → Bool}
  {cause : Option (Question Occurrence CheckedType)} {a : Account ι} {left : Collector}

/-- Where nothing has happened, nothing is left to be found. -/
theorem initial : (⟨{}, []⟩ : Account ι).Spared claims none {} := by
  refine ⟨rfl, fun r hr => ?_, rfl, rfl⟩
  cases hr

theorem note (h : a.Spared claims cause left) {events : List (Event ι)}
    (hsilent : ∀ e ∈ events, e.report? = none) :
    (a.note events).Spared claims (lastCause cause events) left := by
  have hreports : reportsWithCause none (a.journal ++ events) = reportsWithCause none a.journal := by
    rw [reportsWithCause_append, reportsWithCause_of_silent hsilent, List.append_nil]
  refine ⟨?_, ?_, ?_, ?_⟩
  · rw [← h.pending, Account.note, lastCause_append]
  · rw [Account.note, hreports]
    exact h.justified
  · rw [Account.note, hreports]
    exact h.found
  · rw [Account.note, hreports]
    exact h.spared

theorem reports_enter (h : a.Spared claims cause left) (d : Diagnostic) :
    reportsWithCause none (a.enter (.reported d)).journal =
      reportsWithCause none a.journal ++ [(cause, d)] := by
  rw [Account.enter, reportsWithCause_append, h.pending]
  rfl

/-- The report of what is pending goes away if somebody takes care of it. -/
theorem report (h : a.Spared claims cause left) {d : Diagnostic} (hd : Justified cause d) :
    (a.enter (.reported d)).Spared claims none
      (if cause.any claims then left else left.add d) := by
  have hreports := h.reports_enter d
  refine ⟨lastCause_concat _, fun r hr => ?_, ?_, ?_⟩
  · rw [hreports] at hr
    rcases List.mem_append.mp hr with hr | hr
    · exact h.justified r hr
    · cases List.mem_singleton.mp hr
      exact hd
  · rw [hreports, List.map_append, ← h.found]
    rfl
  · rw [hreports, List.filter_append, List.map_append, ← h.spared]
    by_cases hclaims : cause.any claims = true <;> simp [hclaims]

end Account.Spared

theorem admits_spared {ι : Type} (claims : Question Occurrence CheckedType → Bool) :
    Admits (fun a a' : Account ι => a.Spared claims none a'.findings) fun e => e.isPlain = true := by
  intro a a' e he h
  cases hreport : e.report? with
  | none =>
      have hnote : (a.note [e]).Spared claims (lastCause none [e]) a'.findings :=
        h.note (by simpa using hreport)
      rw [lastCause, lastCause, Event.leavesUnhandled?_of_isPlain he] at hnote
      simpa [Account.enter, Account.note, hreport] using hnote
  | some d =>
      obtain rfl : e = .reported d := by
        cases e with
        | reported => cases hreport; rfl
        | _ => cases hreport
      exact h.report he

theorem admits_spared_deed {ι : Type} (claims : Question Occurrence CheckedType → Bool) :
    Admits (fun a a' : Account ι => a.Spared claims none a'.findings) fun e => e.isDeed = true := by
  refine fun e he => admits_spared claims e ?_
  cases e with
  | reported d =>
      have hcode : d.code = .extensionError := of_decide_eq_true he
      show d.code.isAsideFromMistakes = true
      rw [hcode]
      rfl
  | settled => cases he
  | _ => rfl

end ExtensibleCheck
