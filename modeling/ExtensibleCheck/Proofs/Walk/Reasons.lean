import ExtensibleCheck.Proofs.Session.Abreast
import ExtensibleCheck.Proofs.Session.Hearings
import ExtensibleCheck.Proofs.Walk.Steps

/-! How the entries of a journal come about. An extension is consulted because a hook is used, the use of a
hook is settled as it was dispatched, and a method that the compiler did not resolve is selected because
it was the only one that was supplied or left. All this can be told from the entries before. -/

namespace ExtensibleCheck

variable {ι μ : Type}

/-- The journal has grown, and `P` holds of each new entry after those before it. -/
def SessionState.Continues (P : List (Event ι) → Event ι → Prop) (s t : SessionState ι μ) : Prop :=
  ∃ events, t.journal.toList = s.journal.toList ++ events ∧
    ∀ first e rest, events = first ++ e :: rest → P (s.journal.toList ++ first) e

namespace SessionState

variable {P : List (Event ι) → Event ι → Prop} {s t : SessionState ι μ}

instance : IsPreorder (SessionState ι μ) (Continues P) where
  refl s := ⟨[], (List.append_nil _).symm, fun _ _ _ h => nomatch (List.append_eq_nil_iff.mp h.symm).2⟩
  trans := by
    rintro r s t ⟨events, hs, hP⟩ ⟨events', ht, hP'⟩
    refine ⟨events ++ events', by rw [ht, hs, List.append_assoc], fun first e rest hsplit => ?_⟩
    -- The entry is one of the first stretch, or one of the second.
    rcases List.append_eq_append_iff.mp hsplit with ⟨more, rfl, hlater⟩ | ⟨more, rfl, hmore⟩
    · have hlast := hP' more e rest hlater
      rwa [hs, List.append_assoc] at hlast
    · cases more with
      | nil =>
          have hlast := hP' [] e rest hmore.symm
          rwa [hs, List.append_nil, List.append_nil] at hlast
      | cons e' more =>
          obtain ⟨rfl, -⟩ := List.cons.inj hmore
          exact hP first e more rfl

/-- Entries of which `P` holds after anything that goes on from here. -/
theorem continues_of_wrote {Q : Event ι → Prop} (h : Wrote Q s t)
    (hQ : ∀ e past, Q e → s.journal.toList <+: past → P past e) : Continues P s t := by
  obtain ⟨events, ht, hevents⟩ := h
  refine ⟨events, ht, ?_⟩
  rintro first e rest rfl
  exact hQ e _ (hevents e (by simp)) (List.prefix_append _ _)

theorem continues_record {e : Event ι} (h : P s.journal.toList e) : Continues P s (s.record e) := by
  refine ⟨[e], Array.toList_push, fun first e' rest hsplit => ?_⟩
  obtain ⟨rfl, rfl, rfl⟩ : first = [] ∧ e = e' ∧ rest = [] := by
    cases first <;> simp_all
  rwa [List.append_nil]

theorem Continues.holds {memory : μ} (h : Continues P { memory } t) {past rest : List (Event ι)}
    {e : Event ι} (hsplit : t.journal.toList = past ++ e :: rest) : P past e := by
  obtain ⟨events, ht, hevents⟩ := h
  exact hevents past e rest (ht.symm.trans hsplit)

end SessionState

/-- Whether an entry says all there is to say. -/
def Event.isPlainFact : Event ι → Bool
  | consulted _ _ | settled _ _ | selected _ _ => false
  | _ => true

theorem Event.isPlainFact_of_isRequest {e : Event ι} (h : e.isRequest) : e.isPlainFact := by
  cases e with
  | consulted | settled | selected => cases h
  | _ => rfl

open Run Session SessionState

namespace Checker

variable [DecidableEq ι] (c : Checker ι μ)

/-- Why a method may be selected for a call after some events: because it is the only one that the
extensions have just supplied, or the only one that is left after they had several to choose from. -/
inductive Chosen (call : Occurrence) (target : Candidate CheckedType) : List (Event ι) → Prop
  | supplied {before : List (Event ι)} {missing : MissingMethod Occurrence CheckedType} :
      missing.call = call → Chosen call target (before ++ [.settled (.contribute missing) [target]])
  | left {before : List (Event ι)} {found : List (Candidate CheckedType)} : 1 < found.length →
      Chosen call target (before ++ [.settled (.narrow found call) [target]])

/-- What the entries before an entry tell about it. -/
def Explains (past : List (Event ι)) : Event ι → Prop
  | .consulted _ use => ∃ call registry, use.BelongsTo call ∧ .raised call registry ∈ past
  | .settled call answer => ∃ s t : SessionState ι μ,
      c.dispatcher.dispatch call (s.record (.raised call s.registry)) = .ok answer t ∧
        t.journal.toList = past
  | .selected call target => target.synthetic → Chosen call target past
  | _ => True

/-- Whatever a run enters is explained by the entries before it. -/
abbrev IsExplained {α : Type} (m : Session ι μ α) : Prop := Keeps (Continues c.Explains) (fun _ => True) m

variable {c}

theorem explains_of_isPlainFact {e : Event ι} (h : e.isPlainFact) (past : List (Event ι)) :
    c.Explains past e := by
  cases e with
  | consulted | settled | selected => cases h
  | _ => trivial

theorem explained_of_writes {α : Type} {m : Session ι μ α} (h : Writes (fun e => e.isPlainFact = true) m) :
    c.IsExplained m :=
  h.mono (fun hwrote => continues_of_wrote hwrote fun _ past hfact _ =>
    explains_of_isPlainFact hfact past) id

theorem explained_report (code : Code) (message : String) (o : Occurrence) :
    c.IsExplained (report code message o) :=
  explained_of_writes (writes_report rfl)

theorem explained_run {α : Type} (action : SessionAction ι μ α) :
    c.IsExplained (action.run serve) :=
  explained_of_writes ((requests_run action).mono
    (fun hwrote => hwrote.mono fun _ => Event.isPlainFact_of_isRequest) id)

/-- Whoever is consulted in the course of a dispatch is consulted on what is dispatched. -/
theorem explained_dispatch (call : HookCall Occurrence CheckedType) (registry : Registry ι (List ι)) :
    Writes (fun e => ∀ past, .raised call registry ∈ past → c.Explains past e)
      (c.dispatcher.dispatch call) := by
  have hfact {e : Event ι} (h : e.isPlainFact) (past : List (Event ι)) (_ : .raised call registry ∈ past) :
      c.Explains past e :=
    explains_of_isPlainFact h past
  have hsay (line : String) : Writes (fun e => ∀ past, .raised call registry ∈ past → c.Explains past e)
      (c.dispatcher.say line) :=
    Keeps.ite (writes_record (hfact rfl)) (Keeps.pure ())
  refine Dispatcher.keeps_dispatch_of_consultations (fun e use huse => ?_) hsay trivial
  refine writes_invoke (fun past hraised => ⟨call, registry, huse, hraised⟩) fun event hrequest => ?_
  exact hfact (Event.isPlainFact_of_isRequest hrequest)

theorem explained_raise (call : HookCall Occurrence CheckedType) :
    c.IsExplained (c.raise call) := by
  refine ⟨fun s => ?_, fun _ => trivial⟩
  have hbegun : Continues c.Explains s (s.record (.raised call s.registry)) :=
    continues_record (e := .raised call s.registry) trivial
  have hdispatched : Continues c.Explains (s.record (.raised call s.registry))
      ((c.dispatcher.dispatch call).after (s.record (.raised call s.registry))) := by
    refine continues_of_wrote ((explained_dispatch call s.registry).state _) fun e past he hpast => ?_
    refine he past (hpast.subset ?_)
    rw [journal_record]
    exact List.mem_append_right _ (List.mem_singleton_self _)
  rw [after, c.raise_apply]
  cases hrun : c.dispatcher.dispatch call (s.record (.raised call s.registry)) with
  | error halt t =>
      rw [after_of_error hrun] at hdispatched
      rw [bind_of_error hrun]
      exact trans_of (Continues c.Explains) hbegun hdispatched
  | ok answer t =>
      rw [after_of_ok hrun] at hdispatched
      rw [bind_of_ok hrun]
      have hsettled : Continues c.Explains t (t.record (.settled call answer)) :=
        continues_record ⟨s, t, hrun, rfl⟩
      exact trans_of (Continues c.Explains) (trans_of (Continues c.Explains) hbegun hdispatched) hsettled

/-- A selection is explained if the entries before it do. -/
theorem explained_select {call : Occurrence} {target : Candidate CheckedType} {s : SessionState ι μ}
    (h : c.Explains s.journal.toList (.selected call target)) :
    Continues c.Explains s ((c.select call target).after s) := by
  have hselected : Continues c.Explains s ((s.selecting call target).record (.selected call target)) :=
    continues_record (s := s.selecting call target) h
  have htold := (explained_raise (c := c) (.notify (.methodSelection call target))).state
    ((s.selecting call target).record (.selected call target))
  exact trans_of (Continues c.Explains) hselected htold

/-- What the compiler resolved needs no explanation. -/
theorem explained_resolved {call : Occurrence} {target : Candidate CheckedType}
    (h : target.synthetic = false) : c.IsExplained (c.select call target) := by
  refine ⟨fun s => explained_select fun hsynthetic => ?_, fun _ => trivial⟩
  rw [h] at hsynthetic
  cases hsynthetic

/-- The use of a hook that comes to an answer ends with being settled. -/
theorem exists_settled {call : HookCall Occurrence CheckedType} {answer : call.Answer}
    {s t : SessionState ι μ} (h : c.raise call s = .ok answer t) :
    ∃ before, t.journal.toList = before ++ [.settled call answer] := by
  obtain ⟨events, -, hspec⟩ := c.raise_spec call s
  rw [h] at hspec
  exact ⟨s.journal.toList ++ .raised call s.registry :: events, by simp [hspec.2]⟩

end Checker

namespace Visitor

variable [DecidableEq ι] {v : Visitor ι μ}

/-- A method is chosen from the candidates that were just supplied or left. -/
theorem explained_choose {call name : Occurrence} {receiver : CheckedType} {types : List CheckedType}
    {chosen : List (Candidate CheckedType)} {s : SessionState ι μ}
    (h : ∀ target, chosen = [target] → Checker.Chosen call target s.journal.toList) :
    Continues v.checker.Explains s ((v.choose call name receiver types chosen).after s) := by
  have hreport (code : Code) (message : String) :
      Continues v.checker.Explains s ((report code message name).after s) :=
    (Checker.explained_report code message name).state s
  rcases chosen with _ | ⟨target, _ | ⟨other, rest⟩⟩
  · exact hreport _ _
  · exact Checker.explained_select fun _ => h target rfl
  · exact hreport _ _

variable (v)

theorem explained_supply (call name : Occurrence) (receiver : CheckedType) (arguments : List Occurrence)
    (types : List CheckedType) :
    v.checker.IsExplained (v.supply call name receiver arguments types) := by
  refine Keeps.bind_of_ok (Checker.explained_raise _) fun {s found t} hsupplied => ?_
  obtain ⟨before, ht⟩ := Checker.exists_settled hsupplied
  by_cases hseveral : 1 < found.length
  · simp only [if_pos hseveral]
    have hnarrowed : v.checker.IsExplained
        (v.checker.raise (.narrow found call) >>= v.choose call name receiver types) := by
      refine Keeps.bind_of_ok (Checker.explained_raise _) fun {_ left r} hleft => ?_
      obtain ⟨before', hr⟩ := Checker.exists_settled hleft
      refine explained_choose fun target hone => ?_
      subst hone
      exact hr ▸ .left hseveral
    exact hnarrowed.state t
  · simp only [if_neg hseveral]
    refine explained_choose fun target hone => ?_
    subst hone
    exact ht ▸ .supplied rfl

end Visitor

namespace Checker

variable [DecidableEq ι] (c : Checker ι μ)

theorem explained_provided (closure : Occurrence) : c.IsExplained (c.provided closure) := by
  rw [provided]
  cases c.localExtensions with
  | none => exact Keeps.pure []
  | some provide => exact explained_run (provide closure)

theorem explained_localExtensionsFor (closure : Occurrence) :
    c.IsExplained (c.localExtensionsFor closure) := by
  have hbrought (extensions : List ι) : c.IsExplained (record (.brought closure extensions)) :=
    explained_of_writes (writes_record rfl)
  rw [localExtensionsFor_eq]
  exact (c.explained_provided closure).bind fun extensions =>
    (hbrought extensions).bind fun _ => Keeps.pure extensions

theorem isHandedThrough_isExplained : IsHandedThrough fun _ m => c.IsExplained m :=
  .ofKeeps fun s _ => refl_of (Continues c.Explains) s

theorem explained_say (line : String) : c.IsExplained (c.dispatcher.say line) := by
  have hprint : c.IsExplained (print line) := explained_of_writes (writes_record rfl)
  exact hprint.ite (Keeps.pure ())

theorem explained_visitor (file : SourceFile) : (c.visitor file).Composes fun _ m => c.IsExplained m where
  toIsHandedOn := c.isHandedThrough_isExplained.toIsHandedOn
  say line := c.explained_say line
  typeOf _ _ := explained_of_writes (writes_typeOf fun _ => rfl)
  hasStored _ _ := explained_of_writes (writes_hasStored fun _ => rfl)
  report := explained_report
  raise call _ := explained_raise call
  enclosed := fun closure _ =>
    Visitor.enclosed_has c.isHandedThrough_isExplained c.explained_localExtensionsFor closure
  select _ _ _ _ hresolved := explained_resolved hresolved
  supply call name receiver arguments types _ _ :=
    (c.visitor file).explained_supply call name receiver arguments types

/-- However a check ends, every entry of its journal is explained by those before it. -/
theorem explained_check (p : Program) (memory : μ) {past rest : List (Event ι)} {e : Event ι}
    (hsplit : ((c.check p).after { memory }).journal.toList = past ++ e :: rest) : c.Explains past e := by
  have hregister (extension : ι) : c.IsExplained (register extension) :=
    explained_of_writes (writes_change (fun _ => rfl) rfl)
  have hall : c.IsExplained (c.check p) :=
    check_has c.isHandedThrough_isExplained.toIsHandedOn (fun create _ => explained_run create) hregister
      (fun notice _ => explained_raise (.notify notice)) (fun file _ => c.explained_visitor file) Keeps.get
  exact (hall.state { memory }).holds hsplit

end Checker

end ExtensibleCheck
