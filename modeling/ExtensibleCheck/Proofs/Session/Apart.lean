import ExtensibleCheck.Proofs.Session.Answers
import ExtensibleCheck.Proofs.Session.Convoy
import ExtensibleCheck.Proofs.Walk.Pace
import ExtensibleCheck.Proofs.Walk.Steps

/-! Sessions apart. One session may know more than another, as long as nothing of that concerns the file
that is visited in both. If all that the extensions do is to answer, then neither they nor the checker
can tell the difference: the visits go abreast, and each of them adds the same. -/

namespace ExtensibleCheck

/-- The first of two maps has what was there before, of which nothing concerns a file, and then what the
other one has, of which everything does. -/
structure OrderedMap.Apart {α : Type} (number : Nat) (before m m' : OrderedMap NodeId α) : Prop where
  entries : m.entries = before.entries ++ m'.entries
  others : ∀ id ∈ before.keys, id.file ≠ number
  own : ∀ id ∈ m'.keys, id.file = number

namespace OrderedMap.Apart

variable {α : Type} {number : Nat} {before m m' : OrderedMap NodeId α} (h : Apart number before m m')
  {id : NodeId} (hid : id.file = number)

include h hid

theorem notMem_before : id ∉ before.entries.map (·.1) := fun hmem => h.others id hmem hid

theorem get?_eq : m.get? id = m'.get? id := by
  rw [get?, get?, h.entries, find?_append_of_notMem (h.notMem_before hid)]

theorem insert (value : α) : Apart number before (m.insert id value) (m'.insert id value) := by
  refine ⟨?_, h.others, fun key hkey => ?_⟩
  · calc put id value m.entries
        = put id value (before.entries ++ m'.entries) := by rw [h.entries]
      _ = before.entries ++ put id value m'.entries := put_append (h.notMem_before hid) value _
  · rw [keys_insert] at hkey
    by_cases hknown : id ∈ m'.keys
    · rw [if_pos hknown] at hkey
      exact h.own key hkey
    · rw [if_neg hknown] at hkey
      rcases List.mem_append.mp hkey with hold | hnew
      · exact h.own key hold
      · rwa [List.mem_singleton.mp hnew]

end OrderedMap.Apart

namespace SessionState

variable {ι μ : Type}

/-- The same of two sessions, which have the same extensions. -/
structure Apart (number : Nat) (before s s' : SessionState ι μ) : Prop where
  registry : s.registry = s'.registry
  stored : before.stored.Apart number s.stored s'.stored
  targets : before.targets.Apart number s.targets s'.targets
  findings : s.findings.diagnostics = before.findings.diagnostics ++ s'.findings.diagnostics

variable {number : Nat} {before s s' : SessionState ι μ}

theorem Apart.record (h : Apart number before s s') (e : Event ι) :
    Apart number before (s.record e) (s'.record e) :=
  ⟨h.registry, h.stored, h.targets, h.findings⟩

theorem Apart.leaving (h : Apart number before s s') (scopes : List (List ι)) :
    Apart number before (s.leaving scopes) (s'.leaving scopes) :=
  ⟨by rw [SessionState.leaving, SessionState.leaving, h.registry], h.stored, h.targets, h.findings⟩

theorem Apart.selecting (h : Apart number before s s') {call : Occurrence}
    (hcall : call.file.number = number) (target : Candidate CheckedType) :
    Apart number before (s.selecting call target) (s'.selecting call target) := by
  refine ⟨h.registry, ?_, h.targets.insert hcall target, h.findings⟩
  cases hreturns : target.returns with
  | none => simpa only [SessionState.selecting, hreturns] using h.stored
  | some type => simpa only [SessionState.selecting, hreturns] using h.stored.insert hcall (some type)

end SessionState

open Run Session SessionState

namespace Session

variable {ι μ : Type} {number : Nat} {before : SessionState ι μ}

theorem record_apart (e : Event ι) :
    Abreast (μ := μ) .never (Apart number before) Eq (record e) (record e) :=
  .record fun h => h.record e

theorem typeOf_apart {o : Occurrence} (ho : o.file.number = number) :
    Abreast .never (Apart number before) Eq (typeOf o) (typeOf o) := by
  refine ⟨(quiet_typeOf o).grows, (quiet_typeOf o).grows, fun {s s'} h => .inr ?_⟩
  have hsame : s.typeOf o = s'.typeOf o := by
    rw [SessionState.typeOf, SessionState.typeOf, OrderedMap.getD, OrderedMap.getD, h.stored.get?_eq ho]
  have hentry := h.record (.lookedUp o (s.typeOf o))
  refine ⟨hsame, ?_⟩
  rwa [hsame] at hentry ⊢

theorem hasStored_apart {o : Occurrence} (ho : o.file.number = number) :
    Abreast .never (Apart number before) Eq (hasStored o) (hasStored o) := by
  refine ⟨(quiet_hasStored o).grows, (quiet_hasStored o).grows, fun {s s'} h => .inr ?_⟩
  have hsame : s.hasStored o = s'.hasStored o := by
    rw [SessionState.hasStored, SessionState.hasStored, OrderedMap.contains, OrderedMap.contains,
      h.stored.get?_eq ho]
  have hentry := h.record (.probed o (s.hasStored o))
  refine ⟨hsame, ?_⟩
  rwa [hsame] at hentry ⊢

theorem report_apart (code : Code) (message : String) (o : Occurrence) :
    Abreast .never (Apart number before) Eq (report code message o) (report code message o) := by
  refine ⟨(quiet_report code message o).grows, (quiet_report code message o).grows, fun {s s'} h => .inr ?_⟩
  refine ⟨rfl, h.registry, h.stored, h.targets, ?_⟩
  calc s.findings.diagnostics ++ [_]
      = before.findings.diagnostics ++ s'.findings.diagnostics ++ [_] := by rw [h.findings]
    _ = before.findings.diagnostics ++ (s'.findings.diagnostics ++ [_]) := List.append_assoc ..

/-- Runs that go abreast are handed on, if scopes do not matter to the relation. -/
theorem IsHandedThrough.ofAbreast {E : Excuse ι} {R : SessionState ι μ → SessionState ι μ → Prop}
    (hscopes : ∀ {s s'}, R s s' → s.registry.scopes = s'.registry.scopes)
    (hleaving : ∀ {s s'} scopes, R s s' → R (s.leaving scopes) (s'.leaving scopes)) :
    IsHandedThrough fun _ m => Abreast E R Eq m m where
  pure _ := .pure rfl
  bind := Abreast.andThen
  inScope extensions h hbody := h.inScope hscopes hleaving hbody hbody extensions

end Session

namespace Checker

variable {ι μ : Type}

/-- All that the extensions of a checker and its provider do is to answer, by what they are asked and
nothing else. -/
structure OnlyAnswers (c : Checker ι μ) (answers : Answers ι Occurrence CheckedType) : Prop where
  extensions : ∃ es : List ι, c.extensions = es.map .done
  behaviour : ∀ e call, c.behaviour e call = .done (answers e call)
  provider : ∀ provide, c.localExtensions = some provide →
    ∀ closure, ∃ extensions, provide closure = .done extensions

/-- The extensions that a closure brings along, if the provider is done as soon as it is asked. -/
def broughtBy (c : Checker ι μ) (closure : Occurrence) : List ι :=
  match c.localExtensions with
  | none => []
  | some provide => match provide closure with
    | .done extensions => extensions
    | _ => []

variable [DecidableEq ι]

namespace OnlyAnswers

variable {c : Checker ι μ} {answers : Answers ι Occurrence CheckedType} (h : c.OnlyAnswers answers)

include h

/-- What a closure brings along is only entered. -/
theorem localExtensionsFor_eq_record (closure : Occurrence) : c.localExtensionsFor closure = do
    record (.brought closure (c.broughtBy closure))
    return c.broughtBy closure := by
  rw [localExtensionsFor_eq, provided, broughtBy]
  cases hprovider : c.localExtensions with
  | none => rfl
  | some provide =>
      obtain ⟨extensions, hdone⟩ := h.provider provide hprovider closure
      simp only [hdone]
      rfl

/-- Where the registry is the same, extensions answer the same. -/
theorem raise_abreast {R : SessionState ι μ → SessionState ι μ → Prop}
    (hregistry : ∀ {s s'}, R s s' → s.registry = s'.registry)
    (hrecord : ∀ {s s'} (e : Event ι), R s s' → R (s.record e) (s'.record e))
    (call : HookCall Occurrence CheckedType) : Abreast .never R Eq (c.raise call) (c.raise call) := by
  have hentry (e : Event ι) : Abreast .never R Eq (record e) (record e) := .record (hrecord e)
  refine raise_inStep rfl rfl hregistry (fun e _ => hentry e) (fun line => ?_) (fun e use => ?_) call
  · exact .ite (fun _ => hentry (.printed line)) fun _ => .pure rfl
  · refine (hentry (.consulted e use)).andThen fun _ => ?_
    rw [h.behaviour]
    exact .pure rfl

theorem localExtensionsFor_apart {number : Nat} {before : SessionState ι μ} (closure : Occurrence) :
    Abreast .never (Apart number before) Eq (c.localExtensionsFor closure)
      (c.localExtensionsFor closure) := by
  rw [h.localExtensionsFor_eq_record]
  exact (record_apart _).andThen fun _ => .pure rfl

theorem apart_visitor (file : SourceFile) (before : SessionState ι μ) : (c.visitor file).Composes
    fun _ m => Abreast .never (Apart file.number before) Eq m m := by
  have hraise (call : HookCall Occurrence CheckedType) :
      Abreast .never (Apart file.number before) Eq (c.raise call) (c.raise call) :=
    h.raise_abreast (·.registry) (fun e hapart => hapart.record e) call
  have hthrough : IsHandedThrough
      fun _ (m : Session ι μ _) => Abreast .never (Apart file.number before) Eq m m :=
    .ofAbreast (fun hapart => by rw [hapart.registry]) fun scopes hapart => hapart.leaving scopes
  have hsteps : (c.visitor file).Steps
      fun _ m => Abreast .never (Apart file.number before) Eq m m := {
    toIsHandedOn := hthrough.toIsHandedOn
    say := fun line => .ite (fun _ => record_apart (.printed line)) fun _ => .pure rfl
    typeOf := fun _ ho => typeOf_apart (congrArg SourceFile.number ho)
    hasStored := fun _ ho => hasStored_apart (congrArg SourceFile.number ho)
    report := report_apart
    raise := fun call _ => hraise call
    enclosed := fun closure _ => Visitor.enclosed_has hthrough h.localExtensionsFor_apart closure }
  refine hsteps.composes fun call target hfile _ => ?_
  have hselecting : Abreast .never (Apart file.number before) Eq
      (modify (·.selecting call target) : Session ι μ Unit) (modify (·.selecting call target)) :=
    .change (fun _ => rfl) (fun _ => rfl) fun hapart =>
      hapart.selecting (congrArg SourceFile.number hfile) target
  exact hselecting.andThen fun _ => (record_apart _).andThen fun _ =>
    hraise (.notify (.methodSelection call target))

/-- Visits to a file from sessions that are apart. -/
theorem visitFile_apart (file : SourceFile) {before s s' : SessionState ι μ}
    (hapart : Apart file.number before s s') :
    Agree (Apart file.number before) Eq (c.visitFile file s) (c.visitFile file s') :=
  ((visitFile_has (h.apart_visitor file before)).ends hapart).resolve_left id

end OnlyAnswers

end Checker

end ExtensibleCheck
