import ExtensibleCheck.Proofs.Session.Changes
import ExtensibleCheck.Proofs.Walk.Pace

/-! Sessions that know the same. Two sessions may differ in their registries and in what they have to show
for themselves, as long as the types stored, the methods selected and the memory of the extensions are
the same. Code of an extension cannot tell such sessions apart, so what it does goes abreast. -/

namespace ExtensibleCheck

/-- What a session has to show for itself: its findings and its journal. -/
structure Account (ι : Type) where
  findings : Collector
  journal : List (Event ι)

/-- The account after an event. What is reported is found. -/
def Account.enter {ι : Type} (a : Account ι) (e : Event ι) : Account ι :=
  ⟨e.report?.elim a.findings a.findings.add, a.journal ++ [e]⟩

namespace SessionState

variable {ι μ : Type}

def account (s : SessionState ι μ) : Account ι := ⟨s.findings, s.journal.toList⟩

theorem account_record (s : SessionState ι μ) {e : Event ι} (h : e.report? = none) :
    (s.record e).account = s.account.enter e := by
  simp [account, record, Account.enter, h]

theorem account_report (s : SessionState ι μ) (d : Diagnostic) :
    ({ s with findings := s.findings.add d }.record (.reported d)).account =
      s.account.enter (.reported d) := by
  simp [account, record, Account.enter, Event.report?]

/-- Two sessions that know the same, of which the registries are related by `G` and the accounts
by `K`. -/
structure Beside (G : Registry ι (List ι) → Registry ι (List ι) → Prop)
    (K : Account ι → Account ι → Prop) (s s' : SessionState ι μ) : Prop where
  stored : s.stored = s'.stored
  targets : s.targets = s'.targets
  memory : s.memory = s'.memory
  registry : G s.registry s'.registry
  account : K s.account s'.account

variable {G : Registry ι (List ι) → Registry ι (List ι) → Prop} {K : Account ι → Account ι → Prop}
  {s s' : SessionState ι μ}

theorem Beside.typeOf_eq (h : Beside G K s s') (o : Occurrence) : s.typeOf o = s'.typeOf o := by
  rw [typeOf, typeOf, h.stored]

theorem Beside.hasStored_eq (h : Beside G K s s') (o : Occurrence) :
    s.hasStored o = s'.hasStored o := by
  rw [hasStored, hasStored, h.stored]

theorem Beside.target?_eq (h : Beside G K s s') (call : Occurrence) :
    s.target? call = s'.target? call := by
  rw [target?, target?, h.targets]

theorem Beside.record (h : Beside G K s s') {e e' : Event ι} (he : e.report? = none)
    (he' : e'.report? = none) (hK : K (s.account.enter e) (s'.account.enter e')) :
    Beside G K (s.record e) (s'.record e') := by
  rw [← account_record s he, ← account_record s' he'] at hK
  exact ⟨h.stored, h.targets, h.memory, h.registry, hK⟩

/-- What happened in the meantime makes no difference, if it is nothing but what the accounts tell. -/
theorem Beside.since {L : Account ι → Account ι → Prop} (h : Beside G K s s')
    {t t' : SessionState ι μ} (ht : t = { s with journal := t.journal })
    (ht' : t' = { s' with journal := t'.journal }) (hL : L t.account t'.account) :
    Beside G L t t' := by
  refine ⟨?_, ?_, ?_, ?_, hL⟩ <;> rw [ht, ht']
  · exact h.stored
  · exact h.targets
  · exact h.memory
  · exact h.registry

end SessionState

/-- Whether an event neither leaves a mistake unhandled nor reports one. -/
def Event.isPlain {ι : Type} : Event ι → Bool
  | settled (.ask question) handled => handled || question.mistake?.isNone
  | reported d => d.code.isAsideFromMistakes
  | _ => true

/-- Accounts stay related when both enter the same event of a kind. -/
def Admits {ι : Type} (K : Account ι → Account ι → Prop) (P : Event ι → Prop) : Prop :=
  ∀ {a a'} (e : Event ι), P e → K a a' → K (a.enter e) (a'.enter e)

open Run Session SessionState

namespace Session

variable {ι μ α : Type} {E : Excuse ι} {G : Registry ι (List ι) → Registry ι (List ι) → Prop}
  {K : Account ι → Account ι → Prop} {P : Event ι → Prop}

theorem record_beside {e e' : Event ι} (he : e.report? = none) (he' : e'.report? = none)
    (hK : ∀ {a a'}, K a a' → K (a.enter e) (a'.enter e')) :
    Abreast E (Beside (μ := μ) G K) Eq (record e) (record e') :=
  .record fun h => h.record he he' (hK h.account)

/-- A change that the same event goes with on both sides. -/
theorem change_beside {f : SessionState ι μ → SessionState ι μ} {e : Event ι} (hK : Admits K P)
    (hP : P e) (he : e.report? = none) (hjournal : ∀ s, (f s).journal = s.journal)
    (hf : ∀ {s s'}, Beside G K s s' → Beside G K (f s) (f s')) :
    Abreast E (Beside G K) Eq (do modify f; record e) (do modify f; record e) :=
  (Abreast.change (R := Beside G K) hjournal hjournal hf).andThen fun _ => record_beside he he (hK e hP)

theorem typeOf_beside {o : Occurrence} (hK : Admits K P) (hP : ∀ type, P (.lookedUp o type)) :
    Abreast E (Beside (μ := μ) G K) Eq (typeOf o) (typeOf o) := by
  refine ⟨(quiet_typeOf o).grows, (quiet_typeOf o).grows, fun {s s'} h => .inr ?_⟩
  have hentry := h.record rfl rfl (hK _ (hP (s.typeOf o)) h.account)
  refine ⟨h.typeOf_eq o, ?_⟩
  rwa [h.typeOf_eq o] at hentry ⊢

theorem hasStored_beside {o : Occurrence} (hK : Admits K P) (hP : ∀ found, P (.probed o found)) :
    Abreast E (Beside (μ := μ) G K) Eq (hasStored o) (hasStored o) := by
  refine ⟨(quiet_hasStored o).grows, (quiet_hasStored o).grows, fun {s s'} h => .inr ?_⟩
  have hentry := h.record rfl rfl (hK _ (hP (s.hasStored o)) h.account)
  refine ⟨h.hasStored_eq o, ?_⟩
  rwa [h.hasStored_eq o] at hentry ⊢

theorem target?_beside {call : Occurrence} (hK : Admits K P)
    (hP : ∀ target, P (.recalled call target)) :
    Abreast E (Beside (μ := μ) G K) Eq (target? call) (target? call) := by
  refine ⟨(quiet_target? call).grows, (quiet_target? call).grows, fun {s s'} h => .inr ?_⟩
  have hentry := h.record rfl rfl (hK _ (hP (s.target? call)) h.account)
  refine ⟨h.target?_eq call, ?_⟩
  rwa [h.target?_eq call] at hentry ⊢

theorem report_beside {code : Code} {message : String} {o : Occurrence} (hK : Admits K P)
    (hP : P (.reported ⟨code, .error, message, some o.location⟩)) :
    Abreast E (Beside (μ := μ) G K) Eq (report code message o) (report code message o) := by
  refine ⟨(quiet_report code message o).grows, (quiet_report code message o).grows,
    fun {s s'} h => .inr ⟨rfl, h.stored, h.targets, h.memory, h.registry, ?_⟩⟩
  have hentry := hK _ hP h.account
  rwa [← account_report, ← account_report] at hentry

theorem store_beside {o : Occurrence} {type : Option CheckedType} (hK : Admits K P)
    (hP : P (.stored o type)) : Abreast E (Beside (μ := μ) G K) Eq (store o type) (store o type) := by
  refine change_beside hK hP rfl (fun _ => rfl) fun h => ?_
  exact ⟨by rw [h.stored], h.targets, h.memory, h.registry, h.account⟩

theorem selecting_beside {call : Occurrence} {target : Candidate CheckedType} (hK : Admits K P)
    (hP : P (.selected call target)) : Abreast E (Beside (μ := μ) G K) Eq
      (do modify (·.selecting call target); record (.selected call target))
      (do modify (·.selecting call target); record (.selected call target)) := by
  refine change_beside hK hP rfl (fun _ => rfl) fun h => ?_
  refine ⟨?_, by rw [selecting, selecting, h.targets], h.memory, h.registry, h.account⟩
  rw [selecting, selecting, h.stored]

theorem register_beside {extension : ι} (hK : Admits K P) (hP : P (.registered extension))
    (hG : ∀ {r r'}, G r r' → G (r.addGlobal (some extension)) (r'.addGlobal (some extension))) :
    Abreast E (Beside (μ := μ) G K) Eq (register extension) (register extension) := by
  refine change_beside hK hP rfl (fun _ => rfl) fun h => ?_
  exact ⟨h.stored, h.targets, h.memory, hG h.registry, h.account⟩

variable [DecidableEq ι]

theorem unregister_beside {extension : ι} (hK : Admits K P) (hP : P (.unregistered extension))
    (hG : ∀ {r r'}, G r r' → G (r.removeGlobal (some extension)) (r'.removeGlobal (some extension))) :
    Abreast E (Beside (μ := μ) G K) Eq (unregister extension) (unregister extension) := by
  refine change_beside hK hP rfl (fun _ => rfl) fun h => ?_
  exact ⟨h.stored, h.targets, h.memory, hG h.registry, h.account⟩

/-- An extension cannot tell sessions apart that know the same. Its requests are served alike if new
members of the registries do no harm, and former members do none either. -/
theorem serve_beside (hK : Admits K fun e => e.isDeed = true)
    (hregister : ∀ extension {r r'}, G r r' →
      G (r.addGlobal (some extension)) (r'.addGlobal (some extension)))
    (hunregister : ∀ extension,
      Abreast E (Beside (μ := μ) G K) Eq (unregister extension) (unregister extension))
    (r : Request ι Occurrence CheckedType μ Empty) :
    Abreast E (Beside G K) Eq (serve r) (serve r) := by
  cases r with
  | typeOf node => exact typeOf_beside hK fun _ => rfl
  | storeType node type => exact store_beside hK rfl
  | reportError message node => exact report_beside hK rfl
  | selectedMethod call => exact target?_beside hK fun _ => rfl
  | register extension => exact register_beside hK rfl (hregister extension)
  | unregister extension => exact hunregister extension
  | write line => exact record_beside rfl rfl (hK _ rfl)
  | readMemory =>
      have hgrows : Grows (serve .readMemory : Session ι μ μ) := Keeps.get.bind fun _ => Keeps.pure _
      exact ⟨hgrows, hgrows, fun h => .inr ⟨h.memory, h⟩⟩
  | writeMemory memory =>
      refine .change (fun _ => rfl) (fun _ => rfl) fun h => ?_
      exact ⟨h.stored, h.targets, rfl, h.registry, h.account⟩
  | perform request => exact nomatch request

end Session

namespace Checker

variable {ι μ : Type}

/-- The checker with other extensions in the beginning, which behave as they always do, and with another
limit. -/
def staffedWith (c : Checker ι μ) (extensions : List (SessionAction ι μ ι)) (limit : Nat) :
    Checker ι μ :=
  { c with extensions, limit }

variable [DecidableEq ι] {c c' : Checker ι μ} {E : Excuse ι}
  {G : Registry ι (List ι) → Registry ι (List ι) → Prop} {K : Account ι → Account ι → Prop}

/-- Checkers that are equally talkative say the same. -/
theorem say_beside (hverbose : c.verbose = c'.verbose) {line : String}
    (hK : ∀ {a a'}, K a a' → K (a.enter (.printed line)) (a'.enter (.printed line))) :
    Abreast E (Beside (μ := μ) G K) Eq (c.dispatcher.say line) (c'.dispatcher.say line) := by
  have hsame : c'.dispatcher.say line = c.dispatcher.say line :=
    congrArg (fun verbose => if verbose = true then print line else pure ()) hverbose.symm
  rw [hsame]
  exact .ite (fun _ => record_beside rfl rfl hK) fun _ => .pure rfl

/-- Two checkers keep pace in sessions that know the same, if they do so when they turn to the
extensions. -/
theorem keepsPace_beside
    (hsay : ∀ line, Abreast E (Beside (μ := μ) G K) Eq (c.dispatcher.say line) (c'.dispatcher.say line))
    (hlocal : c.localExtensions = c'.localExtensions) (hK : Admits K fun e => e.isPlain = true)
    (hserve : ∀ r, Abreast E (Beside (μ := μ) G K) Eq (serve r) (serve r))
    (hscopes : ∀ {r r'}, G r r' → r.scopes = r'.scopes)
    (hleaving : ∀ {r r' : Registry ι (List ι)} scopes, G r r' →
      G { r with scopes } { r' with scopes })
    (hraise : ∀ call, call.isMistake = false →
      Abreast E (Beside (μ := μ) G K) Eq (c.raise call) (c'.raise call))
    (hoffer : ∀ question code message place, question.mistake? = some (code, place) →
      Abreast E (Beside (μ := μ) G K) Eq
        (do unless ← c.raise (.ask question) do report code message place)
        (do unless ← c'.raise (.ask question) do report code message place)) :
    c.KeepsPace c' E (Beside G K) where
  say := hsay
  typeOf _ := typeOf_beside hK fun _ => rfl
  hasStored _ := hasStored_beside hK fun _ => rfl
  report _ _ _ hcode := report_beside hK hcode
  selecting _ _ := selecting_beside hK rfl
  raise := hraise
  offer := hoffer
  brought closure := by
    have hprovided : Abreast E (Beside G K) Eq (c.provided closure) (c'.provided closure) := by
      rw [provided, provided, hlocal]
      cases c'.localExtensions with
      | none => exact .pure rfl
      | some provide => exact .run hserve (provide closure)
    rw [localExtensionsFor_eq, localExtensionsFor_eq]
    exact hprovided.andThen fun _ => (record_beside rfl rfl (hK _ rfl)).andThen fun _ => .pure rfl
  scopes h := hscopes h.registry
  leaving scopes h := ⟨h.stored, h.targets, h.memory, hleaving scopes h.registry, h.account⟩

end Checker

end ExtensibleCheck
