import ExtensibleCheck.Proofs.Registry.Insertion
import ExtensibleCheck.Proofs.Session.Beside
import ExtensibleCheck.Proofs.Session.Broadcast
import ExtensibleCheck.Proofs.Session.Convoy

/-! An extension that has no opinion on anything is a bystander. With one more bystander among the global
extensions a check ends as it would without, with the same findings, types and selections, and all others
are consulted as they would be. The two checks go side by side: in the second one the bystander stands at
some place in the registry, every traversal passes it there, and what it leaves in the journal does not
count. Extensions may be registered in the middle of a dispatch; only if some are unregistered there, the
others may be passed over, in one of the checks or in both. -/

namespace ExtensibleCheck

section

variable {ι : Type}

/-- Whether a hook is in use after what has happened: it has not been settled yet. -/
def InUse (events : List (Event ι)) : Prop :=
  ∃ before call registry during, events = before ++ .raised call registry :: during ∧
    ∀ e ∈ during, e.isTurn = false

/-- Whether some extension was unregistered while a hook was in use. -/
def UnregistersInUse (events : List (Event ι)) : Prop :=
  ∃ before extension after, events = before ++ .unregistered extension :: after ∧ InUse before

/-- Whether a line says how many extensions there are. -/
def isTally (line : String) : Bool :=
  "Set up ".toList.isPrefixOf line.toList || "Finished ".toList.isPrefixOf line.toList

theorem isTally_of_summary? {count : Nat} {notice : Notice Occurrence CheckedType} {line : String}
    (h : Dispatcher.summary? count notice = some line) : isTally line := by
  cases notice <;> cases h <;> simp [isTally, String.toList_append]

variable [DecidableEq ι]

/-- What is left of an event if an extension is overlooked: not that it is consulted, nor that it is
registered or in the registry, nor how many extensions there are. -/
def Event.apartFrom (bystander : ι) : Event ι → Option (Event ι)
  | raised call registry =>
    some (.raised call { registry with globals := registry.globals.filter (· ≠ some bystander) })
  | consulted extension call => if extension = bystander then none else some (.consulted extension call)
  | registered extension => if extension = bystander then none else some (.registered extension)
  | printed line => if isTally line then none else some (.printed line)
  | e => some e

/-- Accounts that are the same if an extension is overlooked. -/
def Account.SameApartFrom (bystander : ι) (a a' : Account ι) : Prop :=
  a.findings = a'.findings ∧
    a.journal.filterMap (Event.apartFrom bystander) = a'.journal.filterMap (Event.apartFrom bystander)

theorem Account.SameApartFrom.enter {bystander : ι} {a a' : Account ι}
    (h : a.SameApartFrom bystander a') {e e' : Event ι} (hreport : e.report? = e'.report?)
    (he : e.apartFrom bystander = e'.apartFrom bystander) :
    (a.enter e).SameApartFrom bystander (a'.enter e') := by
  refine ⟨?_, ?_⟩
  · rw [Account.enter, Account.enter, hreport, h.1]
  · simp [Account.enter, List.filterMap_append, List.filterMap_cons, h.2, he]

/-- What is overlooked may be entered on one side. -/
theorem Account.SameApartFrom.enter_aside {bystander : ι} {a a' : Account ι}
    (h : a.SameApartFrom bystander a') {e : Event ι} (hreport : e.report? = none)
    (he : e.apartFrom bystander = none) : a.SameApartFrom bystander (a'.enter e) := by
  refine ⟨?_, ?_⟩
  · rw [Account.enter, hreport, h.1]
    rfl
  · simp [Account.enter, List.filterMap_append, h.2, he]

/-- If an extension is overlooked, how the others are consulted is left. -/
theorem filterMap_apartFrom_consultation? (bystander : ι) (events : List (Event ι)) :
    (events.filterMap (Event.apartFrom bystander)).filterMap Event.consultation? =
      (events.filterMap Event.consultation?).filter (·.1 ≠ bystander) := by
  rw [List.filterMap_filterMap, List.filter_filterMap]
  congr 1
  funext e
  cases e with
  | consulted extension call =>
      by_cases h : extension = bystander <;>
        simp [Event.apartFrom, Event.consultation?, Option.filter, h]
  | registered extension =>
      by_cases h : extension = bystander <;> simp [Event.apartFrom, Event.consultation?, h]
  | printed line =>
      by_cases h : isTally line = true <;> simp [Event.apartFrom, Event.consultation?, h]
  | _ => rfl

end

section

variable {ι : Type}

theorem InUse.begin (before : List (Event ι)) (call : HookCall Occurrence CheckedType)
    (registry : Registry ι (List ι)) : InUse (before ++ [.raised call registry]) :=
  ⟨before, call, registry, [], rfl, List.forall_mem_nil _⟩

theorem InUse.enter {events : List (Event ι)} (h : InUse events) {e : Event ι} (he : e.isTurn = false) :
    InUse (events ++ [e]) := by
  obtain ⟨before, call, registry, during, rfl, hduring⟩ := h
  refine ⟨before, call, registry, during ++ [e], by simp, fun e' he' => ?_⟩
  rcases List.mem_append.mp he' with he' | he'
  · exact hduring e' he'
  · rw [List.mem_singleton.mp he', he]

theorem UnregistersInUse.append {events : List (Event ι)} (h : UnregistersInUse events)
    (rest : List (Event ι)) : UnregistersInUse (events ++ rest) := by
  obtain ⟨before, extension, after, rfl, huse⟩ := h
  exact ⟨before, extension, after ++ rest, by simp, huse⟩

theorem not_unregistersInUse {events : List (Event ι)}
    (h : ∀ e ∈ events, ∀ extension, e ≠ .unregistered extension) : ¬ UnregistersInUse events := by
  rintro ⟨before, extension, after, rfl, -⟩
  exact h _ (by simp) extension rfl

/-- What excuses two checks from going on alike of which the second one has a bystander: that extensions
are unregistered in the middle of a dispatch, that the bystander itself is unregistered, or that one of
the checks is cut off, the first one or the second. -/
def Excuse.joining (bystander : ι) (first : Bool) : Excuse ι :=
  (Excuse.ofJournal (fun events => UnregistersInUse events ∨ .unregistered bystander ∈ events)
    fun h rest => h.imp (·.append rest) (List.mem_append_left rest)).or
    (if first then .firstCutOff else .secondCutOff)

end

open Run Session SessionState

variable {ι μ : Type} [DecidableEq ι]

/-- Two sessions that are the same but for a bystander among the global extensions of the second one. -/
abbrev Joined (bystander : ι) : SessionState ι μ → SessionState ι μ → Prop :=
  Beside (Registry.Gains bystander) (Account.SameApartFrom bystander)

/-- Two such sessions while a hook is in use. The bystander comes after the extensions `front`. -/
abbrev JoinedInUse (bystander : ι) (front : List ι) (scopes : List (List ι)) :
    SessionState ι μ → SessionState ι μ → Prop :=
  Beside (Registry.GainsAt bystander front scopes)
    fun a a' => a.SameApartFrom bystander a' ∧ InUse a.journal

variable {bystander : ι} {front : List ι} {scopes : List (List ι)} {first : Bool}

omit [DecidableEq ι] in
/-- What it means for two runs to be excused. -/
theorem Excuse.holds_joining {α : Type} {m m' : Session ι μ α} {s s' : SessionState ι μ}
    (h : (Excuse.joining bystander first).holds (.of (m s)) (.of (m' s'))) :
    UnregistersInUse (m.after s).journal.toList ∨
      .unregistered bystander ∈ (m.after s).journal.toList ∨
      (if first then m.outcome s else m'.outcome s') = .error .exhausted := by
  rcases h with hmeddles | hexhausted
  · replace hmeddles : UnregistersInUse (Ending.of (m s)).journal ∨
      .unregistered bystander ∈ (Ending.of (m s)).journal := hmeddles
    rw [journal_ending] at hmeddles
    exact hmeddles.imp_right .inl
  · cases first with
    | true => exact .inr (.inr (outcome_of_ending hexhausted))
    | false => exact .inr (.inr (outcome_of_ending hexhausted))

theorem admits_apartFrom (P : Event ι → Prop) : Admits (Account.SameApartFrom bystander) P :=
  fun _ _ h => h.enter rfl rfl

theorem admits_inUse : Admits (fun a a' => a.SameApartFrom bystander a' ∧ InUse a.journal)
    fun e => e.isDeed = true := by
  intro a a' e he h
  refine ⟨h.1.enter rfl rfl, h.2.enter ?_⟩
  cases e with
  | raised | settled | brought => cases he
  | _ => rfl

namespace Session

/-- While a hook is in use, whatever an extension does goes abreast, or it unregisters one. -/
theorem serve_inUse (r : Request ι Occurrence CheckedType μ Empty) :
    Abreast (.joining bystander first) (JoinedInUse bystander front scopes) Eq (serve r) (serve r) := by
  refine serve_beside admits_inUse (fun extension _ _ h => h.addGlobal extension)
    (fun extension => ?_) r
  refine ⟨(quiet_unregister _).grows, (quiet_unregister _).grows, fun {s s'} h => ?_⟩
  exact .inl (.inl (.inl ⟨s.journal.toList, extension, [], Array.toList_push, h.account.2⟩))

/-- Otherwise extensions may be unregistered, as long as it is not the bystander. -/
theorem serve_joined (r : Request ι Occurrence CheckedType μ Empty) :
    Abreast (.joining bystander first) (Joined bystander) Eq (serve r) (serve r) := by
  refine serve_beside (admits_apartFrom _) (fun extension _ _ h => h.addGlobal extension)
    (fun extension => ?_) r
  by_cases hbystander : extension = bystander
  · refine ⟨(quiet_unregister _).grows, (quiet_unregister _).grows, fun {s s'} _ => ?_⟩
    have hentry : .unregistered bystander ∈ (s.journal.push (.unregistered extension)).toList := by
      simp [hbystander]
    exact .inl (.inl (.inr hentry))
  · exact unregister_beside (admits_apartFrom fun _ => True) trivial fun h =>
      h.removeGlobal hbystander

end Session

/-- How far the two traversals of a dispatch have come, and how many more members each may consult. The
first one is to be cut off no later than the second, or the other way round. -/
def Advanced (first : Bool) (place : Nat) (scope : Option (List ι)) (limit : Nat)
    (cursor : Cursor (List ι)) (limit' : Nat) (cursor' : Cursor (List ι)) : Prop :=
  ∃ ahead, (cursor.opened scope).Level place ahead (cursor'.opened scope) ∧
    if first then limit + ahead.toNat ≤ limit' else limit' ≤ limit

omit [DecidableEq ι] in
theorem Advanced.of_level {place limit limit' : Nat} {scope : Option (List ι)} {ahead : Bool}
    {cursor cursor' : Cursor (List ι)} (h : cursor.Level place ahead cursor')
    (hlimit : if first then limit + ahead.toNat ≤ limit' else limit' ≤ limit) :
    Advanced first place scope limit cursor limit' cursor' := by
  refine ⟨ahead, ?_, hlimit⟩
  rwa [(h.opened scope).1, (h.opened scope).2]

namespace Checker

variable (c : Checker ι μ) (extensions : List (SessionAction ι μ ι)) (limit : Nat)

/-- The traversals of a dispatch come to the same members, and the second one passes the bystander. -/
theorem stride_inUse {n n' : Nat} {cursor cursor' : Cursor (List ι)} {s s' : SessionState ι μ}
    (h : Advanced first front.length scopes.head? n cursor n' cursor')
    (hs : JoinedInUse bystander front scopes s s') :
    c.dispatcher.Stride (c.staffedWith extensions limit).dispatcher (.joining bystander first)
      (· = bystander) (Advanced first front.length scopes.head?) s s' n cursor n' cursor' := by
  obtain ⟨ahead, hlevel, hlimit⟩ := h
  have hnext := hlevel.advance (List.map some) hs.registry
  have hopened (cursor : Cursor (List ι)) {r : Registry ι (List ι)} (hr : r.scopes = scopes) :
      (cursor.opened scopes.head?).advance (List.map some) r = cursor.advance (List.map some) r := by
    rw [← hr]
    exact Cursor.advance_opened _ r cursor
  rw [hopened cursor hs.registry.within, hopened cursor' hs.registry.within'] at hnext
  -- Whoever may consult nobody any more is cut off, which is the excuse.
  rcases n with _ | n
  · cases first with
    | true => exact .first fun _ => .inr rfl
    | false =>
        obtain rfl : n' = 0 := Nat.le_zero.mp hlimit
        exact .second fun _ => .inr rfl
  rcases n' with _ | n'
  · cases first with
    | true => simp at hlimit
    | false => exact .second fun _ => .inr rfl
  rcases hnext with ⟨rfl, next', hsome, hpassed⟩ | ⟨hsame, hnext⟩
  · refine .aside bystander rfl hsome ⟨false, ?_, ?_⟩
    · rwa [(hpassed.opened scopes.head?).2]
    · cases first <;> simp at hlimit ⊢ <;> omega
  · have hleft : if first then n + ahead.toNat ≤ n' else n' ≤ n := by
      cases first <;> simp at hlimit ⊢ <;> omega
    have hadvanced : Advanced first front.length scopes.head? n _ n' _ := .of_level hnext hleft
    rcases hstep : cursor.advance (List.map some) s.registry with ⟨_ | extension, next⟩ <;>
      rcases hstep' : cursor'.advance (List.map some) s'.registry with ⟨other, next'⟩ <;>
      rw [hstep, hstep'] at hsame hadvanced <;> obtain rfl := hsame
    · exact .ended hstep hstep'
    · exact .both extension hstep hstep' hadvanced

section

variable (hneutral : ∀ call, c.behaviour bystander call = Behaviour.neutral call)
  (hlimit : if first then c.limit < limit else limit ≤ c.limit)

include hneutral hlimit

/-- Dispatches go side by side while a hook is in use. -/
theorem convoy_inUse : c.dispatcher.Convoy (c.staffedWith extensions limit).dispatcher
    (.joining bystander first) (JoinedInUse bystander front scopes)
    (Advanced first front.length scopes.head?) (· = bystander) fun _ _ => True where
  start := by
    refine ⟨true, .before (Nat.zero_le _), ?_⟩
    cases first with
    | true => exact Nat.succ_le_succ hlimit
    | false => exact Nat.succ_le_succ hlimit
  step := c.stride_inUse extensions limit
  label := rfl
  say line := say_beside rfl (admits_inUse _ rfl)
  invoke extension call :=
    (record_beside rfl rfl (admits_inUse _ rfl)).andThen fun _ => .run serve_inUse _
  pass := by
    rintro extension s s' call rfl h
    have hinvoke : (c.staffedWith extensions limit).invoke extension call s' =
        .ok call.neutral (s'.record (.consulted extension call)) := by
      show (record (.consulted extension call) >>= fun _ =>
        (c.behaviour extension call).run serve : Session ι μ call.Answer) s' = _
      rw [hneutral]
      rfl
    refine ⟨_, hinvoke, h.stored, h.targets, h.memory, h.registry, ?_, h.account.2⟩
    rw [account_record s' rfl]
    exact h.account.1.enter_aside rfl (by simp [Event.apartFrom])
  nobody := trivial
  one _ := trivial
  another _ _ := trivial
  summary {_ _ _ line line'} _ hline hline' := by
    have hsame : (Event.printed (ι := ι) line).apartFrom bystander =
        (Event.printed line').apartFrom bystander := by
      simp [Event.apartFrom, isTally_of_summary? hline, isTally_of_summary? hline']
    refine .ite (fun _ => record_beside rfl rfl fun h => ?_) fun _ => .pure rfl
    exact ⟨h.1.enter rfl hsame, h.2.enter rfl⟩

/-- The use of a hook goes abreast, whoever stands by. -/
theorem raise_joined (call : HookCall Occurrence CheckedType) :
    Abreast (.joining bystander first) (Joined bystander) Eq (c.raise call)
      ((c.staffedWith extensions limit).raise call) := by
  refine ⟨c.grows_raise call, grows_raise _ call, fun {s s'} h => ?_⟩
  obtain ⟨front, hfront⟩ := h.registry
  have hbegin : JoinedInUse bystander front s.registry.scopes
      (s.record (.raised call s.registry)) (s'.record (.raised call s'.registry)) := by
    refine ⟨h.stored, h.targets, h.memory, hfront, ?_⟩
    obtain ⟨-, hscopes, back, hglobals, hglobals'⟩ := hfront
    rw [account_record s rfl, account_record s' rfl]
    refine ⟨h.account.enter rfl ?_, .begin _ call _⟩
    simp [Event.apartFrom, hglobals, hglobals', hscopes]
  have hdispatch : Abreast (.joining bystander first)
      (JoinedInUse bystander front s.registry.scopes) Eq _ _ :=
    (c.convoy_inUse extensions limit hneutral hlimit).dispatch call
  have hjoined := hdispatch.within hbegin (R := Joined bystander) fun {t t'} ht =>
    ⟨ht.stored, ht.targets, ht.memory, ht.registry.gains, ht.account.1⟩
  have hsettle (answer : call.Answer) : Abreast (.joining bystander first) (Joined bystander) Eq
      (do record (.settled call answer); return answer : Session ι μ call.Answer)
      (do record (.settled call answer); return answer) :=
    (record_beside rfl rfl fun h => h.enter rfl rfl).andThen fun _ => .pure rfl
  rw [raise_apply, raise_apply]
  exact Abreast.ends_bind hjoined (fun answer => (hsettle answer).grows)
    (fun answer => (hsettle answer).grows') fun _ answer ha => ha ▸ hsettle answer

/-- The two checks keep pace. -/
theorem keepsPace_joined : c.KeepsPace (c.staffedWith extensions limit) (.joining bystander first)
    (Joined bystander) := by
  have hraise := c.raise_joined extensions limit hneutral hlimit
  refine keepsPace_beside (fun _ => say_beside rfl (admits_apartFrom (fun _ => True) _ trivial)) rfl
    (admits_apartFrom _) serve_joined (·.scopes_eq) (fun scopes h => h.withScopes scopes) (fun call _ => hraise call)
    fun question code message place _ => (hraise (.ask question)).andThen fun handled => ?_
  exact .ite (fun _ => .pure rfl) fun _ => report_beside (admits_apartFrom fun _ => True) trivial

end

/-- A check with a bystander goes side by side with one without: both are halted before the bystander is
created, or they keep pace from then on. -/
theorem check_joined {before after : List (SessionAction ι μ ι)}
    (hextensions : c.extensions = before ++ after)
    (hneutral : ∀ call, c.behaviour bystander call = Behaviour.neutral call)
    (hlimit : if first then c.limit < limit else limit ≤ c.limit) (p : Program) (memory : μ) :
    let joined := c.staffedWith (before ++ .done bystander :: after) limit
    (Excuse.joining bystander first).holds (.of (c.check p { memory }))
        (.of (joined.check p { memory })) ∨
      Agree (Beside (fun _ _ => True) (Account.SameApartFrom bystander)) Eq (c.check p { memory })
        (joined.check p { memory }) := by
  intro joined
  have pace := c.keepsPace_joined (before ++ .done bystander :: after) limit hneutral hlimit
  have hverdict {s s' : SessionState ι μ} (h : Joined bystander s s') : s.verdict = s'.verdict := by
    have hfindings : s.findings = s'.findings := h.account.1
    rw [verdict, verdict, hfindings, h.stored, h.targets]
  refine check_inserted (Q := fun r r' => (Excuse.joining bystander first).holds (.of r) (.of r') ∨
    Agree (Beside (fun _ _ => True) (Account.SameApartFrom bystander)) Eq r r') hextensions rfl
    (fun halt t _ => .inr ⟨rfl, rfl, rfl, rfl, trivial, rfl, rfl⟩) fun t ht => ?_
  obtain ⟨members, hmembers⟩ := createAll_occupied ht
  have hstart : Joined bystander t
      ({ t with registry := t.registry.addGlobal (some bystander) }.record (.registered bystander)) := by
    refine ⟨rfl, rfl, rfl, Registry.gains_addGlobal hmembers bystander, ?_⟩
    rw [account_record _ rfl]
    exact Account.SameApartFrom.enter_aside ⟨rfl, rfl⟩ rfl (by simp [Event.apartFrom])
  refine ((pace.checkFrom serve_joined hverdict after p).ends hstart).imp_right ?_
  exact Agree.mono (fun _ _ => id) fun h => ⟨h.stored, h.targets, h.memory, trivial, h.account⟩

/-- Whatever the program, the extensions and the position in their list: with one more extension there
that has no opinion on anything, a check comes to the same outcome, be it a verdict or an error, with the
same findings, types and selections. The others are consulted for the same uses of hooks in the same order,
and whatever else is in the journal is the same too, but for the lines about how many extensions there are.
Neither check is cut off before the other one is, unless it may consult fewer extensions. -/
theorem check_ignores_bystander {before after : List (SessionAction ι μ ι)}
    (hextensions : c.extensions = before ++ after)
    (hneutral : ∀ call, c.behaviour bystander call = Behaviour.neutral call) (p : Program) (memory : μ) :
    let joined := c.staffedWith (before ++ .done bystander :: after) limit
    let s := (c.check p).after { memory }
    let s' := (joined.check p).after { memory }
    (c.limit < limit ∧ (c.check p).outcome { memory } ≠ .error .exhausted ∨
      limit ≤ c.limit ∧ (joined.check p).outcome { memory } ≠ .error .exhausted) →
    ¬ UnregistersInUse s.journal.toList → .unregistered bystander ∉ s.journal.toList →
      (joined.check p).outcome { memory } = (c.check p).outcome { memory } ∧
        s'.findings = s.findings ∧ s'.stored = s.stored ∧ s'.targets = s.targets ∧
        s'.memory = s.memory ∧
        s'.journal.toList.filterMap (Event.apartFrom bystander) =
          s.journal.toList.filterMap (Event.apartFrom bystander) ∧
        (s'.journal.toList.filterMap Event.consultation?).filter (·.1 ≠ bystander) =
          (s.journal.toList.filterMap Event.consultation?).filter (·.1 ≠ bystander) := by
  intro joined s s' hcutOff huse hforeign
  obtain ⟨first, hlimit, hcut⟩ : ∃ first : Bool, (if first then c.limit < limit else limit ≤ c.limit) ∧
      (if first then (c.check p).outcome { memory } else (joined.check p).outcome { memory }) ≠
        .error .exhausted := by
    rcases hcutOff with hfirst | hsecond
    · exact ⟨true, hfirst⟩
    · exact ⟨false, hsecond⟩
  have hagree := (c.check_joined limit hextensions hneutral hlimit p memory).resolve_left fun h => by
    rcases Excuse.holds_joining h with huses | hmeddles | hexhausted
    · exact huse huses
    · exact hforeign hmeddles
    · exact hcut hexhausted
  have hbeside := Agree.after hagree
  have hjournal := hbeside.account.2.symm
  refine ⟨Agree.outcome_eq hagree, hbeside.account.1.symm, hbeside.stored.symm, hbeside.targets.symm,
    hbeside.memory.symm, hjournal, ?_⟩
  rw [← filterMap_apartFrom_consultation?, ← filterMap_apartFrom_consultation?]
  exact congrArg (List.filterMap Event.consultation?) hjournal

end Checker

/-- An extension that registers another one while it is set up. That one knows the variables on the
left. -/
def bringsHelper : Checker Nat Unit where
  extensions := [.done 0, .done 1]
  behaviour
    | 0, .notify .setup => .request (.register 2) fun _ => .done ()
    | 2, .ask (.unresolvedVariable name) => .done (name.node.role = .left)
    | _, call => Behaviour.neutral call
  label _ := .anonymous
  verbose := true
  limit := 3

/-- A bystander between the two extensions is passed over by the dispatch that the helper joins. One of
the two variables is reported all the same. -/
theorem check_ignores_bystander_bringsHelper :
    let joined := bringsHelper.staffedWith ([.done 0] ++ .done 3 :: [.done 1]) 4
    let s := (bringsHelper.check strayNames).after { memory := () }
    let s' := (joined.check strayNames).after { memory := () }
    s.findings.diagnostics.length = 1 ∧ s'.findings = s.findings ∧
      (s'.journal.toList.filterMap Event.consultation?).length =
        (s.journal.toList.filterMap Event.consultation?).length + 4 ∧
      (s'.journal.toList.filterMap Event.consultation?).filter (·.1 ≠ 3) =
        (s.journal.toList.filterMap Event.consultation?).filter (·.1 ≠ 3) := by
  have hnever : ∀ e ∈ ((bringsHelper.check strayNames).after { memory := () }).journal.toList,
      ∀ extension, e ≠ .unregistered extension := by
    have hkinds : ((bringsHelper.check strayNames).after { memory := () }).journal.toList.all
      (fun | .unregistered _ => false | _ => true) := by decide +kernel
    rintro _ he extension rfl
    cases List.all_eq_true.mp hkinds _ he
  have hends : (bringsHelper.check strayNames).outcome { memory := () } ≠ .error .exhausted :=
    outcome_ne_of_finishes (by decide +kernel) _
  have hextensions : bringsHelper.extensions = [.done 0] ++ [.done 1] := rfl
  have hneutral (call : HookCall Occurrence CheckedType) :
      bringsHelper.behaviour 3 call = Behaviour.neutral call := by
    cases call with
    | ask question => cases question <;> rfl
    | notify notice => cases notice <;> rfl
    | _ => rfl
  obtain ⟨-, hfindings, -, -, -, -, hothers⟩ := bringsHelper.check_ignores_bystander 4 hextensions
    hneutral strayNames () (.inl ⟨by decide, hends⟩) (not_unregistersInUse hnever)
    fun hmem => hnever _ hmem 3 rfl
  exact ⟨by decide +kernel, hfindings, by decide +kernel, hothers⟩

end ExtensibleCheck
