import ExtensibleCheck.Proofs.Session.Convoy
import ExtensibleCheck.Proofs.Session.Involvement
import ExtensibleCheck.Proofs.Walk.Steps

/-! Failures of extensions. Whatever code of an extension halts while a program is checked, the check
halts with it for the same reason, and nobody is consulted any more. Up to there everything goes as it
would if the code did something else there instead. -/

namespace ExtensibleCheck

open Run Session SessionState

namespace Checker

variable {ι μ : Type} [DecidableEq ι] (c : Checker ι μ)

theorem isHandedThrough_attributed : IsHandedThrough fun _ m => Attributed c m where
  pure := .pure
  bind := Attributed.bind
  inScope extensions h hscopes := h.inScope hscopes extensions

theorem attributed_select (call : Occurrence) (target : Candidate CheckedType) :
    Attributed c (c.select call target) := by
  have hselecting : Attributed c (do
      modify (·.selecting call target)
      record (.selected call target) : Session ι μ Unit) := .ofSilent (writes_change (fun _ => rfl) rfl)
  exact hselecting.bind fun _ => attributed_raise (.notify (.methodSelection call target))

theorem attributed_visitor (file : SourceFile) : (c.visitor file).Composes fun _ m => Attributed c m := by
  have hsteps : (c.visitor file).Steps fun _ m => Attributed c m := {
    toIsHandedOn := c.isHandedThrough_attributed.toIsHandedOn
    say := fun _ => .ite (.record rfl) (.pure ())
    typeOf := fun _ _ => .ofSilent (writes_typeOf fun _ => rfl)
    hasStored := fun _ _ => .ofSilent (writes_hasStored fun _ => rfl)
    report := fun _ _ _ => .ofSilent (writes_report rfl)
    raise := fun call _ => attributed_raise call
    enclosed := fun closure _ =>
      Visitor.enclosed_has c.isHandedThrough_attributed attributed_localExtensionsFor closure }
  exact hsteps.composes fun call target _ _ => c.attributed_select call target

theorem attributed_check (p : Program) : Attributed c (c.check p) :=
  check_has c.isHandedThrough_attributed.toIsHandedOn (fun create _ => .run create)
    (fun _ => .ofSilent (writes_change (fun _ => rfl) rfl))
    (fun notice _ => attributed_raise (.notify notice)) (fun file _ => c.attributed_visitor file)
    (.ofSilent Keeps.get)

end Checker

/-- Code that does something else wherever the other code raises an error. -/
inductive Action.ResumedBy {ι ν τ μ χ α : Type} (kind : ErrorClass) (message : String) :
    Action ι ν τ μ χ α → Action ι ν τ μ χ α → Prop
  | done (result) : ResumedBy kind message (.done result) (.done result)
  | fail (kind' message') : ResumedBy kind message (.fail kind' message') (.fail kind' message')
  | request (r : Request ι ν τ μ χ) {next next' : r.Reply → Action ι ν τ μ χ α} :
      (∀ reply, ResumedBy kind message (next reply) (next' reply)) →
      ResumedBy kind message (.request r next) (.request r next')
  | resumed (rest) : ResumedBy kind message (.fail kind message) rest

/-- A checker with extensions of which the code does something else wherever that of the other checker's
raises an error. -/
structure Checker.ResumedBy {ι μ : Type} (kind : ErrorClass) (message : String) (c c' : Checker ι μ) :
    Prop where
  extensions : List.Forall₂ (Action.ResumedBy kind message) c.extensions c'.extensions
  localExtensions : Option.Rel
    (fun provide provide' =>
      ∀ closure, Action.ResumedBy kind message (provide closure) (provide' closure))
    c.localExtensions c'.localExtensions
  behaviour : ∀ e call, Action.ResumedBy kind message (c.behaviour e call) (c'.behaviour e call)
  label : c.label = c'.label
  verbose : c.verbose = c'.verbose
  limit : c.limit = c'.limit

/-- What excuses two runs from being the same: that the first one was halted by an error, and the second
one has been through all that the first one was. -/
def Excuse.failing {ι : Type} (kind : ErrorClass) (message : String) : Excuse ι where
  holds e e' := e.halt = some (.thrown (.raised kind message)) ∧ e.journal <+: e'.journal
  lasts := by
    rintro e e' f f' h h' ⟨hhalt, hprefix⟩
    obtain rfl := h.halted (by rw [hhalt]; rfl)
    exact ⟨hhalt, hprefix.trans h'.journal⟩

namespace Session

variable {ι μ α : Type} {kind : ErrorClass} {message : String}

theorem Abreast.refl {E : Excuse ι} {m : Session ι μ α} (h : Grows m) : Abreast E Eq Eq m m := by
  refine ⟨h, h, ?_⟩
  rintro s _ rfl
  refine .inr ?_
  cases m s <;> exact ⟨rfl, rfl⟩

variable [DecidableEq ι]

theorem run_resumed {action action' : SessionAction ι μ α}
    (h : Action.ResumedBy kind message action action') :
    Abreast (.failing kind message) Eq Eq (action.run serve) (action'.run serve) := by
  induction h with
  | done result => exact .pure rfl
  | fail kind' message' => exact .throw _
  | request r _ ih => exact (Abreast.refl (quiet_serve r).grows).andThen ih
  | resumed rest =>
      refine ⟨Keeps.throw trivial, (quiet_run rest).grows, ?_⟩
      rintro s _ rfl
      refine .inl ⟨rfl, ?_⟩
      rw [journal_ending, journal_ending]
      exact prefix_after (quiet_run rest).grows s

end Session

namespace Checker

variable {ι μ : Type} [DecidableEq ι] {c c' : Checker ι μ} {kind : ErrorClass} {message : String}
  (h : ResumedBy kind message c c')

include h

theorem ResumedBy.abreast_say (line : String) :
    Abreast (.failing kind message) Eq Eq (c.dispatcher.say line) (c'.dispatcher.say line) := by
  have hsame : c.dispatcher.say line = c'.dispatcher.say line :=
    congrArg (fun verbose => if verbose = true then print line else pure ()) h.verbose
  rw [← hsame]
  exact .refl ((writes_record trivial).ite (Keeps.pure ()))

/-- The use of a hook goes abreast. -/
theorem ResumedBy.raise (call : HookCall Occurrence CheckedType) :
    Abreast (.failing kind message) Eq Eq (c.raise call) (c'.raise call) := by
  refine raise_inStep h.limit h.label (fun hsame => by rw [hsame])
    (fun _ _ => .refl (writes_record trivial)) h.abreast_say (fun extension call => ?_) call
  exact (Abreast.refl (writes_record trivial)).andThen fun _ => run_resumed (h.behaviour extension call)

theorem ResumedBy.brought (closure : Occurrence) : Abreast (.failing kind message) Eq Eq
    (c.localExtensionsFor closure) (c'.localExtensionsFor closure) := by
  have hprovided : Abreast (.failing kind message) Eq Eq (c.provided closure) (c'.provided closure) := by
    rw [provided, provided]
    have hproviders := h.localExtensions
    generalize c.localExtensions = provider, c'.localExtensions = provider' at hproviders ⊢
    cases hproviders with
    | none => exact .pure rfl
    | some hprovide => exact run_resumed (hprovide closure)
  rw [localExtensionsFor_eq, localExtensionsFor_eq]
  refine hprovided.andThen fun extensions => .refl ?_
  exact (writes_record trivial).bind fun _ => Keeps.pure extensions

/-- The two checkers keep pace. -/
theorem ResumedBy.keepsPace : c.KeepsPace c' (.failing kind message) Eq where
  say := h.abreast_say
  typeOf o := .refl (quiet_typeOf o).grows
  hasStored o := .refl (quiet_hasStored o).grows
  report code message o _ := .refl (quiet_report code message o).grows
  selecting call target := .refl (writes_change (fun _ => rfl) trivial)
  raise call _ := h.raise call
  offer question code message place _ := (h.raise (.ask question)).andThen fun _ =>
    .ite (fun _ => .pure rfl) fun _ => .refl (quiet_report code message place).grows
  brought := h.brought
  scopes hsame := by rw [hsame]
  leaving scopes hsame := by rw [hsame]

/-- So do the whole checks. -/
theorem ResumedBy.check (p : Program) :
    Abreast (.failing kind message) Eq Eq (c.check p) (c'.check p) := by
  have hstart : Abreast (.failing kind message) Eq Eq c.start c'.start := by
    unfold start
    have hextensions := h.extensions
    generalize c.extensions = creates, c'.extensions = creates' at hextensions ⊢
    induction hextensions with
    | nil => exact .pure rfl
    | cons hcreate _ ih =>
        refine ((run_resumed hcreate).andThen fun extension => ?_).andThen fun _ => ih
        exact .refl (quiet_register extension).grows
  rw [check_eq, check_eq]
  refine hstart.andThen fun _ => (h.keepsPace.proceed p).andThen fun _ => .refl ?_
  exact Keeps.get.bind fun _ => Keeps.pure _

omit h

/-- Each of the global extensions is created in the course of the check, once those before it have been. -/
theorem involves_create {before after : List (SessionAction ι μ ι)} {create : SessionAction ι μ ι}
    (hextensions : c.extensions = before ++ create :: after) (p : Program) {s t : SessionState ι μ}
    (hbefore : createAll before s = .ok () t) : Involves (create.run serve) t (c.check p) s := by
  rw [check_eq_append hextensions]
  have hcreate : Involves (create.run serve) t (createAll (create :: after)) t :=
    Involves.whole.first.first
  exact .later hbefore hcreate.first

theorem provided_of_some {provide : Occurrence → SessionAction ι μ (List ι)}
    (h : c.localExtensions = some provide) (closure : Occurrence) :
    c.provided closure = (provide closure).run serve := by
  rw [provided, h]

/-- The visit to a closure begins with the code of the provider. -/
theorem involves_provided_of_visit {closure : Occurrence} (hclosure : closure.kind.isClosure = true)
    (t : SessionState ι μ) : Involves (c.provided closure) t
      ((c.visitor closure.file).visit closure.above closure.isCallee closure.node) t := by
  rw [Visitor.visit_of_isClosure rfl hclosure]
  exact (c.involves_provided closure t).first

/-- Whatever code of an extension halts in the course of a check, the check is halted for the same reason
with nothing changed but the scopes. The code of the global extensions is run one after the other, and
every consultation is where an extension's code begins to be run: if this fails, then nobody has been
consulted afterwards. The code of the provider is run wherever a closure is visited, and what the closure
brings along is what this code has just answered. Wherever the code might have done something else instead of raising an error, the
check would have gone the same way up to there. -/
theorem check_stops_at_failure (c : Checker ι μ) (p : Program) (memory : μ) :
    let s := (c.check p).after { memory }
    (∀ {β : Type} (code : SessionAction ι μ β) t halt u,
      Involves (code.run serve) t (c.check p) { memory } → code.run serve t = .error halt u →
        (∃ kind message, halt = .thrown (.raised kind message)) ∧
          (c.check p).outcome { memory } = .error halt ∧ s = u.leaving s.registry.scopes) ∧
      (∀ before create after t, c.extensions = before ++ create :: after →
        createAll before { memory } = .ok () t →
          Involves (create.run serve) t (c.check p) { memory }) ∧
      (∀ past e call later, s.journal.toList = past ++ .consulted e call :: later →
        ∃ t, t.journal.toList = past ++ [.consulted e call] ∧
          Involves ((c.behaviour e call).run serve) t (c.check p) { memory } ∧
          ∀ halt u, (c.behaviour e call).run serve t = .error halt u →
            s.journal.toList.filterMap Event.consultation? =
              past.filterMap Event.consultation? ++ [(e, call)]) ∧
      (∀ provide, c.localExtensions = some provide →
        (∀ closure t, closure.kind.isClosure → Involves
          ((c.visitor closure.file).visit closure.above closure.isCallee closure.node) t
          (c.check p) { memory } → Involves ((provide closure).run serve) t (c.check p) { memory }) ∧
        ∀ past closure extensions later, s.journal.toList = past ++ .brought closure extensions :: later →
          ∃ t u, Involves ((provide closure).run serve) t (c.check p) { memory } ∧
            (provide closure).run serve t = .ok extensions u ∧ u.journal.toList = past) ∧
      ∀ kind message c', ResumedBy kind message c c' →
        c.check p { memory } = c'.check p { memory } ∨
          (c.check p).outcome { memory } = .error (.thrown (.raised kind message)) ∧
            s.journal.toList <+: ((c'.check p).after { memory }).journal.toList := by
  intro s
  have hhalts {β : Type} {code : SessionAction ι μ β} {t halt u}
      (hinvolves : Involves (code.run serve) t (c.check p) { memory })
      (hfails : code.run serve t = .error halt u) :
      (c.check p).outcome { memory } = .error halt ∧ s = u.leaving s.registry.scopes := by
    obtain ⟨scopes, hrun⟩ := hinvolves.halts hfails
    have hend : s = u.leaving scopes := after_of_error hrun
    refine ⟨outcome_of_error hrun, ?_⟩
    rw [hend]
    rfl
  have hshown {past : List (Event ι)} {e : Event ι} {later : List (Event ι)} (he : e.showsCode)
      (hjournal : s.journal.toList = past ++ e :: later) :
      ∃ (β : Type) (code : Session ι μ β) (t : SessionState ι μ),
        Shows c past e code t ∧ Involves code t (c.check p) { memory } :=
    (c.attributed_check p).shown he List.nil_prefix
      ⟨later, by rw [List.append_assoc]; exact hjournal.symm⟩
  refine ⟨fun code t halt u hinvolves hfails => ⟨?_, hhalts hinvolves hfails⟩,
    fun before create after t hextensions hbefore => involves_create hextensions p hbefore,
    fun past e call later hjournal => ?_, fun provide hprovide => ⟨fun closure t hclosure hvisit => ?_,
      fun past closure extensions later hjournal => ?_⟩, fun kind message c' hresumed => ?_⟩
  · exact (retold_run code).halts hfails
  · obtain ⟨_, _, t, ⟨ht⟩, hinvolves⟩ := hshown rfl hjournal
    refine ⟨t, ht, hinvolves, fun halt u hfails => ?_⟩
    obtain ⟨events, hdone, hsilent, -⟩ := ((retold_run (c.behaviour e call)).state t).grown
    rw [after_of_error hfails, ht] at hdone
    have hsame : s.journal.toList = u.journal.toList := by
      rw [(hhalts hinvolves hfails).2]
      rfl
    rw [hsame, hdone, List.filterMap_append, List.filterMap_append,
      List.filterMap_eq_nil_iff.mpr hsilent, List.append_nil]
    rfl
  · rw [← provided_of_some hprovide]
    exact hvisit.trans (involves_provided_of_visit hclosure t)
  · obtain ⟨_, _, t, hshows, hinvolves⟩ := hshown rfl hjournal
    cases hshows with
    | brought hanswer hu =>
        rw [provided_of_some hprovide] at hanswer hinvolves
        exact ⟨t, _, hinvolves, hanswer, hu⟩
  · rcases (hresumed.check p).ends (s := { memory }) rfl with ⟨hhalt, hprefix⟩ | hagree
    · rw [journal_ending, journal_ending] at hprefix
      exact .inr ⟨outcome_of_ending hhalt, hprefix⟩
    · left
      rcases hagree.cases with ⟨a, _, t, _, hrun, hrun', rfl, rfl⟩ | ⟨halt, t, _, hrun, hrun', rfl⟩ <;>
        rw [hrun, hrun']

end Checker

/-- The same extensions, but that the one in the innermost closure takes over the calls there. -/
def takesOverInnermost : Checker Nat Unit :=
  { bringsByDepth with
    behaviour
      | 5, .ask (.beforeMethodCall _) => .done true
      | _, call => Behaviour.neutral call }

/-- Whether the extension that the innermost closure brings along was consulted about a call. -/
def Event.asksInnermost : Event Nat → Bool
  | consulted 5 (.ask (.beforeMethodCall _)) => true
  | _ => false

theorem Event.exists_of_asksInnermost {e : Event Nat} (h : e.asksInnermost) :
    ∃ name, e = .consulted 5 (.ask (.beforeMethodCall name)) := by
  unfold asksInnermost at h
  split at h
  · exact ⟨_, rfl⟩
  · cases h

/-- The code that fails in the innermost closure. -/
def failsAt (name : Occurrence) : SessionAction Nat Unit Bool :=
  bringsByDepth.behaviour 5 (.ask (.beforeMethodCall name))

/-- The failure in the innermost closure is the last that is heard of any extension. If the call is taken
over instead, seven more consultations follow. -/
theorem check_stops_at_failure_bringsByDepth :
    let run := bringsByDepth.check nestedArrows
    let other := takesOverInnermost.check nestedArrows
    let s := run.after { memory := () }
    let s' := other.after { memory := () }
    (∃ name t u, Involves ((failsAt name).run serve) t run { memory := () } ∧
      (failsAt name).run serve t = .error (.thrown (.raised .general "no calls in here")) u ∧
        s = u.leaving s.registry.scopes) ∧
      run.outcome { memory := () } = .error (.thrown (.raised .general "no calls in here")) ∧
      s.journal.toList <+: s'.journal.toList ∧ other.finishes { memory := () } ∧
      (s.journal.toList.filterMap Event.consultation?).map (·.1) = [0, 0, 1, 0, 1, 0, 5] ∧
      (s'.journal.toList.filterMap Event.consultation?).length = 14 := by
  have hresumed : Checker.ResumedBy .general "no calls in here" bringsByDepth takesOverInnermost := by
    refine ⟨.cons (.done 0) .nil, .some fun _ => .done _, fun e call => ?_, rfl, rfl, rfl⟩
    by_cases he : e = 5
    · subst he
      cases call with
      | ask question => cases question <;> first | exact .resumed _ | exact .done _
      | _ => exact .done _
    · have hneutral : bringsByDepth.behaviour e call = Behaviour.neutral call := by
        simp only [bringsByDepth]
        split
        · exact absurd rfl he
        · rfl
      have hneutral' : takesOverInnermost.behaviour e call = Behaviour.neutral call := by
        simp only [takesOverInnermost]
        split
        · exact absurd rfl he
        · rfl
      rw [hneutral, hneutral']
      exact .done _
  have hdiffer : (bringsByDepth.check nestedArrows).finishes { memory := () } ≠
      (takesOverInnermost.check nestedArrows).finishes { memory := () } := by decide +kernel
  have hlast : ((bringsByDepth.check nestedArrows).after
      { memory := () }).journal.toList.getLast?.any Event.asksInnermost := by decide +kernel
  obtain ⟨hhalts, -, hconsults, -, hprefix⟩ := bringsByDepth.check_stops_at_failure nestedArrows ()
  obtain ⟨past, name, hjournal⟩ : ∃ past name, ((bringsByDepth.check nestedArrows).after
      { memory := () }).journal.toList = past ++ [.consulted 5 (.ask (.beforeMethodCall name))] := by
    obtain ⟨e, he, hasks⟩ := (Option.any_eq_true _ _).mp hlast
    obtain ⟨name, rfl⟩ := Event.exists_of_asksInnermost hasks
    obtain ⟨past, hpast⟩ := List.getLast?_eq_some_iff.mp he
    exact ⟨past, name, hpast⟩
  obtain ⟨t, -, hinvolves, -⟩ := hconsults past 5 _ [] hjournal
  have hfails : (failsAt name).run serve t =
      .error (.thrown (.raised .general "no calls in here")) t := rfl
  obtain ⟨-, houtcome, hend⟩ := hhalts (failsAt name) t _ t hinvolves hfails
  obtain hsame | ⟨-, hprefix⟩ := hprefix .general "no calls in here" takesOverInnermost hresumed
  · refine absurd ?_ hdiffer
    rw [finishes, finishes, hsame]
  · exact ⟨⟨name, t, t, hinvolves, hfails, hend⟩, houtcome, hprefix, by decide +kernel,
      by decide +kernel, by decide +kernel⟩

end ExtensibleCheck
