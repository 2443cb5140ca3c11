import ExtensibleCheck.Proofs.Session.Abreast
import ExtensibleCheck.Proofs.Walk.Mistakes
import ExtensibleCheck.Proofs.Walk.Scopes
import Mathlib.Data.List.Basic

/-! Two checkers side by side. If each single step that one checker takes goes abreast with the same step
of another, so does the walk through any file, and with it the whole check once the extensions have been
created. Only the steps have to be compared: the walks are put together in the same way. -/

namespace ExtensibleCheck

/-- Whether a mistake is offered by the use of a hook. -/
def HookCall.isMistake : HookCall Occurrence CheckedType → Bool
  | ask question => question.mistake?.isSome
  | _ => false

open Run Session SessionState

theorem Ending.of_mapState_leaving {ι μ α : Type} (scopes : List (List ι))
    (r : EStateM.Result Halt (SessionState ι μ) α) :
    Ending.of (mapState (·.leaving scopes) r) = Ending.of r := by
  cases r <;> rfl

/-- Runs in a scope go abreast if they do outside. -/
theorem Session.Abreast.inScope {ι μ : Type} {E : Excuse ι}
    {R : SessionState ι μ → SessionState ι μ → Prop}
    (hscopes : ∀ {s s'}, R s s' → s.registry.scopes = s'.registry.scopes)
    (hleaving : ∀ {s s'} scopes, R s s' → R (s.leaving scopes) (s'.leaving scopes))
    {body body' : Session ι μ Unit} (h : Abreast E R Eq body body')
    (hbody : ∀ s, (body.after s).registry.scopes = s.registry.scopes)
    (hbody' : ∀ s, (body'.after s).registry.scopes = s.registry.scopes) (extensions : List ι) :
    Abreast E R Eq (do pushLocal extensions; Run.ensuring body popLocal)
      (do pushLocal extensions; Run.ensuring body' popLocal) := by
  have hgrows {m : Session ι μ Unit} (hm : Grows m) :
      Grows (do pushLocal extensions; Run.ensuring m popLocal) :=
    (writes_pushLocal _ extensions).bind fun _ => hm.ensuring (writes_popLocal _)
  refine ⟨hgrows h.grows, hgrows h.grows', fun {s s'} hR => ?_⟩
  rw [inScope_apply hbody, inScope_apply hbody', Ending.of_mapState_leaving, Ending.of_mapState_leaving,
    ← hscopes hR]
  have hinner := h.ends (hleaving (extensions :: s.registry.scopes) hR)
  exact hinner.imp_right (Agree.mapState (hleaving s.registry.scopes))

namespace Checker

variable {ι μ : Type} [DecidableEq ι]

/-- The single steps of two checkers go abreast. A mistake is compared together with its report, for one
of the checkers may have an extension that takes care of it. -/
structure KeepsPace (c c' : Checker ι μ) (E : Excuse ι)
    (R : SessionState ι μ → SessionState ι μ → Prop) : Prop where
  say : ∀ line, Abreast E R Eq (c.dispatcher.say line) (c'.dispatcher.say line)
  typeOf : ∀ o, Abreast E R Eq (typeOf o) (typeOf o)
  hasStored : ∀ o, Abreast E R Eq (hasStored o) (hasStored o)
  report : ∀ code message o, code.isAsideFromMistakes →
    Abreast E R Eq (report code message o) (report code message o)
  selecting : ∀ call target,
    Abreast E R Eq (do modify (·.selecting call target); record (.selected call target))
      (do modify (·.selecting call target); record (.selected call target))
  raise : ∀ call, call.isMistake = false → Abreast E R Eq (c.raise call) (c'.raise call)
  offer : ∀ question code message place, question.mistake? = some (code, place) →
    Abreast E R Eq (do unless ← c.raise (.ask question) do Session.report code message place)
      (do unless ← c'.raise (.ask question) do Session.report code message place)
  brought : ∀ closure, Abreast E R Eq (c.localExtensionsFor closure) (c'.localExtensionsFor closure)
  scopes : ∀ {s s'}, R s s' → s.registry.scopes = s'.registry.scopes
  leaving : ∀ {s s'} scopes, R s s' → R (s.leaving scopes) (s'.leaving scopes)

namespace KeepsPace

variable {c c' : Checker ι μ} {E : Excuse ι} {R : SessionState ι μ → SessionState ι μ → Prop}
  (pace : c.KeepsPace c' E R)

include pace

theorem notify (notice : Notice Occurrence CheckedType) :
    Abreast E R Eq (c.raise (.notify notice)) (c'.raise (.notify notice)) :=
  pace.raise _ rfl

theorem select (call : Occurrence) (target : Candidate CheckedType) :
    Abreast E R Eq (c.select call target) (c'.select call target) := by
  have hall := (pace.selecting call target).andThen fun _ => pace.notify (.methodSelection call target)
  exact hall

end KeepsPace

end Checker

namespace Visitor

variable {ι μ : Type} [DecidableEq ι] {v : Visitor ι μ} {c' : Checker ι μ} {E : Excuse ι}
  {R : SessionState ι μ → SessionState ι μ → Prop}

/-- Choosing among candidates goes abreast. -/
theorem choose_abreast (pace : v.checker.KeepsPace c' E R) (call name : Occurrence)
    (receiver : CheckedType) (types : List CheckedType) (chosen : List (Candidate CheckedType)) :
    Abreast E R Eq (v.choose call name receiver types chosen)
      ((v.withChecker c').choose call name receiver types chosen) := by
  rcases chosen with _ | ⟨target, _ | ⟨other, rest⟩⟩
  · exact pace.report _ _ name rfl
  · exact pace.select call target
  · exact pace.report _ _ name rfl

/-- Walks that are put together in the same way go abreast if their single steps do. -/
theorem Twins.abreast {o : Occurrence} {children : List Occurrence} {m m' : Session ι μ Unit}
    (h : v.Twins c' o children m m') (pace : v.checker.KeepsPace c' E R) : Abreast E R Eq m m' := by
  induction h with
  | nothing => exact .pure rfl
  | andThen _ _ ih ih' => exact ih.andThen fun _ => ih'
  | say line => exact pace.say line
  | lookUp _ _ ih => exact (pace.typeOf _).andThen ih
  | askStored _ _ ih => exact (pace.hasStored _).andThen ih
  | offer message _ hmistake => exact pace.offer _ _ message _ hmistake
  | select _ _ => exact pace.select _ _
  | @supply call name receiver arguments types _ =>
      have hchoose := choose_abreast pace call name receiver types
      refine (pace.raise _ rfl).andThen fun found => .ite (fun _ => ?_) fun _ => hchoose found
      exact (pace.raise _ rfl).andThen hchoose
  | inside _ _ _ _ _ _ ih => exact ih
  | @announced _ child before after _ _ _ _ hannounced _ _ ih =>
      have hbefore : (HookCall.ask before).isMistake = false := by
        have hnone := Question.mistake?_of_announced
          (Option.isSome_of_mem (Occurrence.announcement?_spec hannounced).2.2.1)
        rw [HookCall.isMistake, hnone]
        rfl
      refine (pace.raise _ hbefore).andThen fun taken => ?_
      exact .ite (fun _ => pace.notify after) fun _ => ih.andThen fun _ => pace.notify after
  | enclosed _ _ _ hinner ih =>
      have hscopes (s : SessionState ι μ) := (hinner.deals.walk.scoped.state s).scopes
      have hscopes' (s : SessionState ι μ) := (hinner.symm.deals.walk.scoped.state s).scopes
      refine (pace.brought _).andThen fun extensions => ?_
      exact .ite (fun _ => ih) fun _ => ih.inScope pace.scopes pace.leaving hscopes hscopes' extensions

end Visitor

namespace Checker

variable {ι μ : Type} [DecidableEq ι]

/-- The check once the extensions have been created, up to its verdict. -/
def proceed (c : Checker ι μ) (p : Program) : Session ι μ Unit := do
  c.raise (.notify .setup)
  p.files.forM c.visitFile
  c.raise (.notify .finish)

theorem check_eq (c : Checker ι μ) (p : Program) : c.check p = do
    c.start
    c.proceed p
    return (← get).verdict := by
  rw [check, proceed]
  simp only [bind_assoc]

/-- Creates extensions, and registers each of them. -/
def createAll (extensions : List (SessionAction ι μ ι)) : Session ι μ Unit :=
  extensions.forM fun create => do register (← create.run serve)

/-- What is left of the check when some of the extensions have been created: the creation of the others,
and the check proper. -/
def checkFrom (c : Checker ι μ) (extensions : List (SessionAction ι μ ι)) (p : Program) :
    Session ι μ Verdict := do
  createAll extensions
  c.proceed p
  return (← get).verdict

theorem check_eq_append {c : Checker ι μ} {before after : List (SessionAction ι μ ι)}
    (h : c.extensions = before ++ after) (p : Program) :
    c.check p = createAll before >>= fun _ => c.checkFrom after p := by
  have hstart : c.start = createAll before >>= fun _ => createAll after := by
    rw [start, h]
    exact List.forM_append
  rw [check_eq, hstart, bind_assoc]
  rfl

theorem check_eq_checkFrom (c : Checker ι μ) (p : Program) : c.check p = c.checkFrom c.extensions p := by
  rw [check_eq_append (List.nil_append c.extensions).symm]
  rfl

/-- As long as extensions are only created, no slot of the registry is vacant. -/
theorem createAll_occupied {extensions : List (SessionAction ι μ ι)} {memory : μ}
    {t : SessionState ι μ} (h : createAll extensions { memory } = .ok () t) :
    ∃ members : List ι, t.registry.globals = members.map some := by
  have hgradual : IsGradual (createAll extensions : Session ι μ Unit) :=
    Keeps.forM fun create _ => (gradual_run create).bind gradual_register
  have hchanges := hgradual.state { memory }
  rw [after_of_ok h] at hchanges
  refine hchanges.keep (I := fun s => ∃ members : List ι, s.registry.globals = members.map some) ?_
    ⟨[], rfl⟩
  rintro s t hchange ⟨members, hmembers⟩
  cases hchange with
  | register extension =>
      refine ⟨members ++ [extension], ?_⟩
      show s.registry.globals ++ [some extension] = _
      simp [hmembers]
  | unregister extension =>
      refine ⟨members.erase extension, ?_⟩
      show s.registry.globals.erase (some extension) = _
      rw [hmembers, List.map_erase fun _ _ => Option.some.inj]
  | _ => exact ⟨members, hmembers⟩

/-- Two checks of which the second one has one more extension, which only comes into being: both end in
the same way before that, or else they go on from states that differ by it. -/
theorem check_inserted {c joined : Checker ι μ} {before after : List (SessionAction ι μ ι)} {x : ι}
    {p : Program} {memory : μ}
    {Q : EStateM.Result Halt (SessionState ι μ) Verdict →
      EStateM.Result Halt (SessionState ι μ) Verdict → Prop}
    (hextensions : c.extensions = before ++ after)
    (hjoined : joined.extensions = before ++ .done x :: after)
    (herror : ∀ halt t, createAll before { memory } = .error halt t → Q (.error halt t) (.error halt t))
    (hrest : ∀ t, createAll before { memory } = .ok () t → Q (c.checkFrom after p t)
      (joined.checkFrom after p
        ({ t with registry := t.registry.addGlobal (some x) }.record (.registered x)))) :
    Q (c.check p { memory }) (joined.check p { memory }) := by
  rw [check_eq_append hextensions, check_eq_append hjoined]
  cases hbefore : (createAll before : Session ι μ Unit) { memory } with
  | error halt t =>
      rw [bind_of_error hbefore, bind_of_error hbefore]
      exact herror halt t hbefore
  | ok _ t =>
      rw [bind_of_ok hbefore, bind_of_ok hbefore]
      exact hrest t hbefore

/-- If single steps go abreast, so does the check once the extensions have been created. -/
theorem KeepsPace.proceed {c c' : Checker ι μ} {E : Excuse ι}
    {R : SessionState ι μ → SessionState ι μ → Prop} (pace : c.KeepsPace c' E R) (p : Program) :
    Abreast E R Eq (c.proceed p) (c'.proceed p) := by
  have hfiles : Abreast E R Eq (p.files.forM c.visitFile) (p.files.forM c'.visitFile) :=
    .forM fun file _ => (c.visitFile_twins c' file).abreast pace
  exact (pace.notify .setup).andThen fun _ => hfiles.andThen fun _ => pace.notify .finish

/-- So does what is left of the check when some of the extensions have been created, as far as verdicts
follow from states that are related. -/
theorem KeepsPace.checkFrom {c c' : Checker ι μ} {E : Excuse ι}
    {R : SessionState ι μ → SessionState ι μ → Prop} {V : Verdict → Verdict → Prop}
    (pace : c.KeepsPace c' E R) (hserve : ∀ r, Abreast E R Eq (serve r) (serve r))
    (hverdict : ∀ {s s'}, R s s' → V s.verdict s'.verdict)
    (extensions : List (SessionAction ι μ ι)) (p : Program) :
    Abreast E R V (c.checkFrom extensions p) (c'.checkFrom extensions p) := by
  have hcreate : Abreast E R Eq (createAll extensions) (createAll extensions) :=
    .forM fun create _ => (Abreast.run hserve create).andThen fun extension =>
      hserve (.register extension)
  have hgrows : Grows (do return (← get).verdict : Session ι μ Verdict) :=
    Keeps.get.bind fun _ => Keeps.pure _
  have hend : Abreast E R V (do return (← get).verdict) (do return (← get).verdict) :=
    ⟨hgrows, hgrows, fun hR => .inr ⟨hverdict hR, hR⟩⟩
  exact hcreate.andThen fun _ => (pace.proceed p).andThen fun _ => hend

end Checker

end ExtensibleCheck
