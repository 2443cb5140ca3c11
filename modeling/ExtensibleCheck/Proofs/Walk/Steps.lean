import ExtensibleCheck.Proofs.Walk.Scopes

/-! Properties that are handed on. The walk through a file takes single steps, one after the other and
within scopes. If the steps have a property of runs, and a run has it as soon as its parts do, then the
walk has it, and so does the check. For one file the steps only have to be looked at as far as they
concern its own nodes. -/

namespace ExtensibleCheck

open Run Session SessionState

namespace Session

variable {ι μ : Type}

/-- A property of runs that is handed on from the parts of a run to the whole. -/
structure IsHandedOn (Φ : (α : Type) → Session ι μ α → Prop) : Prop where
  pure : ∀ {α : Type} (a : α), Φ α (pure a)
  bind : ∀ {α β : Type} {m : Session ι μ α} {f : α → Session ι μ β}, Φ α m → (∀ a, Φ β (f a)) →
    Φ β (m >>= f)

/-- Moreover it is handed on through a scope that is left as it was opened. -/
structure IsHandedThrough (Φ : (α : Type) → Session ι μ α → Prop) : Prop extends IsHandedOn Φ where
  inScope : ∀ {body : Session ι μ Unit} (extensions : List ι), Φ Unit body →
    (∀ s, (body.after s).registry.scopes = s.registry.scopes) →
      Φ Unit (do pushLocal extensions; Run.ensuring body popLocal)

variable {Φ : (α : Type) → Session ι μ α → Prop}

theorem has_ite {α : Type} {p : Prop} [Decidable p] {m n : Session ι μ α} (hm : Φ α m) (hn : Φ α n) :
    Φ α (if p then m else n) := by
  by_cases hp : p
  · rwa [if_pos hp]
  · rwa [if_neg hp]

theorem IsHandedOn.forM (h : IsHandedOn Φ) {γ : Type} {f : γ → Session ι μ PUnit} {xs : List γ}
    (hf : ∀ x ∈ xs, Φ PUnit (f x)) : Φ PUnit (xs.forM f) := by
  induction xs with
  | nil => exact h.pure _
  | cons x xs ih =>
      exact h.bind (hf x List.mem_cons_self) fun _ => ih fun y hy => hf y (List.mem_cons_of_mem x hy)

/-- What runs keep, and why they halt, is handed on, if nothing depends on the scopes. -/
theorem IsHandedThrough.ofKeeps {R : SessionState ι μ → SessionState ι μ → Prop} {H : Halt → Prop}
    [IsPreorder (SessionState ι μ) R] (hleaving : ∀ s scopes, R s (s.leaving scopes)) :
    IsHandedThrough fun _ (m : Session ι μ _) => Keeps R H m where
  pure := Keeps.pure
  bind := Keeps.bind
  inScope {body} extensions hbody hscopes := by
    have happly := inScope_apply hscopes extensions
    refine ⟨fun s => ?_, fun {s halt t} herror => ?_⟩
    · have hinner := hbody.state (s.leaving (extensions :: s.registry.scopes))
      have hentered := trans_of R (hleaving s (extensions :: s.registry.scopes)) hinner
      rw [after, happly]
      unfold after at hentered
      cases hrun : body (s.leaving (extensions :: s.registry.scopes)) <;> rw [hrun] at hentered <;>
        exact trans_of R hentered (hleaving _ s.registry.scopes)
    · rw [happly] at herror
      cases hrun : body (s.leaving (extensions :: s.registry.scopes)) <;> rw [hrun] at herror <;>
        cases herror
      exact hbody.halts hrun

end Session

namespace Visitor

variable {ι μ : Type} [DecidableEq ι]

/-- A property of runs that is handed on, and that the steps of a walk have. How methods are selected is
left open. -/
structure Steps (v : Visitor ι μ) (Φ : (α : Type) → Session ι μ α → Prop) : Prop extends
    IsHandedOn Φ where
  say : ∀ line, Φ Unit (v.checker.dispatcher.say line)
  typeOf : ∀ o, o.file = v.file → Φ CheckedType (typeOf o)
  hasStored : ∀ o, o.file = v.file → Φ Bool (hasStored o)
  report : ∀ code message o, Φ Unit (report code message o)
  raise : ∀ call : HookCall Occurrence CheckedType, call.isSelection = false →
    Φ call.Answer (v.checker.raise call)
  enclosed : ∀ closure ∈ v.file.occurrences, ∀ {body : Session ι μ Unit}, Φ Unit body →
    (∀ s, (body.after s).registry.scopes = s.registry.scopes) → Φ Unit (v.enclosed closure body)

/-- Moreover it is handed on when the compiler has resolved a call, and when the extensions supply a
method. -/
structure Composes (v : Visitor ι μ) (Φ : (α : Type) → Session ι μ α → Prop) : Prop extends
    v.Steps Φ where
  select : ∀ call target, call.file = v.file → call.isCall → target.synthetic = false →
    Φ Unit (v.checker.select call target)
  supply : ∀ call name receiver arguments types, call.file = v.file → call.isCall →
    Φ Unit (v.supply call name receiver arguments types)

variable {v : Visitor ι μ} {Φ : (α : Type) → Session ι μ α → Prop}

/-- What is handed through scopes is also handed through closures, as far as these are asked only what they
bring along. -/
theorem enclosed_has (h : IsHandedThrough Φ)
    (hbrought : ∀ closure, Φ (List ι) (v.checker.localExtensionsFor closure)) (closure : Occurrence)
    {body : Session ι μ Unit} (hbody : Φ Unit body)
    (hscopes : ∀ s, (body.after s).registry.scopes = s.registry.scopes) :
    Φ Unit (v.enclosed closure body) :=
  h.bind (hbrought closure) fun extensions => has_ite hbody (h.inScope extensions hbody hscopes)

/-- To choose among candidates is to select one or to report. -/
theorem Steps.choose (h : v.Steps Φ) {call name : Occurrence} {receiver : CheckedType}
    {types : List CheckedType} {chosen : List (Candidate CheckedType)}
    (hselect : ∀ target, chosen = [target] → Φ Unit (v.checker.select call target)) :
    Φ Unit (v.choose call name receiver types chosen) := by
  rcases chosen with _ | ⟨target, _ | ⟨other, rest⟩⟩
  · exact h.report _ _ name
  · exact hselect target rfl
  · exact h.report _ _ name

/-- If every selection has the property, it does not matter where candidates come from. -/
theorem Steps.composes (h : v.Steps Φ) (hselect : ∀ call target, call.file = v.file → call.isCall →
    Φ Unit (v.checker.select call target)) : v.Composes Φ where
  toSteps := h
  select call target hfile hcall _ := hselect call target hfile hcall
  supply call name receiver arguments types hfile hcall := by
    have hchoose (chosen : List (Candidate CheckedType)) :
        Φ Unit (v.choose call name receiver types chosen) :=
      h.choose fun target _ => hselect call target hfile hcall
    refine h.bind (h.raise _ rfl) fun found => has_ite ?_ (hchoose found)
    exact h.bind (h.raise _ rfl) hchoose

/-- The walk below a node of the file has the property, by induction on how it is put together. -/
theorem Deals.has {o : Occurrence} {children : List Occurrence} {m : Session ι μ Unit}
    (h : v.Deals o children m) (ho : o ∈ v.file.occurrences) (hΦ : v.Composes Φ) : Φ Unit m := by
  have hfile {o : Occurrence} (ho : o ∈ v.file.occurrences) : o.file = v.file :=
    SourceFile.file_of_mem_occurrences ho
  induction h with
  | nothing => exact hΦ.pure ()
  | andThen _ _ ih ih' => exact hΦ.bind (ih ho) fun _ => ih' ho
  | say line => exact hΦ.say line
  | lookUp hnode _ ih => exact hΦ.bind (hΦ.typeOf _ (hnode.trans (hfile ho))) fun type => ih type ho
  | askStored hnode _ ih =>
      exact hΦ.bind (hΦ.hasStored _ (hnode.trans (hfile ho))) fun answer => ih answer ho
  | offer message _ _ =>
      exact hΦ.bind (hΦ.raise _ rfl) fun _ => has_ite (hΦ.pure ()) (hΦ.report _ message _)
  | select ht hresolved =>
      exact hΦ.select _ _ (hfile ho) (Occurrence.isCall_of_treatment ht) hresolved
  | supply name receiver arguments types ht =>
      exact hΦ.supply _ name receiver arguments types (hfile ho) (Occurrence.isCall_of_treatment ht)
  | inside hchild _ _ _ _ _ ih => exact ih (SourceFile.mem_occurrences_of_mem_children ho hchild)
  | announced hchild hannounced _ _ ih =>
      have hinner := ih (SourceFile.mem_occurrences_of_mem_children ho hchild)
      have hlast := hΦ.raise _ (Occurrence.isSelection_of_announcement? hannounced)
      refine hΦ.bind (hΦ.raise _ rfl) fun taken => ?_
      exact has_ite hlast (hΦ.bind hinner fun _ => hlast)
  | @enclosed _ child _ _ hchild _ _ hbody ih =>
      have hmem := SourceFile.mem_occurrences_of_mem_children ho hchild
      exact hΦ.enclosed child hmem (ih hmem) fun s => (hbody.walk.scoped.state s).scopes

end Visitor

namespace Checker

variable {ι μ : Type} [DecidableEq ι] {c : Checker ι μ} {Φ : (α : Type) → Session ι μ α → Prop}

theorem visitFile_has {file : SourceFile} (hΦ : (c.visitor file).Composes Φ) :
    Φ Unit (c.visitFile file) :=
  (c.visitFile_deals file).has (SourceFile.rootOccurrence_mem_occurrences file) hΦ

/-- So has the whole check, if what the extensions do when they are created has it, and the news of its
beginning and its end. -/
theorem check_has {p : Program} (hΦ : IsHandedOn Φ)
    (hrun : ∀ create ∈ c.extensions, Φ ι (create.run serve))
    (hregister : ∀ extension, Φ Unit (register extension))
    (hraise : ∀ notice : Notice Occurrence CheckedType, (HookCall.notify notice).isSelection = false →
      Φ Unit (c.raise (.notify notice)))
    (hfiles : ∀ file ∈ p.files, (c.visitor file).Composes Φ) (hget : Φ (SessionState ι μ) get) :
    Φ Verdict (c.check p) := by
  have hstart : Φ Unit c.start := hΦ.forM fun create hcreate => hΦ.bind (hrun create hcreate) hregister
  have hall : Φ Unit (p.files.forM c.visitFile) :=
    hΦ.forM fun file hfile => visitFile_has (hfiles file hfile)
  refine hΦ.bind hstart fun _ => hΦ.bind (hraise .setup rfl) fun _ => hΦ.bind hall fun _ => ?_
  exact hΦ.bind (hraise .finish rfl) fun _ => hΦ.bind hget fun s => hΦ.pure s.verdict

theorem isHandedThrough_isGradual : IsHandedThrough fun _ (m : Session ι μ _) => IsGradual m :=
  .ofKeeps fun _ scopes => .single (.scopes scopes)

variable (c)

/-- Whatever the walk through a file does, it does by single changes. -/
theorem gradual_visitor (file : SourceFile) : (c.visitor file).Composes fun _ m => IsGradual m := by
  have hsteps : (c.visitor file).Steps fun _ m => IsGradual m := {
    toIsHandedOn := isHandedThrough_isGradual.toIsHandedOn
    say := fun line => (gradual_print line).ite (Keeps.pure ())
    typeOf := fun o _ => gradual_typeOf o
    hasStored := fun o _ => gradual_hasStored o
    report := gradual_report
    raise := fun _ hcall => c.gradual_raise hcall
    enclosed := fun closure _ =>
      Visitor.enclosed_has isHandedThrough_isGradual c.gradual_localExtensionsFor closure }
  exact hsteps.composes fun _ target _ hcall => c.gradual_select hcall target

/-- A whole check is made of single changes, also if it is aborted. -/
theorem gradual_check (p : Program) : IsGradual (c.check p) :=
  check_has isHandedThrough_isGradual.toIsHandedOn (fun create _ => gradual_run create) gradual_register
    (fun _ hnotice => c.gradual_raise hnotice) (fun file _ => c.gradual_visitor file) Keeps.get

end Checker

end ExtensibleCheck
