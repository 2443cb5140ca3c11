import ExtensibleCheck.Proofs.Session.Apart

/-! Room for everybody. A dispatch may consult only so many extensions before it is cut off. If all that
the extensions do is to answer, then this is never noticed as long as there is room for the global ones
together with those that any one closure of the program brings along, and every limit from some point on
has room for them. -/

namespace ExtensibleCheck

open Run Session SessionState

namespace Session

variable {ι μ α β : Type} {P : Registry ι (List ι) → Prop}

/-- Wherever the registry has a property, the run comes to a result and leaves the registry as it is. -/
def Settles (P : Registry ι (List ι) → Prop) (m : Session ι μ α) : Prop :=
  ∀ s, P s.registry → ∃ a t, m s = .ok a t ∧ t.registry = s.registry

theorem Settles.pure (a : α) : Settles P (pure a : Session ι μ α) := fun s _ => ⟨a, s, rfl, rfl⟩

theorem Settles.modify {f : SessionState ι μ → SessionState ι μ} (hf : ∀ s, (f s).registry = s.registry) :
    Settles P (modify f : Session ι μ Unit) :=
  fun s _ => ⟨(), f s, rfl, hf s⟩

theorem Settles.record (e : Event ι) : Settles P (record e : Session ι μ Unit) := .modify fun _ => rfl

theorem Settles.bind {m : Session ι μ α} {f : α → Session ι μ β} (hm : Settles P m)
    (hf : ∀ a, Settles P (f a)) : Settles P (m >>= f) := by
  intro s hs
  obtain ⟨a, t, hrun, ht⟩ := hm s hs
  obtain ⟨b, u, hrest, hu⟩ := hf a t (ht ▸ hs)
  exact ⟨b, u, (bind_of_ok hrun).trans hrest, hu.trans ht⟩

theorem Settles.ite {p : Prop} [Decidable p] {m m' : Session ι μ α} (hm : Settles P m)
    (hm' : Settles P m') : Settles P (if p then m else m') := by
  by_cases hp : p
  · rwa [if_pos hp]
  · rwa [if_neg hp]

theorem Settles.mono {Q : Registry ι (List ι) → Prop} {m : Session ι μ α} (h : Settles Q m)
    (hP : ∀ r, P r → Q r) : Settles P m :=
  fun s hs => h s (hP _ hs)

theorem isHandedOn_settles : IsHandedOn fun _ (m : Session ι μ _) => Settles P m where
  pure := .pure
  bind := .bind

end Session

namespace Checker

variable {ι μ : Type} [DecidableEq ι]

/-- There is room for the global extensions together with those that any one closure of a program brings
along. -/
structure HasRoom (c : Checker ι μ) (p : Program) : Prop where
  globals : c.extensions.length ≤ c.limit
  brought : ∀ file ∈ p.files, ∀ closure ∈ file.occurrences,
    c.extensions.length + (c.broughtBy closure).length ≤ c.limit

/-- There are as many global extensions as at the start, and there is room for them and for those of the
innermost scope. -/
structure Roomy (c : Checker ι μ) (r : Registry ι (List ι)) : Prop where
  globals : r.globals.length = c.extensions.length
  fits : c.extensions.length + (r.scopes.headD []).length ≤ c.limit

section

omit [DecidableEq ι]

variable {c : Checker ι μ} {p : Program}

/-- A part of a program needs no more room. -/
theorem HasRoom.of_subset (h : c.HasRoom p) {files : List SourceFile} (hfiles : files ⊆ p.files) :
    c.HasRoom ⟨files⟩ :=
  ⟨h.globals, fun file hfile => h.brought file (hfiles hfile)⟩

theorem HasRoom.alone (h : c.HasRoom p) {file : SourceFile} (hfile : file ∈ p.files) :
    c.HasRoom ⟨[file]⟩ :=
  h.of_subset (List.cons_subset.mpr ⟨hfile, List.nil_subset _⟩)

/-- There is room if only the limit is large enough. -/
theorem exists_hasRoom (c : Checker ι μ) (p : Program) :
    ∃ enough, ∀ limit, enough ≤ limit → ({ c with limit } : Checker ι μ).HasRoom p := by
  let lengths := (p.files.flatMap (·.occurrences)).map fun closure => (c.broughtBy closure).length
  refine ⟨c.extensions.length + lengths.max?.getD 0, fun limit hlimit => ⟨by dsimp only; omega, ?_⟩⟩
  intro file hfile closure hclosure
  have hmem : (c.broughtBy closure).length ∈ lengths :=
    List.mem_map_of_mem (List.mem_flatMap.mpr ⟨file, hfile, hclosure⟩)
  have hlongest : (c.broughtBy closure).length ≤ lengths.max?.getD 0 := List.le_max?_getD_of_mem hmem
  show c.extensions.length + (c.broughtBy closure).length ≤ limit
  omega

theorem Roomy.length_view {r : Registry ι (List ι)} (h : c.Roomy r) :
    (r.view (List.map some)).length ≤ c.limit := by
  have hslots : ((r.scopes.head?.map (List.map some)).getD []).length = (r.scopes.headD []).length := by
    cases r.scopes with
    | nil => rfl
    | cons scope outer => exact List.length_map some
  calc (r.view (List.map some)).length
      ≤ (r.globals ++ (r.scopes.head?.map (List.map some)).getD []).length := List.length_filterMap_le ..
    _ = c.extensions.length + (r.scopes.headD []).length := by
        rw [List.length_append, hslots, h.globals]
    _ ≤ c.limit := h.fits

/-- There is still room in a scope that is entered, if there is room for its extensions. -/
theorem Roomy.entering {s : SessionState ι μ} (h : c.Roomy s.registry) {extensions : List ι}
    (hfits : c.extensions.length + extensions.length ≤ c.limit) :
    c.Roomy (s.entering extensions).registry := by
  refine ⟨by rw [globals_entering, h.globals], ?_⟩
  rw [scopes_entering]
  by_cases hempty : extensions.isEmpty
  · rw [if_pos hempty]
    exact h.fits
  · rw [if_neg hempty]
    exact hfits

end

variable {c : Checker ι μ} {answers : Answers ι Occurrence CheckedType}

/-- A traversal that may consult more members than remain comes to its end, if each of them lets it go on
or stops it and leaves the registry alone. -/
theorem settles_consult {β : Type} {f : β → ι → Session ι μ (Progress β)}
    (hf : ∀ b e, Settles (fun _ => True) (f b e)) (limit : Nat) (cursor : Cursor (List ι)) (b : β) :
    Settles (fun r => (cursor.remaining (List.map some) r).length < limit)
      (c.dispatcher.consult f limit cursor b) := by
  induction limit generalizing cursor b with
  | zero => exact fun s hroom => absurd hroom (Nat.not_lt_zero _)
  | succ limit ih =>
      intro s hroom
      have hremaining := cursor.remaining_eq (List.map some) s.registry
      rcases hstep : cursor.advance (List.map some) s.registry with ⟨_ | e, next⟩
      · exact ⟨b, s, Dispatcher.consult_of_none hstep, rfl⟩
      · rw [Dispatcher.consult_of_some hstep]
        obtain ⟨progress, t, hrun, ht⟩ := hf b e s trivial
        rw [bind_of_ok hrun]
        cases progress with
        | stop result => exact ⟨result, t, rfl, ht⟩
        | go result =>
            have hless : (next.remaining (List.map some) t.registry).length < limit := by
              rw [hstep] at hremaining
              dsimp only at hremaining
              rw [hremaining, Option.toList_some, List.length_append, List.length_singleton] at hroom
              rw [ht]
              omega
            obtain ⟨b', u, hrest, hu⟩ := ih next result t hless
            exact ⟨b', u, hrest, hu.trans ht⟩

namespace OnlyAnswers

variable (h : c.OnlyAnswers answers)

include h

/-- A dispatch comes to its end where there is room for the active members. -/
theorem settles_dispatch (call : HookCall Occurrence CheckedType) :
    Settles (fun r => (r.view (List.map some)).length ≤ c.limit) (c.dispatcher.dispatch call) := by
  have hall {β : Type} {f : β → ι → Session ι μ (Progress β)}
      (hf : ∀ b e, Settles (fun _ => True) (f b e)) (start : β) :
      Settles (fun r => (r.view (List.map some)).length ≤ c.limit) (c.dispatcher.consultAll start f) :=
    (settles_consult hf (c.limit + 1) .unopened start).mono fun _ => Nat.lt_succ_of_le
  have hinvoke {P : Registry ι (List ι) → Prop} (e : ι) (use : HookCall Occurrence CheckedType) :
      Settles P (c.dispatcher.invoke e use) :=
    fun s _ => ⟨_, _, invoke_apply h.behaviour e use s, rfl⟩
  have hsay {P : Registry ι (List ι) → Prop} (line : String) : Settles P (c.dispatcher.say line) :=
    (Settles.record _).ite (Settles.pure ())
  cases call with
  | ask question =>
      rw [Dispatcher.dispatch, Dispatcher.ask]
      refine hall (fun _ e => (hinvoke e (.ask question)).bind fun handled => ?_) false
      exact Settles.ite ((hsay _).bind fun _ => .pure _) (.pure _)
  | narrow candidates origin =>
      rw [Dispatcher.dispatch, Dispatcher.narrow]
      refine hall (fun left e => Settles.ite (.pure _) ?_) candidates
      exact (hinvoke e (.narrow left origin)).bind fun _ => .pure _
  | contribute missing =>
      rw [Dispatcher.dispatch, Dispatcher.contribute]
      exact hall (fun _ e => (hinvoke e (.contribute missing)).bind fun _ => .pure _) []
  | notify notice =>
      rw [Dispatcher.dispatch, Dispatcher.notify]
      refine Settles.bind (hall (fun _ e => (hinvoke e (.notify notice)).bind fun _ => .pure _) 0)
        fun count => ?_
      cases Dispatcher.summary? count notice with
      | some line => exact hsay line
      | none => exact .pure ()

theorem settles_raise (call : HookCall Occurrence CheckedType) : Settles c.Roomy (c.raise call) := by
  have hget : Settles c.Roomy (get : Session ι μ (SessionState ι μ)) := fun s _ => ⟨s, s, rfl, rfl⟩
  have hdispatch : Settles c.Roomy (c.dispatcher.dispatch call) :=
    (h.settles_dispatch call).mono fun _ => Roomy.length_view
  refine hget.bind fun s => (Settles.record _).bind fun _ => hdispatch.bind fun answer => ?_
  exact (Settles.record _).bind fun _ => .pure answer

/-- Where there is room, the news of anything comes back, and only the journal grows. -/
theorem raise_of_roomy {s : SessionState ι μ} (hs : c.Roomy s.registry)
    (call : HookCall Occurrence CheckedType) :
    ∃ answer t, c.raise call s = .ok answer t ∧ t = { s with journal := t.journal } := by
  rcases raise_answers h.behaviour call s with ⟨t, hcut⟩ | ⟨t, -, hrun, hsame, -⟩
  · obtain ⟨_, _, hrun, -⟩ := h.settles_raise call s hs
    rw [hcut] at hrun
    cases hrun
  · exact ⟨_, t, hrun, hsame⟩

/-- There is room within a closure too, and it is left as it was entered. -/
theorem settles_enclosed (file : SourceFile) {closure : Occurrence}
    (hfits : c.extensions.length + (c.broughtBy closure).length ≤ c.limit) {body : Session ι μ Unit}
    (hbody : Settles c.Roomy body) (hscopes : ∀ s, (body.after s).registry.scopes = s.registry.scopes) :
    Settles c.Roomy ((c.visitor file).enclosed closure body) := by
  intro s hs
  let inside := s.record (.brought closure (c.broughtBy closure))
  have hask : (c.visitor file).checker.localExtensionsFor closure s =
      .ok (c.broughtBy closure) inside := by
    show c.localExtensionsFor closure s = _
    rw [h.localExtensionsFor_eq_record]
    rfl
  have hinside : c.Roomy (inside.entering (c.broughtBy closure)).registry :=
    Roomy.entering (s := inside) hs hfits
  obtain ⟨_, t, hrun, ht⟩ := hbody _ hinside
  refine ⟨(), t.leaving s.registry.scopes, ?_, ?_⟩
  · rw [Visitor.enclosed_apply hscopes, hask]
    dsimp only
    rw [hrun]
    rfl
  · have hglobals : t.registry.globals = s.registry.globals := by
      rw [ht, globals_entering]
      rfl
    exact congrArg₂ Registry.mk hglobals rfl

variable {p : Program} (hroom : c.HasRoom p) {file : SourceFile} (hfile : file ∈ p.files)

include hroom hfile

theorem settles_visitor : (c.visitor file).Composes fun _ m => Settles c.Roomy m := by
  have hsteps : (c.visitor file).Steps fun _ m => Settles c.Roomy m := {
    toIsHandedOn := isHandedOn_settles
    say := fun _ => (Settles.record _).ite (.pure ())
    typeOf := fun o _ s _ => ⟨_, _, rfl, rfl⟩
    hasStored := fun o _ s _ => ⟨_, _, rfl, rfl⟩
    report := fun _ _ _ => Settles.bind (.modify fun _ => rfl) fun _ => .record _
    raise := fun call _ => h.settles_raise call
    enclosed := fun closure hclosure =>
      h.settles_enclosed file (hroom.brought file hfile closure hclosure) }
  refine hsteps.composes fun call target _ _ => Settles.bind (.modify fun _ => rfl) fun _ => ?_
  exact (Settles.record _).bind fun _ => h.settles_raise (.notify (.methodSelection call target))

/-- Every visit to a file of the program comes to its end. -/
theorem settles_visitFile : Settles c.Roomy (c.visitFile file) :=
  visitFile_has (h.settles_visitor hroom hfile)

end OnlyAnswers

end Checker

end ExtensibleCheck
