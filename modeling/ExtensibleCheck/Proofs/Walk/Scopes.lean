import ExtensibleCheck.Proofs.Walk.Shape
import ExtensibleCheck.Session.Check

/-! The scopes during a check. Whenever a hook is used, the closures around its node have been asked for
their extensions, and the active scopes are what they were provided with, that of the innermost closure
first; a closure that brought none opens no scope. A scope is closed however the inside of its closure ends, and the closing never
fails, so it never takes the place of an error that an extension raised. -/

namespace ExtensibleCheck

section

variable {ι : Type}

/-- The extensions that a closure brought along, if the event is that it was entered. -/
def Event.broughtTo? (closure : Occurrence) : Event ι → Option (List ι)
  | brought o extensions => if o.id = closure.id then some extensions else none
  | _ => none

/-- The extensions that a closure brought along when it was entered last. -/
def broughtTo (past : List (Event ι)) (closure : Occurrence) : List ι :=
  (past.reverse.findSome? (Event.broughtTo? closure)).getD []

/-- Those nodes that are closures and brought extensions along. -/
def scopedClosures (past : List (Event ι)) (nodes : List Occurrence) : List Occurrence :=
  nodes.filter fun o => o.kind.isClosure && !(broughtTo past o).isEmpty

/-- The scopes that are to be active between the given nodes, which come from the inside out. -/
def scopesOf (past : List (Event ι)) (nodes : List Occurrence) : List (List ι) :=
  (scopedClosures past nodes).map (broughtTo past)

/-- The nodes around the one that a hook is used for. The first and the last hook of a check are used
for none. -/
def HookCall.around (call : HookCall Occurrence CheckedType) : List Occurrence :=
  (call.node?.map Occurrence.ancestors).getD []

/-- What a closure brought along does not change while other closures are entered. -/
theorem broughtTo_append {past events : List (Event ι)} {o : Occurrence}
    (h : ∀ closure extensions, .brought closure extensions ∈ events → closure.id ≠ o.id) :
    broughtTo (past ++ events) o = broughtTo past o := by
  have hnone : events.reverse.findSome? (Event.broughtTo? o) = none := by
    refine List.findSome?_eq_none_iff.mpr fun e he => ?_
    cases e with
    | brought closure extensions => exact if_neg (h closure extensions (List.mem_reverse.mp he))
    | _ => rfl
  rw [broughtTo, List.reverse_append, List.findSome?_append, hnone]
  rfl

theorem broughtTo_concat (past : List (Event ι)) (o : Occurrence) (extensions : List ι) :
    broughtTo (past ++ [.brought o extensions]) o = extensions := by
  rw [broughtTo, List.reverse_concat, List.findSome?_cons]
  simp [Event.broughtTo?]

theorem scopesOf_append {past events : List (Event ι)} {nodes : List Occurrence}
    (h : ∀ closure extensions, .brought closure extensions ∈ events →
      ∀ a ∈ nodes, closure.id ≠ a.id) :
    scopesOf (past ++ events) nodes = scopesOf past nodes := by
  have hsame (a : Occurrence) (ha : a ∈ nodes) :
      broughtTo (past ++ events) a = broughtTo past a :=
    broughtTo_append fun closure extensions hmem => h closure extensions hmem a ha
  have hclosures : scopedClosures (past ++ events) nodes = scopedClosures past nodes :=
    List.filter_congr fun a ha => by rw [hsame a ha]
  rw [scopesOf, scopesOf, hclosures]
  exact List.map_congr_left fun a ha => hsame a (List.mem_of_mem_filter ha)

/-- A node that is no closure opens no scope. -/
theorem scopesOf_cons_of_not (past : List (Event ι)) {o : Occurrence} (nodes : List Occurrence)
    (h : o.kind.isClosure = false) : scopesOf past (o :: nodes) = scopesOf past nodes := by
  rw [scopesOf, scopedClosures, List.filter_cons_of_neg (by simp [h])]
  rfl

/-- A closure opens a scope if it brought extensions along. -/
theorem scopesOf_cons_of_closure (past : List (Event ι)) {o : Occurrence} (nodes : List Occurrence)
    (h : o.kind.isClosure = true) :
    scopesOf past (o :: nodes) = if (broughtTo past o).isEmpty then scopesOf past nodes
      else broughtTo past o :: scopesOf past nodes := by
  cases hempty : (broughtTo past o).isEmpty with
  | true =>
      rw [scopesOf, scopedClosures, List.filter_cons_of_neg (by simp [hempty])]
      rfl
  | false =>
      rw [scopesOf, scopedClosures, List.filter_cons_of_pos (by simp [h, hempty])]
      rfl

/-- The scopes are as they are to be between the given nodes: the closures among these have been asked for
their extensions, and each that brought any opened a scope. -/
structure InForce (past : List (Event ι)) (nodes : List Occurrence) (scopes : List (List ι)) : Prop where
  scopes : scopes = scopesOf past nodes
  asked : ∀ o ∈ nodes, o.kind.isClosure → ∃ extensions, .brought o extensions ∈ past

namespace InForce

variable {past : List (Event ι)} {nodes : List Occurrence} {scopes : List (List ι)}

/-- What is in force stays in force while other closures are entered. -/
theorem append (h : InForce past nodes scopes) {events : List (Event ι)}
    (hothers : ∀ closure extensions, .brought closure extensions ∈ events →
      ∀ a ∈ nodes, closure.id ≠ a.id) : InForce (past ++ events) nodes scopes := by
  refine ⟨h.scopes.trans (scopesOf_append hothers).symm, fun o ho hclosure => ?_⟩
  obtain ⟨extensions, hbrought⟩ := h.asked o ho hclosure
  exact ⟨extensions, List.mem_append_left _ hbrought⟩

/-- Within a node that is no closure there is the same in force as around it. -/
theorem cons {o : Occurrence} (hplain : o.kind.isClosure = false) :
    InForce past (o :: nodes) scopes ↔ InForce past nodes scopes := by
  have hsame := scopesOf_cons_of_not past nodes hplain
  constructor
  · exact fun h => ⟨h.scopes.trans hsame, fun a ha => h.asked a (List.mem_cons_of_mem _ ha)⟩
  · refine fun h => ⟨h.scopes.trans hsame.symm, fun a ha hclosure => ?_⟩
    rcases List.mem_cons.mp ha with rfl | ha
    · rw [hplain] at hclosure
      cases hclosure
    · exact h.asked a ha hclosure

theorem ancestors {o : Occurrence} (h : InForce past o.lineage scopes)
    (hplain : o.kind.isClosure = false) : InForce past o.ancestors scopes := by
  obtain ⟨file, node, above⟩ := o
  cases above with
  | nil => exact h
  | cons a above => exact (cons hplain).mp h

/-- A closure that has just been asked is in force with what it brought. -/
theorem closure (h : InForce past nodes scopes) {o : Occurrence} (hclosure : o.kind.isClosure = true)
    (hothers : ∀ a ∈ nodes, o.id ≠ a.id) (extensions : List ι) :
    InForce (past ++ [.brought o extensions]) (o :: nodes)
      (if extensions.isEmpty then scopes else extensions :: scopes) := by
  have hbefore : InForce (past ++ [.brought o extensions]) nodes scopes := by
    refine h.append fun closure extensions' hmem => ?_
    cases List.mem_singleton.mp hmem
    exact hothers
  refine ⟨?_, fun a ha ha' => ?_⟩
  · rw [scopesOf_cons_of_closure _ _ hclosure, broughtTo_concat, ← hbefore.scopes]
  · rcases List.mem_cons.mp ha with rfl | ha
    · exact ⟨extensions, List.mem_append_right _ List.mem_cons_self⟩
    · exact hbefore.asked a ha ha'

end InForce

end

section

variable {ι μ : Type} [DecidableEq ι] (c : Checker ι μ)

/-- A hook is used with the scopes that are to be in force by then, and what a closure is entered with is
what its provider has just answered. -/
def Event.FitsScopes (past : List (Event ι)) : Event ι → Prop
  | raised call registry => InForce past call.around registry.scopes
  | brought closure extensions =>
    ∃ s t : SessionState ι μ, c.provided closure s = .ok extensions t ∧ t.journal.toList = past
  | _ => True

/-- All events fit the scopes, each after those before it. -/
def WellScoped (past : List (Event ι)) : List (Event ι) → Prop
  | [] => True
  | e :: rest => e.FitsScopes c past ∧ WellScoped (past ++ [e]) rest

variable {c}

theorem wellScoped_append {past events events' : List (Event ι)} :
    WellScoped c past (events ++ events') ↔
      WellScoped c past events ∧ WellScoped c (past ++ events) events' := by
  induction events generalizing past with
  | nil => simp [WellScoped]
  | cons e events ih =>
      rw [List.cons_append, WellScoped, WellScoped, ih, List.append_assoc, and_assoc]
      rfl

theorem wellScoped_of_quiet {past events : List (Event ι)} (h : ∀ e ∈ events, e.isTurn = false) :
    WellScoped c past events := by
  induction events generalizing past with
  | nil => trivial
  | cons e events ih =>
      refine ⟨?_, ih fun e he => h e (List.mem_cons_of_mem _ he)⟩
      have he := h e List.mem_cons_self
      cases e with
      | raised | brought => cases he
      | _ => trivial

theorem WellScoped.fitsScopes {past events : List (Event ι)} (h : WellScoped c past events) {i : Nat}
    {e : Event ι} (he : events[i]? = some e) : e.FitsScopes c (past ++ events.take i) := by
  induction events generalizing past i with
  | nil => cases he
  | cons first events ih =>
      cases i with
      | zero =>
          cases he
          rw [List.take_zero, List.append_nil]
          exact h.1
      | succ i =>
          have hrest := ih h.2 he
          rwa [List.append_assoc] at hrest

end

open Run Session SessionState

namespace SessionState

section

variable {ι μ : Type}

/-- The state within a closure that brings extensions along. -/
def entering (s : SessionState ι μ) (extensions : List ι) : SessionState ι μ :=
  if extensions.isEmpty then s else { s with registry := s.registry.pushLocal extensions }

/-- The state outside again. -/
def leaving (s : SessionState ι μ) (scopes : List (List ι)) : SessionState ι μ :=
  { s with registry := { s.registry with scopes } }

@[simp] theorem journal_entering (s : SessionState ι μ) (extensions : List ι) :
    (s.entering extensions).journal = s.journal := by
  rw [entering]
  split <;> rfl

theorem scopes_entering (s : SessionState ι μ) (extensions : List ι) :
    (s.entering extensions).registry.scopes =
      if extensions.isEmpty then s.registry.scopes else extensions :: s.registry.scopes := by
  rw [entering]
  split <;> rfl

@[simp] theorem globals_entering (s : SessionState ι μ) (extensions : List ι) :
    (s.entering extensions).registry.globals = s.registry.globals := by
  rw [entering]
  split <;> rfl

theorem leaving_of_scopes_eq {s : SessionState ι μ} {scopes : List (List ι)}
    (h : s.registry.scopes = scopes) : s.leaving scopes = s := by
  subst h
  rfl

end

variable {ι μ : Type} [DecidableEq ι]

/-- Between the given nodes the scopes are as before, no closure among the nodes was entered again, and
if the scopes were as they are to be, then they were so at every use of a hook since. -/
structure Scoped (c : Checker ι μ) (nodes : List Occurrence) (s t : SessionState ι μ) : Prop where
  scopes : t.registry.scopes = s.registry.scopes
  grown : ∃ events, t.journal.toList = s.journal.toList ++ events ∧
    (∀ closure extensions, .brought closure extensions ∈ events →
      ∀ a ∈ nodes, closure.id ≠ a.id) ∧
    (InForce s.journal.toList nodes s.registry.scopes → WellScoped c s.journal.toList events)

variable {c : Checker ι μ}

instance (nodes : List Occurrence) : IsPreorder (SessionState ι μ) (Scoped c nodes) where
  refl s := ⟨rfl, [], (List.append_nil _).symm, (fun _ _ h => nomatch h), fun _ => trivial⟩
  trans := by
    rintro r s t ⟨hscopes, events, hs, hothers, hwell⟩ ⟨hscopes', events', ht, hothers', hwell'⟩
    refine ⟨hscopes'.trans hscopes, events ++ events', ?_, fun closure extensions hmem => ?_,
      fun hr => wellScoped_append.mpr ⟨hwell hr, ?_⟩⟩
    · rw [ht, hs, List.append_assoc]
    · rcases List.mem_append.mp hmem with hmem | hmem
      · exact hothers closure extensions hmem
      · exact hothers' closure extensions hmem
    · rw [← hs]
      apply hwell'
      rw [hscopes, hs]
      exact hr.append hothers

theorem Quiet.scoped {s t : SessionState ι μ} (h : Quiet s t) (nodes : List Occurrence) :
    Scoped c nodes s t := by
  obtain ⟨hscopes, events, ht, hquiet⟩ := h
  refine ⟨hscopes, events, ht, fun closure extensions hmem => ?_, fun _ => wellScoped_of_quiet hquiet⟩
  exact nomatch hquiet _ hmem

/-- What happens within a node that is no closure may as well be seen from around it. -/
theorem Scoped.ofChild {o child : Occurrence} {s t : SessionState ι μ} (hchild : child ∈ o.children)
    (hplain : child.kind.isClosure = false) (h : Scoped c child.lineage s t) :
    Scoped c o.lineage s t := by
  obtain ⟨hscopes, events, ht, hothers, hwell⟩ := h
  rw [Occurrence.lineage_of_mem_children hchild] at hothers hwell
  refine ⟨hscopes, events, ht, fun closure extensions hmem a ha => ?_, fun hs => hwell ?_⟩
  · exact hothers closure extensions hmem a (List.mem_cons_of_mem _ ha)
  · exact (InForce.cons hplain).mpr hs

/-- What happens within a closure, seen from around it: the closure is entered, and left in the end. -/
theorem Scoped.ofClosure {o child : Occurrence} {s r t : SessionState ι μ} {extensions : List ι}
    (hchild : child ∈ o.children) (hclosure : child.kind.isClosure = true)
    (hprovided : c.provided child s = .ok extensions r)
    (h : Scoped c child.lineage ((r.record (.brought child extensions)).entering extensions) t) :
    Scoped c o.lineage s (t.leaving r.registry.scopes) := by
  obtain ⟨hscopes, events, hr, hquiet⟩ := (c.quiet_provided child).state s
  rw [after_of_ok hprovided] at hscopes hr
  obtain ⟨-, events', ht, hothers, hwell⟩ := h
  have hentering : ((r.record (.brought child extensions)).entering extensions).journal.toList =
      s.journal.toList ++ events ++ [.brought child extensions] := by
    rw [journal_entering, journal_record, hr]
  rw [hentering] at ht hwell
  rw [Occurrence.lineage_of_mem_children hchild] at hothers hwell
  have hnever {closure : Occurrence} {extensions' : List ι} {P : Prop}
      (hmem : .brought closure extensions' ∈ events) : P := nomatch hquiet _ hmem
  have houtside : ∀ a ∈ o.lineage, child.id ≠ a.id := by
    intro a ha hid
    rw [← Occurrence.ancestors_of_mem_children hchild] at ha
    exact Occurrence.id_ne_of_mem_ancestors ha hid.symm
  refine ⟨hscopes, events ++ [.brought child extensions] ++ events', ?_,
    fun closure extensions' hmem a ha => ?_, fun hs => wellScoped_append.mpr ⟨?_, ?_⟩⟩
  · rw [← List.append_assoc, ← List.append_assoc]
    exact ht
  · rcases List.mem_append.mp hmem with hmem | hmem
    · rcases List.mem_append.mp hmem with hmem | hmem
      · exact hnever hmem
      · cases List.mem_singleton.mp hmem
        exact houtside a ha
    · exact hothers closure extensions' hmem a (List.mem_cons_of_mem _ ha)
  · exact wellScoped_append.mpr ⟨wellScoped_of_quiet hquiet, ⟨s, r, hprovided, hr⟩, trivial⟩
  · rw [← List.append_assoc]
    refine hwell ?_
    have haround : InForce (s.journal.toList ++ events) o.lineage s.registry.scopes :=
      hs.append fun _ _ hmem => hnever hmem
    rw [scopes_entering]
    exact hscopes ▸ haround.closure hclosure houtside extensions

end SessionState

namespace Checker

variable {ι μ : Type} [DecidableEq ι] (c : Checker ι μ)

/-- The use of a hook fits the scopes between the nodes around it. -/
theorem raise_scoped {nodes : List Occurrence} {call : HookCall Occurrence CheckedType}
    (hplace : ∀ {past : List (Event ι)} {scopes}, InForce past nodes scopes →
      InForce past call.around scopes) :
    Keeps (Scoped c nodes) Halt.isDueToExtensions (c.raise call) := by
  refine ⟨fun s => ?_, (c.writes_raise (P := fun _ => True) (fun _ _ => trivial)
    ⟨fun _ => trivial, fun _ => trivial⟩).halts⟩
  obtain ⟨events, hquiet, hspec⟩ := c.raise_spec call s
  have hbegin (hs : InForce s.journal.toList nodes s.registry.scopes) :
      WellScoped c s.journal.toList (.raised call s.registry :: events) :=
    ⟨hplace hs, wellScoped_of_quiet hquiet⟩
  have hnever {closure : Occurrence} {extensions : List ι} {P : Prop}
      (hmem : .brought closure extensions ∈ events) : P := nomatch hquiet _ hmem
  cases hr : c.raise call s with
  | ok answer t =>
      rw [hr] at hspec
      rw [after_of_ok hr]
      obtain ⟨hscopes, hjournal⟩ := hspec
      refine ⟨hscopes, _, hjournal, fun closure extensions hmem => ?_, fun hs => ?_⟩
      · rcases List.mem_cons.mp hmem with heq | hmem
        · cases heq
        · rcases List.mem_append.mp hmem with hmem | hmem
          · exact hnever hmem
          · cases List.mem_singleton.mp hmem
      · rw [← List.cons_append]
        exact wellScoped_append.mpr ⟨hbegin hs, trivial, trivial⟩
  | error halt t =>
      rw [hr] at hspec
      rw [after_of_error hr]
      obtain ⟨hscopes, hjournal⟩ := hspec
      refine ⟨hscopes, _, hjournal, fun closure extensions hmem => ?_, hbegin⟩
      rcases List.mem_cons.mp hmem with heq | hmem
      · cases heq
      · exact hnever hmem

end Checker

namespace Visitor

variable {ι μ : Type} [DecidableEq ι] {v : Visitor ι μ}

omit [DecidableEq ι] in
/-- Closing a scope that is there cannot fail, so what came before it ends as it did. -/
theorem ensuring_popLocal_apply {α : Type} {body : Session ι μ α} {s : SessionState ι μ}
    {scope : List ι} {outer : List (List ι)}
    (h : (body.after s).registry.scopes = scope :: outer) :
    Run.ensuring body popLocal s = mapState (·.leaving outer) (body s) := by
  cases hb : body s with
  | ok a r =>
      rw [after_of_ok hb] at h
      rw [ensuring_of_ok hb, bind_of_ok (popLocal_of_cons h)]
      rfl
  | error halt r =>
      rw [after_of_error hb] at h
      rw [ensuring_of_error hb, bind_of_ok (popLocal_of_cons h)]
      rfl

/-- The visit to a closure ends as its inside ends, with a result or without one, and the scopes are
afterwards what they were before. -/
theorem enclosed_apply {closure : Occurrence} {body : Session ι μ Unit}
    (hbody : ∀ s, (body.after s).registry.scopes = s.registry.scopes) (s : SessionState ι μ) :
    v.enclosed closure body s =
      match v.checker.localExtensionsFor closure s with
      | .error halt t => .error halt t
      | .ok extensions t =>
        mapState (·.leaving t.registry.scopes) (body (t.entering extensions)) := by
  rw [enclosed]
  cases hask : v.checker.localExtensionsFor closure s with
  | error halt t => exact bind_of_error hask
  | ok extensions t =>
      rw [bind_of_ok hask]
      dsimp only
      have hscopes := hbody (t.entering extensions)
      rw [scopes_entering] at hscopes
      by_cases hempty : extensions.isEmpty = true
      · have henter : t.entering extensions = t := by rw [entering, if_pos hempty]
        rw [henter, if_pos hempty] at hscopes
        rw [henter, if_pos hempty]
        cases hb : body t with
        | ok a r =>
            rw [after_of_ok hb] at hscopes
            exact congrArg (EStateM.Result.ok a) (leaving_of_scopes_eq hscopes).symm
        | error halt r =>
            rw [after_of_error hb] at hscopes
            exact congrArg (EStateM.Result.error halt) (leaving_of_scopes_eq hscopes).symm
      · have henter : (pushLocal extensions : Session ι μ Unit) t =
            .ok () (t.entering extensions) := by
          rw [entering, if_neg hempty]
          rfl
        rw [if_neg hempty] at hscopes
        rw [if_neg hempty, bind_of_ok henter]
        exact ensuring_popLocal_apply hscopes

omit [DecidableEq ι] in
theorem Uses.inForce {o : Occurrence} {call : HookCall Occurrence CheckedType} (h : v.Uses o call)
    {past : List (Event ι)} {scopes : List (List ι)} (hforce : InForce past o.lineage scopes) :
    InForce past call.around scopes := by
  obtain ⟨n, hn, ⟨rfl, hplain⟩ | hchild⟩ := h.node?
  · rw [HookCall.around, hn]
    exact hforce.ancestors hplain
  · rw [HookCall.around, hn, Option.map_some, Option.getD_some,
      Occurrence.ancestors_of_mem_children hchild]
    exact hforce

/-- Seen from around a closure, its visit leaves the scopes alone if its inside does. -/
theorem enclosed_scoped {o child : Occurrence} {body : Session ι μ Unit}
    (hchild : child ∈ o.children) (hclosure : child.kind.isClosure = true)
    (hbody : Keeps (Scoped v.checker child.lineage) Halt.isDueToExtensions body) :
    Keeps (Scoped v.checker o.lineage) Halt.isDueToExtensions (v.enclosed child body) := by
  have hscopes (s : SessionState ι μ) : (body.after s).registry.scopes = s.registry.scopes :=
    (hbody.state s).scopes
  refine ⟨fun s => ?_, fun {s halt t} herror => ?_⟩
  · rw [after, enclosed_apply hscopes, v.checker.localExtensionsFor_apply]
    cases hask : v.checker.provided child s with
    | error halt r =>
        have hquiet := (v.checker.quiet_provided child).state s
        rw [after_of_error hask] at hquiet
        exact hquiet.scoped _
    | ok extensions r =>
        let inside := (r.record (.brought child extensions)).entering extensions
        have hwhole := Scoped.ofClosure hchild hclosure hask (hbody.state inside)
        rw [after] at hwhole
        dsimp only
        cases hb : body inside with
        | ok a u =>
            rw [hb] at hwhole
            exact hwhole
        | error halt u =>
            rw [hb] at hwhole
            exact hwhole
  · rw [enclosed_apply hscopes] at herror
    cases hask : v.checker.localExtensionsFor child s with
    | error halt' r =>
        rw [hask] at herror
        cases herror
        exact (v.checker.writes_localExtensionsFor (P := fun _ => True) (fun _ _ => trivial)
          fun _ => trivial).halts hask
    | ok extensions r =>
        rw [hask] at herror
        dsimp only at herror
        cases hb : body (r.entering extensions) with
        | ok a u =>
            rw [hb] at herror
            cases herror
        | error halt' u =>
            rw [hb] at herror
            cases herror
            exact hbody.halts hb

/-- Every stretch of the walk leaves the scopes as they were, and every hook that it uses fits them. It
is halted by the extensions only. The induction is on how the walk is put together. -/
theorem Walk.scoped {o : Occurrence} {children : List Occurrence} {m : Session ι μ Unit}
    (h : v.Walk o children m) : Keeps (Scoped v.checker o.lineage) Halt.isDueToExtensions m := by
  induction h with
  | stay => exact Keeps.pure ()
  | andThen _ _ ih ih' => exact ih.bind fun _ => ih'
  | quiet hm _ ih => exact (hm.mono (fun h => h.scoped _) id).bind ih
  | use huse _ ih => exact (v.checker.raise_scoped huse.inForce).bind ih
  | inside hchild _ hopen _ _ _ ih => exact ih.mono (Scoped.ofChild hchild hopen) id
  | @announced o child before after _ _ hchild hannounced _ _ ih =>
      obtain ⟨hbefore, hafter, -⟩ := Occurrence.announcement?_spec hannounced
      have haround : child.ancestors = o.lineage := Occurrence.ancestors_of_mem_children hchild
      have hinner := ih.mono
        (Scoped.ofChild hchild (Occurrence.isClosure_of_announcement? hannounced)) id
      have hfirst : Keeps (Scoped v.checker o.lineage) Halt.isDueToExtensions
          (v.checker.raise (.ask before)) :=
        v.checker.raise_scoped fun {past scopes} hforce => by
          show InForce past before.node.ancestors scopes
          rwa [hbefore, haround]
      have hlast : Keeps (Scoped v.checker o.lineage) Halt.isDueToExtensions
          (v.checker.raise (.notify after)) :=
        v.checker.raise_scoped fun hforce => by
          rwa [HookCall.around, HookCall.node?, hafter, Option.map_some, Option.getD_some, haround]
      exact hfirst.bind fun taken => Keeps.ite hlast (hinner.bind fun _ => hlast)
  | enclosed hchild hclosure _ _ ih => exact enclosed_scoped hchild hclosure ih

/-- What goes on inside a closure. -/
def closureBody (v : Visitor ι μ) (o : Occurrence) : Session ι μ Unit := do
  v.visitAmong o (fun _ => true) false 0 o.node.children
  v.checkArrowBody o

/-- A node is visited in the scopes that are active around it, and they are active again afterwards. -/
theorem visit_scoped {parent o : Occurrence} (hfile : parent.file = v.file)
    (ho : o ∈ parent.children) :
    Keeps (Scoped v.checker parent.lineage) Halt.isDueToExtensions
      (v.visit o.above o.isCallee o.node) := by
  obtain ⟨child, branch, -, rfl⟩ := Occurrence.mem_children_iff.mp ho
  have hdeals := v.visit_deals parent ⟨parent.node, branch⟩ parent.above
    (parent.below child branch).isCallee child
  rw [← hfile] at hdeals
  exact (hdeals ho rfl).walk.scoped

theorem visit_of_isClosure {o : Occurrence} (hfile : o.file = v.file) (hclosure : o.kind.isClosure = true)
    (isCallee : Bool) : v.visit o.above isCallee o.node = v.enclosed o (v.closureBody o) := by
  have ht := Occurrence.isClosure_iff.mp hclosure
  obtain ⟨file, ⟨info, children⟩, above⟩ := o
  obtain rfl : file = v.file := hfile
  rw [visit, ht]
  rfl

/-- A closure is visited by going through its inside, within the scope that it opens. -/
theorem visit_closure_apply {o : Occurrence} (hfile : o.file = v.file)
    (hclosure : o.kind.isClosure = true) (isCallee : Bool) (s : SessionState ι μ) :
    v.visit o.above isCallee o.node s =
      match v.checker.localExtensionsFor o s with
      | .error halt t => .error halt t
      | .ok extensions t =>
        mapState (·.leaving t.registry.scopes) (v.closureBody o (t.entering extensions)) := by
  have ht := Occurrence.isClosure_iff.mp hclosure
  have hchildren := v.visitAmong_deals o hfile (fun _ => true) false
    (fun role _ => (calls_eq_false (by simp [ht]) role).symm) 0 o.node.children rfl
  have harrow : v.Twins v.checker o [] (v.checkArrowBody o) _ := Twins.checkArrowBody
  have hbody : v.Walk o _ (v.closureBody o) := (hchildren.andThen harrow.deals).walk
  rw [visit_of_isClosure hfile hclosure, enclosed_apply fun s => (hbody.scoped.state s).scopes]

end Visitor

/-- A run in a scope, which is closed in the end as it was opened. -/
theorem Session.inScope_apply {ι μ : Type} {body : Session ι μ Unit}
    (hscopes : ∀ s, (body.after s).registry.scopes = s.registry.scopes) (extensions : List ι)
    (s : SessionState ι μ) : (do pushLocal extensions; Run.ensuring body popLocal) s =
      mapState (·.leaving s.registry.scopes) (body (s.leaving (extensions :: s.registry.scopes))) :=
  Visitor.ensuring_popLocal_apply (hscopes (s.leaving (extensions :: s.registry.scopes)))

namespace Checker

variable {ι μ : Type} [DecidableEq ι] (c : Checker ι μ)

/-- A whole check uses every hook in the scopes that belong around its node, and is halted by the
extensions only. -/
theorem check_scoped (p : Program) : Keeps (Scoped c []) Halt.isDueToExtensions (c.check p) := by
  have hends (notice : Notice Occurrence CheckedType) (h : notice.node? = none) :
      Keeps (Scoped c []) Halt.isDueToExtensions (c.raise (.notify notice)) :=
    c.raise_scoped fun hforce => by
      rw [HookCall.around, HookCall.node?, h]
      exact hforce
  have hfiles : Keeps (Scoped c []) Halt.isDueToExtensions (p.files.forM c.visitFile) :=
    Keeps.forM fun file _ => (c.visitFile_walk file).scoped
  rw [check]
  refine (c.quiet_start.mono (fun h => h.scoped []) id).bind fun _ => ?_
  refine (hends .setup rfl).bind fun _ => hfiles.bind fun _ => ?_
  exact (hends .finish rfl).bind fun _ => Keeps.get.bind fun _ => Keeps.pure _

/-- Whatever the program, the provider and the behaviour of the extensions, and also if the check is
aborted: a hook is used with the global extensions and those of the innermost closure around its node
that brought any along, and all closures around the node have been asked; what a closure brings along is
what the provider has just answered; a visit to a node restores the scopes; a closure's visit ends as the
inside of the closure does; and what halts a check comes from the extensions, never from closing a scope. -/
theorem check_scopes (p : Program) (memory : μ) :
    let journal := ((c.check p).after { memory }).journal.toList
    (∀ i call registry, journal[i]? = some (.raised call registry) →
      let past := journal.take i
      let closures := scopedClosures past call.around
      registry.view (List.map some) = registry.globals.filterMap id ++
          (closures.head?.map (broughtTo past)).getD [] ∧
        registry.depth = closures.length ∧
        ∀ closure ∈ call.around, closure.kind.isClosure → ∃ extensions,
          .brought closure extensions ∈ past) ∧
    (∀ i closure extensions, journal[i]? = some (.brought closure extensions) →
      ∃ s t : SessionState ι μ, c.provided closure s = .ok extensions t ∧
        t.journal.toList = journal.take i) ∧
    (∀ closure (s : SessionState ι μ), c.localExtensionsFor closure s =
      match c.provided closure s with
      | .error halt t => .error halt t
      | .ok extensions t => .ok extensions (t.record (.brought closure extensions))) ∧
    (∀ parent o : Occurrence, o ∈ parent.children → ∀ s : SessionState ι μ,
      let visit := (c.visitor parent.file).visit o.above o.isCallee o.node
      (visit.after s).registry.scopes = s.registry.scopes ∧
        (o.kind.isClosure → visit s = match c.localExtensionsFor o s with
          | .error halt t => .error halt t
          | .ok extensions t => mapState (·.leaving t.registry.scopes)
              ((c.visitor parent.file).closureBody o (t.entering extensions)))) ∧
    ∀ halt s, c.check p { memory } = .error halt s → halt.isDueToExtensions := by
  intro journal
  have hkeeps := c.check_scoped p
  have hfits {i : Nat} {e : Event ι} (he : journal[i]? = some e) : e.FitsScopes c (journal.take i) := by
    obtain ⟨-, events, hjournal, -, hwell⟩ := hkeeps.state { memory }
    obtain rfl : journal = events := hjournal
    have hnothing : InForce [] [] (({ memory } : SessionState ι μ).registry.scopes) :=
      ⟨rfl, fun _ ho => nomatch ho⟩
    have hfits := (hwell hnothing).fitsScopes he
    rwa [List.nil_append] at hfits
  refine ⟨fun i call registry hraised => ?_, fun i closure extensions hbrought => hfits hbrought,
    c.localExtensionsFor_apply, fun parent o ho s => ⟨?_, fun hclosure => ?_⟩,
    fun halt s herror => hkeeps.halts herror⟩
  · obtain ⟨hscopes, hasked⟩ : InForce _ _ _ := hfits hraised
    refine ⟨?_, ?_, hasked⟩
    · rw [Registry.view, hscopes, List.filterMap_append, scopesOf, List.head?_map]
      cases (scopedClosures (journal.take i) call.around).head? with
      | none => rfl
      | some closure => simp
    · rw [Registry.depth, hscopes, scopesOf, List.length_map]
  · exact (Visitor.visit_scoped (v := c.visitor parent.file) rfl ho).state s |>.scopes
  · exact Visitor.visit_closure_apply (Occurrence.file_of_mem_children ho) hclosure _ s

end Checker

/-- Calls within closures within each other. -/
def nestedArrows : Program :=
  let callee := Node.bare .identifier .expression
  let inner := Node.bare .arrowFunction .argument [.bare .callExpression .body [callee]]
  let middle := Node.bare .arrowFunction .argument [.bare .callExpression .body [callee, inner]]
  let outer := Node.bare .arrowFunction .expression [.bare .callExpression .body [callee, middle]]
  ⟨[⟨0, "nested.ts", "", .bare .sourceFile (.other "") [outer], []⟩]⟩

/-- The outermost of the closures brings an extension along, the one in it none, and the innermost one
an extension that fails. -/
def bringsByDepth : Checker Nat Unit where
  extensions := [.done 0]
  localExtensions := some fun closure =>
    .done (if closure.above.length = 3 then [] else [closure.above.length])
  behaviour
    | 5, .ask (.beforeMethodCall _) => .fail .general "no calls in here"
    | _, call => Behaviour.neutral call
  label _ := .anonymous
  limit := 8

example : ((bringsByDepth.check nestedArrows).after { memory := () }).turns.filterMap (fun
    | .raised _ registry => some registry.scopes
    | _ => none) = [[], [[1]], [[1]], [[5], [1]]] := by decide +kernel

end ExtensibleCheck
