import ExtensibleCheck.Proofs.Session.Broadcast
import ExtensibleCheck.Proofs.Walk.Pace

/-! What is run in the course of a run. A run that halts somewhere within another halts that one too,
for the same reason, and nothing happens any more except that the scopes are closed. Every consultation
in the journal of a run is where code of an extension begins to be run in it, and whatever a closure brings
along is what the code of the provider, which has just been run in it, has answered. -/

namespace ExtensibleCheck

open Run SessionState

/-- Whether the event tells that code of an extension is run. -/
def Event.showsCode {ι : Type} : Event ι → Bool
  | consulted _ _ | brought _ _ => true
  | _ => false

theorem Event.showsCode_of_isRequest {ι : Type} {e : Event ι} (h : e.isRequest) : e.showsCode = false := by
  cases e with
  | consulted | brought => cases h
  | _ => rfl

namespace Session

variable {ι μ α β γ : Type}

/-- In the course of a run from some state another one is run, from the state `t`. -/
inductive Involves (a : Session ι μ β) (t : SessionState ι μ) :
    {α : Type} → Session ι μ α → SessionState ι μ → Prop
  | whole : Involves a t a t
  | first {α γ m s} {f : α → Session ι μ γ} : Involves a t m s → Involves a t (m >>= f) s
  | later {α γ m s r x} {f : α → Session ι μ γ} : m s = .ok x r → Involves a t (f x) r →
      Involves a t (m >>= f) s
  /-- Within a scope that the inner run leaves open just as it found it. -/
  | inScope {body : Session ι μ Unit} {extensions s} :
      (∀ s, (body.after s).registry.scopes = s.registry.scopes) →
      Involves a t body (s.leaving (extensions :: s.registry.scopes)) →
      Involves a t (do pushLocal extensions; Run.ensuring body popLocal) s

/-- Whatever halts a run in the course of another one halts that one too. The state stays as it was,
scopes aside. -/
theorem Involves.halts {a : Session ι μ β} {m : Session ι μ α} {s t u : SessionState ι μ} {halt : Halt}
    (h : Involves a t m s) (ha : a t = .error halt u) :
    ∃ scopes, m s = .error halt (u.leaving scopes) := by
  induction h with
  | whole => exact ⟨u.registry.scopes, ha⟩
  | first _ ih =>
      obtain ⟨scopes, hm⟩ := ih
      exact ⟨scopes, bind_of_error hm⟩
  | later hm _ ih =>
      obtain ⟨scopes, hrest⟩ := ih
      exact ⟨scopes, (bind_of_ok hm).trans hrest⟩
  | @inScope body extensions s hscopes _ ih =>
      obtain ⟨scopes, hbody⟩ := ih
      refine ⟨s.registry.scopes, ?_⟩
      rw [inScope_apply hscopes, hbody]
      rfl

/-- What is run in the course of a run that is run in the course of another one, is run in the course of
that one. -/
theorem Involves.trans {a : Session ι μ β} {b : Session ι μ γ} {m : Session ι μ α} {s t u : SessionState ι μ}
    (h : Involves a t m s) (h' : Involves b u a t) : Involves b u m s := by
  induction h with
  | whole => exact h'
  | first _ ih => exact ih.first
  | later hm _ ih => exact .later hm ih
  | inScope hscopes _ ih => exact .inScope hscopes ih

section

variable [DecidableEq ι]

/-- The code that an entry of the journal tells of, with the state from which it is run: that of an extension,
from the moment at which it is consulted, or that of the provider, which ends with what is brought along. -/
inductive Shows (c : Checker ι μ) (past : List (Event ι)) :
    Event ι → {β : Type} → Session ι μ β → SessionState ι μ → Prop
  | consulted {e call t} : t.journal.toList = past ++ [.consulted e call] →
      Shows c past (.consulted e call) ((c.behaviour e call).run serve) t
  | brought {closure extensions t u} : c.provided closure t = .ok extensions u →
      u.journal.toList = past → Shows c past (.brought closure extensions) (c.provided closure) t

/-- Code that an entry of a run tells of is run in the course of it. -/
structure Attributed (c : Checker ι μ) (m : Session ι μ α) : Prop where
  grows : Grows m
  shown : ∀ {s past e}, e.showsCode → s.journal.toList <+: past →
    past ++ [e] <+: (m.after s).journal.toList →
      ∃ (β : Type) (code : Session ι μ β) (t : SessionState ι μ), Shows c past e code t ∧ Involves code t m s

end

namespace Attributed

variable [DecidableEq ι] {c : Checker ι μ}

/-- Where no code is run there is nothing to show. -/
theorem ofSilent {m : Session ι μ α} (h : Writes (fun e => e.showsCode = false) m) :
    Attributed c m := by
  refine ⟨h.mono (fun hwrote => hwrote.mono fun _ _ => trivial) id, fun {s past e} he hs hafter => ?_⟩
  obtain ⟨events, hjournal, hsilent⟩ := h.state s
  rw [hjournal] at hafter
  obtain ⟨since, rfl⟩ := hs
  rw [List.append_assoc, List.prefix_append_right_inj] at hafter
  rw [hsilent e (hafter.subset (by simp))] at he
  cases he

theorem pure (a : α) : Attributed c (pure a : Session ι μ α) := .ofSilent (Keeps.pure a)

theorem bind {m : Session ι μ α} {f : α → Session ι μ γ} (hm : Attributed c m)
    (hf : ∀ a, Attributed c (f a)) : Attributed c (m >>= f) := by
  refine ⟨hm.grows.bind fun a => (hf a).grows, fun {s past e} he hs hafter => ?_⟩
  have hearly (hfirst : past ++ [e] <+: (m.after s).journal.toList) :
      ∃ (β : Type) (code : Session ι μ β) (t : SessionState ι μ),
        Shows c past e code t ∧ Involves code t (m >>= f) s := by
    obtain ⟨β, code, t, hshows, hinvolves⟩ := hm.shown he hs hfirst
    exact ⟨β, code, t, hshows, hinvolves.first⟩
  cases hrun : m s with
  | error halt r =>
      rw [after_of_error (bind_of_error hrun), ← after_of_error hrun] at hafter
      exact hearly hafter
  | ok a r =>
      have hsame : (m >>= f).after s = (f a).after r := by
        rw [after, after, bind_of_ok hrun]
      rw [hsame] at hafter
      have hgrown := prefix_after (hf a).grows r
      rw [after_of_ok hrun] at hearly
      -- The entry was made by the first part, or it is still to come there.
      rcases List.prefix_or_prefix_of_prefix hafter hgrown with hfirst | hlater
      · exact hearly hfirst
      · rcases List.prefix_concat_iff.mp hlater with hlast | hlater
        · exact hearly (hlast ▸ List.prefix_rfl)
        · obtain ⟨β, code, t, hshows, hinvolves⟩ := (hf a).shown he hlater hafter
          exact ⟨β, code, t, hshows, .later hrun hinvolves⟩

theorem ite {p : Prop} [Decidable p] {m m' : Session ι μ α} (h : Attributed c m) (h' : Attributed c m') :
    Attributed c (if p then m else m') := by
  by_cases hp : p
  · rwa [if_pos hp]
  · rwa [if_neg hp]

theorem record {e : Event ι} (h : e.showsCode = false) : Attributed c (record e) :=
  .ofSilent (writes_record h)

/-- Code of an extension cannot have other code run. -/
theorem run (action : SessionAction ι μ α) : Attributed c (action.run serve) :=
  .ofSilent ((requests_run action).mono (fun hwrote => hwrote.mono fun _ => Event.showsCode_of_isRequest) id)

/-- A scope is closed in the end as it was opened. -/
theorem inScope {body : Session ι μ Unit} (h : Attributed c body)
    (hscopes : ∀ s, (body.after s).registry.scopes = s.registry.scopes) (extensions : List ι) :
    Attributed c (do pushLocal extensions; Run.ensuring body popLocal) := by
  refine ⟨(writes_pushLocal _ extensions).bind fun _ => h.grows.ensuring (writes_popLocal _),
    fun {s past e} he hs hafter => ?_⟩
  have hjournal : ((do
        pushLocal extensions
        Run.ensuring body popLocal : Session ι μ Unit).after s).journal =
      (body.after (s.leaving (extensions :: s.registry.scopes))).journal := by
    rw [after, inScope_apply hscopes, after]
    cases body (s.leaving (extensions :: s.registry.scopes)) <;> rfl
  rw [hjournal] at hafter
  obtain ⟨β, code, t, hshows, hinvolves⟩ :=
    h.shown (s := s.leaving (extensions :: s.registry.scopes)) he hs hafter
  exact ⟨β, code, t, hshows, .inScope hscopes hinvolves⟩

end Attributed

end Session

open Session

namespace Checker

variable {ι μ : Type} [DecidableEq ι] {c : Checker ι μ}

theorem attributed_invoke (extension : ι) (call : HookCall Occurrence CheckedType) :
    Attributed c (c.invoke extension call) := by
  have hrun : Attributed c ((c.behaviour extension call).run serve) := .run _
  have hgrows : Grows (record (.consulted extension call) : Session ι μ Unit) := writes_record trivial
  refine ⟨hgrows.bind fun _ => hrun.grows, fun {s past e} he hs hafter => ?_⟩
  have hbegin := s.journal_record (.consulted extension call)
  have hgrown := prefix_after hrun.grows (s.record (.consulted extension call))
  rw [hbegin] at hgrown
  have hfirst (hsame : past ++ [e] = s.journal.toList ++ [.consulted extension call]) :
      ∃ (β : Type) (code : Session ι μ β) (t : SessionState ι μ),
        Shows c past e code t ∧ Involves code t (c.invoke extension call) s := by
    obtain ⟨rfl, hconsulted⟩ := List.append_inj' hsame rfl
    obtain rfl := List.singleton_inj.mp hconsulted
    exact ⟨_, _, s.record (.consulted extension call), .consulted hbegin, .later rfl .whole⟩
  -- The first entry is the consultation, and the others are those of the code that is run then.
  rcases List.prefix_or_prefix_of_prefix hafter hgrown with hearly | hlate
  · rcases List.prefix_concat_iff.mp hearly with hsame | hbefore
    · exact hfirst hsame
    · have hlength := hbefore.length_le
      have hold := hs.length_le
      rw [List.length_append, List.length_singleton] at hlength
      omega
  · rcases List.prefix_concat_iff.mp hlate with hsame | hlater
    · exact hfirst hsame.symm
    · obtain ⟨β, code, t, hshows, hinvolves⟩ := hrun.shown he (hbegin ▸ hlater) hafter
      exact ⟨β, code, t, hshows, .later rfl hinvolves⟩

theorem attributed_consult {β : Type} {f : β → ι → Session ι μ (Progress β)}
    (hf : ∀ b e, Attributed c (f b e)) (limit : Nat) (cursor : Cursor (List ι)) (result : β) :
    Attributed c (c.dispatcher.consult f limit cursor result) := by
  induction limit generalizing cursor result with
  | zero => exact .ofSilent (Keeps.throw trivial)
  | succ limit ih =>
      rw [Dispatcher.consult]
      refine (Attributed.ofSilent Keeps.get).bind fun s => ?_
      split
      · exact .pure result
      · refine (hf result _).bind fun progress => ?_
        cases progress with
        | go result => exact ih _ result
        | stop result => exact .pure result

theorem attributed_dispatch (call : HookCall Occurrence CheckedType) :
    Attributed c (c.dispatcher.dispatch call) := by
  have hinvoke := attributed_invoke (c := c)
  have hsay (line : String) : Attributed c (c.dispatcher.say line) := .ite (.record rfl) (.pure ())
  cases call with
  | ask question =>
      refine attributed_consult (fun _ e => (hinvoke e (.ask question)).bind fun answer => ?_) _ _ _
      exact .ite ((hsay _).bind fun _ => .pure _) (.pure _)
  | narrow candidates origin =>
      refine attributed_consult (fun candidates e => .ite (.pure _) ?_) _ _ _
      exact (hinvoke e (.narrow candidates origin)).bind fun _ => .pure _
  | contribute missing =>
      exact attributed_consult (fun _ e => (hinvoke e (.contribute missing)).bind fun _ => .pure _) _ _ _
  | notify notice =>
      have hall : Attributed c (c.dispatcher.consultAll 0 fun count extension => do
          c.dispatcher.invoke extension (.notify notice)
          return .go (count + 1)) :=
        attributed_consult (fun _ e => (hinvoke e (.notify notice)).bind fun _ => .pure _) _ _ _
      refine hall.bind fun count => ?_
      cases Dispatcher.summary? count notice with
      | some line => exact hsay line
      | none => exact .pure ()

theorem attributed_raise (call : HookCall Occurrence CheckedType) : Attributed c (c.raise call) :=
  (Attributed.ofSilent Keeps.get).bind fun _ => (Attributed.record rfl).bind fun _ =>
    (attributed_dispatch call).bind fun _ => (Attributed.record rfl).bind fun _ => .pure _

/-- When a closure is asked for its extensions, the code of the provider is run. -/
theorem involves_provided (closure : Occurrence) (s : SessionState ι μ) :
    Involves (c.provided closure) s (c.localExtensionsFor closure) s := by
  rw [localExtensionsFor_eq]
  exact .first .whole

theorem attributed_localExtensionsFor (closure : Occurrence) :
    Attributed c (c.localExtensionsFor closure) := by
  have hprovided : Attributed c (c.provided closure) := by
    rw [provided]
    cases c.localExtensions with
    | none => exact .pure []
    | some provide => exact .run (provide closure)
  have hgrows : Grows (c.localExtensionsFor closure) :=
    writes_of_keeps (c.writes_localExtensionsFor (fun _ _ => trivial) fun _ => trivial)
  refine ⟨hgrows, fun {s past e} he hs hafter => ?_⟩
  have hinner (h : past ++ [e] <+: ((c.provided closure).after s).journal.toList) :
      ∃ (β : Type) (code : Session ι μ β) (t : SessionState ι μ),
        Shows c past e code t ∧ Involves code t (c.localExtensionsFor closure) s := by
    obtain ⟨β, code, t, hshows, hinvolves⟩ := hprovided.shown he hs h
    exact ⟨β, code, t, hshows, (c.involves_provided closure s).trans hinvolves⟩
  rw [Run.after, localExtensionsFor_apply] at hafter
  cases hanswer : c.provided closure s with
  | error halt t =>
      rw [hanswer] at hafter
      rw [after_of_error hanswer] at hinner
      exact hinner hafter
  | ok extensions t =>
      rw [hanswer] at hafter
      rw [after_of_ok hanswer] at hinner
      have hend : past ++ [e] <+: t.journal.toList ++ [.brought closure extensions] :=
        t.journal_record (.brought closure extensions) ▸ hafter
      rcases List.prefix_concat_iff.mp hend with hlast | hbefore
      · obtain ⟨rfl, hbrought⟩ := List.append_inj' hlast rfl
        obtain rfl := List.singleton_inj.mp hbrought
        exact ⟨_, _, s, .brought hanswer rfl, c.involves_provided closure s⟩
      · exact hinner hbefore

end Checker

end ExtensibleCheck
