import ExtensibleCheck.Proofs.Session.Journal

/-! Two runs side by side. Runs go abreast if, from states that are related, they end in the same way and
in states that are related again. From some point on they may be excused from that: by something about
where the two have come to that lasts, however each of them goes on. -/

namespace ExtensibleCheck

/-- Where a run has come to: whether it was halted there, and what is in the journal. -/
structure Ending (ι : Type) where
  halt : Option Halt
  journal : List (Event ι)

namespace Ending

variable {ι μ α : Type}

/-- How a run has ended, its result aside. -/
def of : EStateM.Result Halt (SessionState ι μ) α → Ending ι
  | .ok _ t => ⟨none, t.journal.toList⟩
  | .error halt t => ⟨some halt, t.journal.toList⟩

/-- Whether a run may go on from one ending to another. What was halted does not go on. -/
structure Leads (e f : Ending ι) : Prop where
  journal : e.journal <+: f.journal
  halted : e.halt.isSome → f = e

theorem Leads.refl (e : Ending ι) : e.Leads e := ⟨List.prefix_rfl, fun _ => rfl⟩

end Ending

/-- What excuses two runs from going on alike, once it holds of where they have come to. -/
structure Excuse (ι : Type) where
  holds : Ending ι → Ending ι → Prop
  lasts : ∀ {e e' f f'}, e.Leads f → e'.Leads f' → holds e e' → holds f f'

namespace Excuse

variable {ι : Type}

/-- That the first run has entered something into its journal that stays noticeable. -/
def ofJournal (P : List (Event ι) → Prop) (hP : ∀ {events}, P events → ∀ rest, P (events ++ rest)) :
    Excuse ι where
  holds e _ := P e.journal
  lasts := by
    rintro e e' f f' ⟨⟨rest, hrest⟩, -⟩ - h
    exact hrest ▸ hP h rest

/-- No excuse at all. -/
def never : Excuse ι where
  holds _ _ := False
  lasts _ _ h := h

/-- That the first run was cut off. -/
def firstCutOff : Excuse ι where
  holds e _ := e.halt = some .exhausted
  lasts := by
    intro e e' f f' h _ hcut
    rw [h.halted (by rw [hcut]; rfl), hcut]

/-- That the second run was cut off. -/
def secondCutOff : Excuse ι where
  holds _ e' := e'.halt = some .exhausted
  lasts := by
    intro e e' f f' _ h hcut
    rw [h.halted (by rw [hcut]; rfl), hcut]

/-- Either of two excuses. -/
def or (E F : Excuse ι) : Excuse ι where
  holds e e' := E.holds e e' ∨ F.holds e e'
  lasts h h' hold := hold.imp (E.lasts h h') (F.lasts h h')

end Excuse

open Run SessionState

/-- What a run comes to, the state aside. -/
def Run.outcome {σ α : Type} (m : Run σ α) (s : σ) : Except Halt α :=
  match m s with
  | .ok a _ => .ok a
  | .error halt _ => .error halt

theorem Run.outcome_of_ok {σ α : Type} {m : Run σ α} {s t : σ} {a : α} (h : m s = .ok a t) :
    m.outcome s = .ok a := by
  rw [outcome, h]

theorem Run.outcome_of_error {σ α : Type} {m : Run σ α} {s t : σ} {halt : Halt}
    (h : m s = .error halt t) : m.outcome s = .error halt := by
  rw [outcome, h]

theorem Run.outcome_ne_of_finishes {σ α : Type} {m : Run σ α} {s : σ} (h : m.finishes s)
    (halt : Halt) : m.outcome s ≠ .error halt := by
  obtain ⟨a, ha⟩ := exists_of_finishes h
  rw [outcome, ha]
  nofun

namespace Session

variable {ι μ α β γ δ : Type}

/-- The run makes the journal longer, if anything. -/
abbrev Grows (m : Session ι μ α) : Prop := Writes (fun _ => True) m

theorem IsQuiet.grows {m : Session ι μ α} (h : IsQuiet m) : Grows m := h.writes fun _ _ => trivial

theorem prefix_after {m : Session ι μ α} (h : Grows m) (s : SessionState ι μ) :
    s.journal.toList <+: (m.after s).journal.toList := by
  obtain ⟨events, hgrown, -⟩ := h.state s
  exact ⟨events, hgrown.symm⟩

/-- The first part of a run leads to the end of the whole. -/
theorem leads_bind {m : Session ι μ α} {f : α → Session ι μ β} (hf : ∀ a, Grows (f a))
    (s : SessionState ι μ) : (Ending.of (m s)).Leads (Ending.of ((m >>= f) s)) := by
  cases hm : m s with
  | error halt r =>
      rw [bind_of_error hm]
      exact .refl _
  | ok a r =>
      rw [bind_of_ok hm]
      have hgrown := prefix_after (hf a) r
      cases hr : f a r with
      | ok b t =>
          rw [after_of_ok hr] at hgrown
          exact ⟨hgrown, fun h => nomatch h⟩
      | error halt t =>
          rw [after_of_error hr] at hgrown
          exact ⟨hgrown, fun h => nomatch h⟩

/-- Two runs have ended in the same way: with related results or for the same reason, and in states that
are related. -/
def Agree (R : SessionState ι μ → SessionState ι μ → Prop) (V : α → β → Prop) :
    EStateM.Result Halt (SessionState ι μ) α → EStateM.Result Halt (SessionState ι μ) β → Prop
  | .ok a t, .ok b t' => V a b ∧ R t t'
  | .error halt t, .error halt' t' => halt = halt' ∧ R t t'
  | _, _ => False

/-- Runs that have ended in the same way have both come to a result, or both to a halt. -/
theorem Agree.cases {R : SessionState ι μ → SessionState ι μ → Prop} {V : α → β → Prop}
    {m : Session ι μ α} {m' : Session ι μ β} {s s' : SessionState ι μ}
    (h : Agree R V (m s) (m' s')) :
    (∃ a b t t', m s = .ok a t ∧ m' s' = .ok b t' ∧ V a b ∧ R t t') ∨
      ∃ halt t t', m s = .error halt t ∧ m' s' = .error halt t' ∧ R t t' := by
  cases hm : m s with
  | ok a t =>
      cases hm' : m' s' with
      | ok b t' =>
          rw [hm, hm'] at h
          exact .inl ⟨a, b, t, t', rfl, rfl, h⟩
      | error halt' t' =>
          rw [hm, hm'] at h
          exact h.elim
  | error halt t =>
      cases hm' : m' s' with
      | ok b t' =>
          rw [hm, hm'] at h
          exact h.elim
      | error halt' t' =>
          rw [hm, hm'] at h
          obtain ⟨rfl, hR⟩ := h
          exact .inr ⟨halt, t, t', rfl, rfl, hR⟩

theorem Agree.mono {R R' : SessionState ι μ → SessionState ι μ → Prop} {V V' : α → β → Prop}
    (hV : ∀ a b, V a b → V' a b) (hR : ∀ {t t'}, R t t' → R' t t') :
    ∀ {r : EStateM.Result Halt (SessionState ι μ) α} {r' : EStateM.Result Halt (SessionState ι μ) β},
      Agree R V r r' → Agree R' V' r r'
  | .ok _ _, .ok _ _, h => ⟨hV _ _ h.1, hR h.2⟩
  | .error _ _, .error _ _, h => ⟨h.1, hR h.2⟩

theorem Agree.mapState {R : SessionState ι μ → SessionState ι μ → Prop} {V : α → β → Prop}
    {f : SessionState ι μ → SessionState ι μ} (hf : ∀ {t t'}, R t t' → R (f t) (f t')) :
    ∀ {r : EStateM.Result Halt (SessionState ι μ) α} {r' : EStateM.Result Halt (SessionState ι μ) β},
      Agree R V r r' → Agree R V (mapState f r) (mapState f r')
  | .ok _ _, .ok _ _, h => ⟨h.1, hf h.2⟩
  | .error _ _, .error _ _, h => ⟨h.1, hf h.2⟩

/-- Two runs that go abreast. They end in the same way from related states, or else they are excused. -/
structure Abreast (E : Excuse ι) (R : SessionState ι μ → SessionState ι μ → Prop) (V : α → β → Prop)
    (m : Session ι μ α) (m' : Session ι μ β) : Prop where
  grows : Grows m
  grows' : Grows m'
  ends : ∀ {s s'}, R s s' → E.holds (.of (m s)) (.of (m' s')) ∨ Agree R V (m s) (m' s')

variable {E : Excuse ι} {R : SessionState ι μ → SessionState ι μ → Prop} {V : α → β → Prop}

namespace Abreast

theorem pure {a : α} {b : β} (h : V a b) :
    Abreast E R V (pure a : Session ι μ α) (pure b : Session ι μ β) :=
  ⟨Keeps.pure a, Keeps.pure b, fun hR => .inr ⟨h, hR⟩⟩

theorem throw (halt : Halt) :
    Abreast E R V (throw halt : Session ι μ α) (throw halt : Session ι μ β) :=
  ⟨Keeps.throw trivial, Keeps.throw trivial, fun hR => .inr ⟨rfl, hR⟩⟩

theorem mono {V' : α → β → Prop} {m : Session ι μ α} {m' : Session ι μ β} (h : Abreast E R V m m')
    (hV : ∀ a b, V a b → V' a b) : Abreast E R V' m m' := by
  refine ⟨h.grows, h.grows', fun {s s'} hR => (h.ends hR).imp_right ?_⟩
  exact Agree.mono hV id

/-- How runs in two parts end, from how their first parts do. What excuses them after the first part
still does after the second. -/
theorem ends_bind {W : γ → δ → Prop} {m : Session ι μ α} {m' : Session ι μ β} {f : α → Session ι μ γ}
    {f' : β → Session ι μ δ} {s s' : SessionState ι μ}
    (hm : E.holds (.of (m s)) (.of (m' s')) ∨ Agree R V (m s) (m' s')) (hgrows : ∀ a, Grows (f a))
    (hgrows' : ∀ b, Grows (f' b)) (hf : ∀ a b, V a b → Abreast E R W (f a) (f' b)) :
    E.holds (.of ((m >>= f) s)) (.of ((m' >>= f') s')) ∨
      Agree R W ((m >>= f) s) ((m' >>= f') s') := by
  rcases hm with hexcused | hagree
  · exact .inl (E.lasts (leads_bind hgrows s) (leads_bind hgrows' s') hexcused)
  rcases hagree.cases with ⟨a, b, t, t', hs, hs', hV, hR⟩ | ⟨halt, t, t', hs, hs', hR⟩
  · rw [bind_of_ok hs, bind_of_ok hs']
    exact (hf a b hV).ends hR
  · rw [bind_of_error hs, bind_of_error hs']
    exact .inr ⟨rfl, hR⟩

theorem bind {W : γ → δ → Prop} {m : Session ι μ α} {m' : Session ι μ β} {f : α → Session ι μ γ}
    {f' : β → Session ι μ δ} (hm : Abreast E R V m m') (hgrows : ∀ a, Grows (f a))
    (hgrows' : ∀ b, Grows (f' b)) (hf : ∀ a b, V a b → Abreast E R W (f a) (f' b)) :
    Abreast E R W (m >>= f) (m' >>= f') :=
  ⟨hm.grows.bind hgrows, hm.grows'.bind hgrows', fun hR => ends_bind (hm.ends hR) hgrows hgrows' hf⟩

/-- Where the first parts have the same result, it is enough that what follows goes abreast for each. -/
theorem andThen {W : γ → δ → Prop} {m m' : Session ι μ α} {f : α → Session ι μ γ}
    {f' : α → Session ι μ δ} (hm : Abreast E R Eq m m') (hf : ∀ a, Abreast E R W (f a) (f' a)) :
    Abreast E R W (m >>= f) (m' >>= f') :=
  hm.bind (fun a => (hf a).grows) (fun a => (hf a).grows') fun a _ hab => hab ▸ hf a

theorem ite {p : Prop} [Decidable p] {m n : Session ι μ α} {m' n' : Session ι μ β}
    (h : p → Abreast E R V m m') (h' : ¬p → Abreast E R V n n') :
    Abreast E R V (if p then m else n) (if p then m' else n') := by
  by_cases hp : p
  · rw [if_pos hp, if_pos hp]
    exact h hp
  · rw [if_neg hp, if_neg hp]
    exact h' hp

theorem forM {f f' : γ → Session ι μ Unit} {xs : List γ} (h : ∀ x ∈ xs, Abreast E R Eq (f x) (f' x)) :
    Abreast E R Eq (xs.forM f) (xs.forM f') := by
  induction xs with
  | nil => exact .pure rfl
  | cons x xs ih =>
      exact (h x List.mem_cons_self).andThen fun _ => ih fun y hy => h y (.tail x hy)

/-- A change of the state that keeps states related. -/
theorem change {f f' : SessionState ι μ → SessionState ι μ}
    (hjournal : ∀ s, (f s).journal = s.journal) (hjournal' : ∀ s, (f' s).journal = s.journal)
    (h : ∀ {s s'}, R s s' → R (f s) (f' s')) :
    Abreast E R Eq (modify f : Session ι μ Unit) (modify f') := by
  have hgrows {g : SessionState ι μ → SessionState ι μ} (hg : ∀ s, (g s).journal = s.journal) :
      Grows (modify g : Session ι μ Unit) :=
    Keeps.modify fun s => ⟨[], by rw [hg, List.append_nil], List.forall_mem_nil _⟩
  exact ⟨hgrows hjournal, hgrows hjournal', fun hR => .inr ⟨rfl, h hR⟩⟩

theorem record {e e' : Event ι} (h : ∀ {s s'}, R s s' → R (s.record e) (s'.record e')) :
    Abreast E R Eq (record e : Session ι μ Unit) (record e') :=
  ⟨Keeps.modify fun s => wrote_record s trivial, Keeps.modify fun s => wrote_record s trivial,
    fun hR => .inr ⟨rfl, h hR⟩⟩

/-- Whatever goes abreast for one relation may do so for another from states that the one relates, if it
leaves them so that the other relates them. -/
theorem within {S : SessionState ι μ → SessionState ι μ → Prop} {m : Session ι μ α}
    {m' : Session ι μ β} (h : Abreast E S V m m') {s s' : SessionState ι μ} (hS : S s s')
    (hback : ∀ {t t'}, S t t' → R t t') :
    E.holds (.of (m s)) (.of (m' s')) ∨ Agree R V (m s) (m' s') :=
  (h.ends hS).imp_right (Agree.mono (fun _ _ => id) hback)

/-- Code of an extension in surroundings that serve its requests abreast. -/
theorem run {serve serve' : (r : Request ι Occurrence CheckedType μ Empty) → Session ι μ r.Reply}
    (h : ∀ r, Abreast E R Eq (serve r) (serve' r)) (action : SessionAction ι μ α) :
    Abreast E R Eq (action.run serve) (action.run serve') := by
  induction action with
  | done result => exact .pure rfl
  | fail kind message => exact .throw _
  | request r next ih => exact (h r).andThen ih

end Abreast

theorem Agree.after {m : Session ι μ α} {m' : Session ι μ β} {s s' : SessionState ι μ}
    (h : Agree R V (m s) (m' s')) : R (m.after s) (m'.after s') := by
  rcases h.cases with ⟨a, b, t, t', hm, hm', -, hR⟩ | ⟨halt, t, t', hm, hm', hR⟩
  · rwa [after_of_ok hm, after_of_ok hm']
  · rwa [after_of_error hm, after_of_error hm']

/-- They are halted for the same reason, if at all. -/
theorem Agree.outcome_error_iff {m : Session ι μ α} {m' : Session ι μ β} {s s' : SessionState ι μ}
    (h : Agree R V (m s) (m' s')) (halt : Halt) :
    m'.outcome s' = .error halt ↔ m.outcome s = .error halt := by
  rcases h.cases with ⟨a, b, t, t', hm, hm', -⟩ | ⟨halt, t, t', hm, hm', -⟩
  · rw [outcome_of_ok hm, outcome_of_ok hm']
    simp
  · rw [outcome_of_error hm, outcome_of_error hm']
    simp

theorem Agree.outcome_eq {m m' : Session ι μ α} {s s' : SessionState ι μ}
    (h : Agree R Eq (m s) (m' s')) : m'.outcome s' = m.outcome s := by
  rcases h.cases with ⟨a, b, t, t', hm, hm', rfl, -⟩ | ⟨halt, t, t', hm, hm', -⟩
  · rw [outcome_of_ok hm, outcome_of_ok hm']
  · rw [outcome_of_error hm, outcome_of_error hm']

theorem journal_ending (m : Session ι μ α) (s : SessionState ι μ) :
    (Ending.of (m s)).journal = (m.after s).journal.toList := by
  unfold after
  cases m s <;> rfl

theorem outcome_of_ending {m : Session ι μ α} {s : SessionState ι μ} {halt : Halt}
    (h : (Ending.of (m s)).halt = some halt) : m.outcome s = .error halt := by
  cases hm : m s <;> rw [hm] at h <;> cases h
  exact outcome_of_error hm

end Session

namespace Checker

open Session

variable {ι μ : Type} [DecidableEq ι] (c : Checker ι μ) (call : HookCall Occurrence CheckedType)

theorem grows_raise : Grows (c.raise call) :=
  writes_of_keeps (c.writes_raise (fun _ _ => trivial) ⟨fun _ => trivial, fun _ => trivial⟩)

/-- The use of a hook is entered with the registry as it is, and then it is dispatched. -/
theorem raise_apply (s : SessionState ι μ) : c.raise call s =
    (c.dispatcher.dispatch call >>= fun answer => do
      record (.settled call answer)
      return answer) (s.record (.raised call s.registry)) := rfl

end Checker

end ExtensibleCheck
