import ExtensibleCheck.Proofs.Run.Keeps

/-! Runs that end alike. States look alike if a view of them is the same. One run follows another if it
ends as the other does whenever both begin in states that look alike; only for some reasons to halt it
may be excused. The states in which runs begin may be bound to an invariant, which the first run has to
keep. -/

namespace ExtensibleCheck

namespace Run

variable {σ α β : Type} {view : σ → σ} {I : σ → Prop} {P : Halt → Prop}

/-- Whether a run ends without a result, for one of the given reasons. -/
def HaltsFor (P : Halt → Prop) : EStateM.Result Halt σ α → Prop
  | .ok _ _ => False
  | .error halt _ => P halt

/-- Whether an invariant holds when a run ends with a result. -/
def EndsIn (I : σ → Prop) : EStateM.Result Halt σ α → Prop
  | .ok _ t => I t
  | .error _ _ => True

theorem haltsFor_mapState (view : σ → σ) (r : EStateM.Result Halt σ α) :
    HaltsFor P (mapState view r) ↔ HaltsFor P r := by
  cases r <;> rfl

theorem not_haltsFor_false {r : EStateM.Result Halt σ α} : ¬ HaltsFor (fun _ => False) r := by
  cases r <;> exact id

/-- From states that look alike, and as long as the invariant holds, the first run ends as the second one
does and keeps the invariant, unless it is excused. -/
def Follows (view : σ → σ) (I : σ → Prop) (P : Halt → Prop) (m m' : Run σ α) : Prop :=
  ∀ s s', view s = view s' → I s →
    HaltsFor P (m s) ∨ mapState view (m s) = mapState view (m' s') ∧ EndsIn I (m s)

/-- Without excuses. -/
abbrev Alike (view : σ → σ) (I : σ → Prop) (m m' : Run σ α) : Prop :=
  Follows view I (fun _ => False) m m'

theorem Follows.pure (a : α) : Follows view I P (pure a) (pure a) :=
  fun _ _ hview hI => Or.inr ⟨congrArg (EStateM.Result.ok a) hview, hI⟩

/-- What halts for one of the reasons follows anything. -/
theorem Follows.ofExcused {halt : Halt} (h : P halt) (m : Run σ α) :
    Follows view I P (throw halt) m :=
  fun _ _ _ _ => Or.inl h

theorem Follows.throw (halt : Halt) : Follows view I P (throw halt : Run σ α) (throw halt) :=
  fun _ _ hview _ => Or.inr ⟨congrArg (EStateM.Result.error halt) hview, trivial⟩

theorem Follows.mono {P' : Halt → Prop} {m m' : Run σ α} (h : Follows view I P m m')
    (hP : ∀ halt, P halt → P' halt) : Follows view I P' m m' := by
  intro s s' hview hI
  refine (h s s' hview hI).imp_left fun hhalts => ?_
  cases hm : m s with
  | ok a t =>
      rw [hm] at hhalts
      exact hhalts
  | error halt t =>
      rw [hm] at hhalts
      exact hP halt hhalts

theorem Alike.follows {m m' : Run σ α} (h : Alike view I m m') : Follows view I P m m' :=
  h.mono fun _ => False.elim

/-- An invariant that the first run keeps anyhow can be added. -/
theorem Follows.keeping {m m' : Run σ α} (h : Follows view (fun _ => True) P m m')
    (hI : ∀ s, I s → EndsIn I (m s)) : Follows view I P m m' :=
  fun s s' hview hs => (h s s' hview trivial).imp_right fun ⟨halike, _⟩ => ⟨halike, hI s hs⟩

theorem Follows.bind {m m' : Run σ α} {f f' : α → Run σ β} (hm : Follows view I P m m')
    (hf : ∀ a, Follows view I P (f a) (f' a)) : Follows view I P (m >>= f) (m' >>= f') := by
  intro s s' hview hI
  have h := hm s s' hview hI
  cases hs : m s with
  | error halt t =>
      rw [hs] at h
      rw [bind_of_error hs]
      refine h.imp_right fun ⟨halike, _⟩ => ?_
      cases hs' : m' s' with
      | ok a t' =>
          rw [hs'] at halike
          cases halike
      | error halt' t' =>
          rw [hs'] at halike
          rw [bind_of_error hs']
          injection halike with hhalt hviews
          exact ⟨by rw [mapState, mapState, hhalt, hviews], trivial⟩
  | ok a t =>
      rw [hs] at h
      rw [bind_of_ok hs]
      rcases h with h | ⟨halike, ht⟩
      · exact h.elim
      cases hs' : m' s' with
      | ok a' t' =>
          rw [hs'] at halike
          rw [bind_of_ok hs']
          injection halike with ha hviews
          exact ha ▸ hf a t t' hviews ht
      | error halt' t' =>
          rw [hs'] at halike
          cases halike

theorem Follows.get_bind {f f' : σ → Run σ α}
    (hf : ∀ s s', view s = view s' → Follows view I P (f s) (f' s')) :
    Follows view I P (get >>= f) (get >>= f') :=
  fun s s' hview hI => hf s s' hview s s' hview hI

/-- What is seen after a change has to come of what is seen before it. -/
theorem Follows.modify {g : σ → σ} (g' : σ → σ) (hg : ∀ s, view (g s) = g' (view s))
    (hI : ∀ s, I s → I (g s)) : Follows view I P (modify g : Run σ Unit) (modify g) := by
  intro s s' hview hs
  refine Or.inr ⟨congrArg (EStateM.Result.ok _) ?_, hI s hs⟩
  rw [hg, hg, hview]

/-- To follow a run that follows another is to follow that one. -/
theorem Follows.trans {m m' m'' : Run σ α} (h : Follows view I P m m') (h' : Follows view I P m' m'') :
    Follows view I P m m'' := by
  intro s s'' hview hI
  rcases h s s rfl hI with hhalts | ⟨halike, hends⟩
  · exact Or.inl hhalts
  rcases h' s s'' hview hI with hhalts | ⟨halike', -⟩
  · rw [← haltsFor_mapState view, ← halike, haltsFor_mapState] at hhalts
    exact Or.inl hhalts
  · exact Or.inr ⟨halike.trans halike', hends⟩

/-- Without excuses it does not matter which run follows which, if the invariant can be seen. -/
theorem Follows.symm {m m' : Run σ α} (hI : ∀ {s s'}, view s = view s' → I s → I s')
    (h : Alike view I m m') : Alike view I m' m := by
  intro s s' hview hs
  obtain ⟨halike, hends⟩ := (h s' s hview.symm (hI hview hs)).resolve_left not_haltsFor_false
  refine Or.inr ⟨halike.symm, ?_⟩
  cases hm' : m' s with
  | error halt t' => trivial
  | ok a' t' =>
      cases hm : m s' with
      | error halt t =>
          rw [hm, hm'] at halike
          cases halike
      | ok a t =>
          rw [hm, hm'] at halike
          rw [hm] at hends
          injection halike with _ hviews
          exact hI hviews hends

end Run

open Run

section

variable {σ α ι κ ν τ μ χ : Type} {view : σ → σ} {I : σ → Prop} {P : Halt → Prop}

/-- Code of an extension in surroundings that serve its requests alike. -/
theorem Action.run_follows {serve serve' : (r : Request ι ν τ μ χ) → Run σ r.Reply}
    (h : ∀ r, Follows view I P (serve r) (serve' r)) (action : Action ι ν τ μ χ α) :
    Follows view I P (action.run serve) (action.run serve') := by
  induction action with
  | done result => exact .pure result
  | fail kind message => exact .throw _
  | request r next ih => exact (h r).bind ih

namespace Dispatcher

/-- Two dispatchers that reach registries which look the same, and of which what the first does and has
its extensions do follows what the second does. -/
structure Resembles (view : σ → σ) (I : σ → Prop) (P : Halt → Prop)
    (d d' : Dispatcher σ ι κ ν τ) : Prop where
  read : d.read = d'.read
  limit : d.limit = d'.limit
  label : d.label = d'.label
  registry : ∀ s s', view s = view s' → d.registry s = d'.registry s'
  say : ∀ line, Follows view I P (d.say line) (d'.say line)
  invoke : ∀ e call, Follows view I P (d.invoke e call) (d'.invoke e call)

namespace Resembles

variable {β : Type} {d d' : Dispatcher σ ι κ ν τ} (h : d.Resembles view I P d')

include h

theorem consult {f f' : β → ι → Run σ (Progress β)}
    (hf : ∀ result e, Follows view I P (f result e) (f' result e)) (limit : Nat)
    (cursor : Cursor κ) (result : β) :
    Follows view I P (d.consult f limit cursor result) (d'.consult f' limit cursor result) := by
  induction limit generalizing cursor result with
  | zero => exact .throw _
  | succ limit ih =>
      refine Follows.get_bind fun s s' hview => ?_
      rw [h.read, h.registry s s' hview]
      obtain ⟨next, cursor⟩ := cursor.advance d'.read (d'.registry s')
      cases next with
      | none => exact .pure result
      | some e =>
          refine (hf result e).bind fun progress => ?_
          cases progress with
          | go result => exact ih cursor result
          | stop result => exact .pure result

theorem consultAll {f f' : β → ι → Run σ (Progress β)}
    (hf : ∀ result e, Follows view I P (f result e) (f' result e)) (start : β) :
    Follows view I P (d.consultAll start f) (d'.consultAll start f') := by
  rw [Dispatcher.consultAll, Dispatcher.consultAll, h.limit]
  exact h.consult hf _ _ start

theorem ask (question : Question ν τ) : Follows view I P (d.ask question) (d'.ask question) := by
  refine h.consultAll (fun _ e => (h.invoke e _).bind fun handled => ?_) false
  cases handled with
  | true =>
      rw [h.label]
      exact (h.say _).bind fun _ => .pure _
  | false => exact .pure _

theorem narrow (candidates : List (Candidate τ)) (origin : ν) :
    Follows view I P (d.narrow candidates origin) (d'.narrow candidates origin) := by
  refine h.consultAll (fun candidates e => ?_) candidates
  split
  · exact .pure _
  · exact (h.invoke e _).bind fun _ => .pure _

theorem contribute (missing : MissingMethod ν τ) :
    Follows view I P (d.contribute missing) (d'.contribute missing) :=
  h.consultAll (fun _ e => (h.invoke e _).bind fun _ => .pure _) []

theorem notify (notice : Notice ν τ) : Follows view I P (d.notify notice) (d'.notify notice) := by
  refine (h.consultAll (fun _ e => (h.invoke e _).bind fun _ => .pure _) 0).bind fun count => ?_
  cases summary? count notice with
  | some line => exact h.say line
  | none => exact .pure ()

theorem dispatch (call : HookCall ν τ) :
    Follows view I P (d.dispatch call) (d'.dispatch call) := by
  cases call with
  | ask question => exact h.ask question
  | narrow candidates origin => exact h.narrow candidates origin
  | contribute missing => exact h.contribute missing
  | notify notice => exact h.notify notice

end Resembles

end Dispatcher

end

end ExtensibleCheck
