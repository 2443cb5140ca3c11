import ExtensibleCheck.Dispatch
import Mathlib.Order.Defs.Unbundled

/-! What a run does to the state however it ends, and why it may end without a result. A relation
between the state before and the state after that is reflexive and transitive holds of a whole run as
soon as it holds of its steps, and a run halts for no other reasons than its steps do. In particular
both hold of a dispatch if they hold of what every extension does. -/

namespace ExtensibleCheck

namespace Run

variable {σ α β : Type}

/-- The state in which a run ends, with a result or without one. -/
def after (m : Run σ α) (s : σ) : σ :=
  match m s with
  | .ok _ t | .error _ t => t

/-- The same ending in another state. -/
def mapState (f : σ → σ) : EStateM.Result Halt σ α → EStateM.Result Halt σ α
  | .ok a s => .ok a (f s)
  | .error halt s => .error halt (f s)

/-- Whether a run ends with a result. -/
def finishes (m : Run σ α) (s : σ) : Bool :=
  match m s with
  | .ok _ _ => true
  | .error _ _ => false

/-- The state after a run is related to the state before it however the run ends, and if it ends
without a result, then for one of the given reasons. -/
structure Keeps (R : σ → σ → Prop) (P : Halt → Prop) (m : Run σ α) : Prop where
  state : ∀ s, R s (m.after s)
  halts : ∀ {s halt t}, m s = .error halt t → P halt

theorem after_of_ok {m : Run σ α} {s t : σ} {a : α} (h : m s = .ok a t) : m.after s = t := by
  rw [after, h]

theorem after_of_error {m : Run σ α} {s t : σ} {halt : Halt} (h : m s = .error halt t) :
    m.after s = t := by
  rw [after, h]

theorem exists_of_finishes {m : Run σ α} {s : σ} (h : m.finishes s) :
    ∃ a, m s = .ok a (m.after s) := by
  cases hm : m s with
  | ok a t =>
      rw [after_of_ok hm]
      exact ⟨a, rfl⟩
  | error halt t =>
      rw [finishes, hm] at h
      cases h

theorem bind_of_ok {m : Run σ α} {f : α → Run σ β} {s r : σ} {a : α} (h : m s = .ok a r) :
    (m >>= f) s = f a r := by
  show EStateM.bind m f s = _
  simp only [EStateM.bind, h]

theorem bind_of_error {m : Run σ α} {f : α → Run σ β} {s r : σ} {halt : Halt}
    (h : m s = .error halt r) : (m >>= f) s = .error halt r := by
  show EStateM.bind m f s = _
  simp only [EStateM.bind, h]

/-- A run in two parts goes through where the first part ended. -/
theorem bind_eq_ok_iff {m : Run σ α} {f : α → Run σ β} {s t : σ} {b : β} :
    (m >>= f) s = .ok b t ↔ ∃ a r, m s = .ok a r ∧ f a r = .ok b t := by
  cases h : m s with
  | ok a r =>
      rw [bind_of_ok h]
      constructor
      · intro hf
        exact ⟨a, r, rfl, hf⟩
      · rintro ⟨_, _, ⟨⟩, hf⟩
        exact hf
  | error halt r => simp [bind_of_error h]

theorem bind_eq_error_iff {m : Run σ α} {f : α → Run σ β} {s t : σ} {halt : Halt} :
    (m >>= f) s = .error halt t ↔
      m s = .error halt t ∨ ∃ a r, m s = .ok a r ∧ f a r = .error halt t := by
  cases h : m s with
  | ok a r =>
      rw [bind_of_ok h]
      constructor
      · intro hf
        exact Or.inr ⟨a, r, rfl, hf⟩
      · rintro (herror | ⟨_, _, ⟨⟩, hf⟩)
        · cases herror
        · exact hf
  | error halt r => simp [bind_of_error h]

theorem ensuring_of_ok {body : Run σ α} {release : Run σ Unit} {s r : σ} {a : α}
    (h : body s = .ok a r) : ensuring body release s = (release >>= fun _ => pure a) r := by
  simp only [ensuring, h]

theorem ensuring_of_error {body : Run σ α} {release : Run σ Unit} {s r : σ} {halt : Halt}
    (h : body s = .error halt r) :
    ensuring body release s = (release >>= fun _ => throw halt) r := by
  simp only [ensuring, h]

theorem ensuring_eq_ok_iff {body : Run σ α} {release : Run σ Unit} {s t : σ} {a : α} :
    ensuring body release s = .ok a t ↔ ∃ r, body s = .ok a r ∧ release r = .ok () t := by
  cases h : body s with
  | ok b r =>
      rw [ensuring_of_ok h, bind_eq_ok_iff]
      constructor
      · rintro ⟨_, _, hrelease, ⟨⟩⟩
        exact ⟨r, rfl, hrelease⟩
      · rintro ⟨_, ⟨⟩, hrelease⟩
        exact ⟨(), t, hrelease, rfl⟩
  | error halt r =>
      rw [ensuring_of_error h, bind_eq_ok_iff]
      constructor
      · rintro ⟨_, _, _, hthrow⟩
        cases hthrow
      · rintro ⟨_, hbody, _⟩
        cases hbody

theorem Keeps.mono {R R' : σ → σ → Prop} {P P' : Halt → Prop} {m : Run σ α} (hm : m.Keeps R P)
    (h : ∀ {s t}, R s t → R' s t) (hP : ∀ {halt}, P halt → P' halt) : m.Keeps R' P' :=
  ⟨fun s => h (hm.state s), fun herror => hP (hm.halts herror)⟩

section

variable {R : σ → σ → Prop} {P : Halt → Prop}

theorem Keeps.modify {f : σ → σ} (h : ∀ s, R s (f s)) : Keeps R P (modify f : Run σ Unit) :=
  ⟨h, fun herror => nomatch herror⟩

theorem Keeps.ite {p : Prop} [Decidable p] {m m' : Run σ α} (hm : m.Keeps R P)
    (hm' : m'.Keeps R P) : Keeps R P (if p then m else m') := by
  split
  · exact hm
  · exact hm'

variable [IsPreorder σ R]

theorem Keeps.pure (a : α) : Keeps R P (pure a : Run σ α) :=
  ⟨fun s => refl_of R s, fun herror => nomatch herror⟩

theorem Keeps.throw {halt : Halt} (h : P halt) : Keeps R P (throw halt : Run σ α) := by
  refine ⟨fun s => refl_of R s, fun herror => ?_⟩
  cases herror
  exact h

theorem Keeps.get : Keeps R P (get : Run σ σ) :=
  ⟨fun s => refl_of R s, fun herror => nomatch herror⟩

theorem Keeps.bind {m : Run σ α} {f : α → Run σ β} (hm : m.Keeps R P)
    (hf : ∀ a, (f a).Keeps R P) : Keeps R P (m >>= f) := by
  constructor
  · intro s
    have h := hm.state s
    cases hs : m s with
    | ok a r =>
        rw [after_of_ok hs] at h
        rw [after, bind_of_ok hs]
        exact trans_of R h ((hf a).state r)
    | error halt r =>
        rw [after_of_error hs] at h
        rw [after, bind_of_error hs]
        exact h
  · intro s halt t h
    rcases bind_eq_error_iff.mp h with h | ⟨a, r, -, h⟩
    · exact hm.halts h
    · exact (hf a).halts h

/-- Where nothing is said about halts, it is enough that the second part keeps the relation from the states
in which the first part ends. -/
theorem Keeps.bind_of_ok {m : Run σ α} {f : α → Run σ β} (hm : m.Keeps R fun _ => True)
    (hf : ∀ {s a r}, m s = .ok a r → R r ((f a).after r)) : Keeps R (fun _ => True) (m >>= f) := by
  refine ⟨fun s => ?_, fun _ => trivial⟩
  have h := hm.state s
  cases hs : m s with
  | error halt r =>
      rw [after_of_error hs] at h
      rwa [after, Run.bind_of_error hs]
  | ok a r =>
      rw [after_of_ok hs] at h
      rw [after, Run.bind_of_ok hs]
      exact trans_of R h (hf hs)

theorem Keeps.ensuring {body : Run σ α} {release : Run σ Unit} (hbody : body.Keeps R P)
    (hrelease : release.Keeps R P) : Keeps R P (ensuring body release) := by
  constructor
  · intro s
    have h := hbody.state s
    cases hs : body s with
    | ok a r =>
        rw [after_of_ok hs] at h
        have hrest := (hrelease.bind fun _ => Keeps.pure a).state r
        rw [after, ← ensuring_of_ok hs] at hrest
        exact trans_of R h hrest
    | error halt r =>
        rw [after_of_error hs] at h
        have hrest := (hrelease.bind fun _ => Keeps.throw (α := α) (hbody.halts hs)).state r
        rw [after, ← ensuring_of_error hs] at hrest
        exact trans_of R h hrest
  · intro s halt t h
    cases hs : body s with
    | ok a r =>
        rw [ensuring_of_ok hs] at h
        exact (hrelease.bind fun _ => Keeps.pure a).halts h
    | error halt' r =>
        rw [ensuring_of_error hs] at h
        exact (hrelease.bind fun _ => Keeps.throw (α := α) (hbody.halts hs)).halts h

theorem Keeps.forM {f : α → Run σ PUnit} {as : List α} (hf : ∀ a ∈ as, (f a).Keeps R P) :
    Keeps R P (as.forM f) := by
  induction as with
  | nil => exact Keeps.pure PUnit.unit
  | cons a as ih =>
      show Keeps R P (f a >>= fun _ => as.forM f)
      exact (hf a List.mem_cons_self).bind fun _ =>
        ih fun b hb => hf b (List.mem_cons_of_mem a hb)

end

end Run

open Run

section Action

variable {ι ν τ μ χ σ α : Type} {R : σ → σ → Prop} {P : Halt → Prop} [IsPreorder σ R]

/-- Code of an extension keeps what the serving of every request keeps. It may fail of itself. -/
theorem Action.keeps_run {serve : (r : Request ι ν τ μ χ) → Run σ r.Reply}
    (hserve : ∀ r, (serve r).Keeps R P) (hraised : ∀ kind message, P (.thrown (.raised kind message)))
    (action : Action ι ν τ μ χ α) : (action.run serve).Keeps R P := by
  induction action with
  | done result => exact Keeps.pure result
  | fail kind message => exact Keeps.throw (hraised kind message)
  | request r next ih => exact (hserve r).bind ih

end Action

/-- Whether extensions are consulted on this when a hook is used as given. Only the candidates become
fewer in the course of it. -/
def HookCall.BelongsTo {ν τ : Type} (use : HookCall ν τ) : HookCall ν τ → Prop
  | narrow _ origin => ∃ candidates, use = narrow candidates origin
  | call => use = call

namespace Dispatcher

variable {σ ι κ ν τ β : Type} {R : σ → σ → Prop} {P : Halt → Prop} [IsPreorder σ R]
  {d : Dispatcher σ ι κ ν τ}

theorem keeps_consult {f : β → ι → Run σ (Progress β)} (hf : ∀ b e, (f b e).Keeps R P)
    (hexhausted : P .exhausted) (limit : Nat) (cursor : Cursor κ) (result : β) :
    (d.consult f limit cursor result).Keeps R P := by
  induction limit generalizing cursor result with
  | zero => exact Keeps.throw hexhausted
  | succ limit ih =>
      rw [consult]
      refine Keeps.get.bind fun s => ?_
      split
      · exact Keeps.pure result
      · refine (hf result _).bind fun progress => ?_
        cases progress with
        | go result => exact ih _ result
        | stop result => exact Keeps.pure result

/-- A dispatch keeps what the consultations that belong to it and the saying of a line keep. It may be
cut off. -/
theorem keeps_dispatch_of_consultations {call : HookCall ν τ}
    (hinvoke : ∀ e use, use.BelongsTo call → (d.invoke e use).Keeps R P)
    (hsay : ∀ line, (d.say line).Keeps R P) (hexhausted : P .exhausted) :
    (d.dispatch call).Keeps R P := by
  cases call with
  | ask question =>
      refine keeps_consult (fun _ e => (hinvoke e _ rfl).bind fun answer => ?_) hexhausted _ _ _
      cases answer with
      | true => exact (hsay _).bind fun _ => Keeps.pure _
      | false => exact Keeps.pure _
  | narrow candidates origin =>
      refine keeps_consult (fun candidates e => Keeps.ite (Keeps.pure _) ?_) hexhausted _ _ _
      exact (hinvoke e _ ⟨candidates, rfl⟩).bind fun _ => Keeps.pure _
  | contribute missing =>
      exact keeps_consult (fun _ e => (hinvoke e _ rfl).bind fun _ => Keeps.pure _) hexhausted _ _ _
  | notify notice =>
      have hall := keeps_consult (d := d) (R := R) (P := P) (f := fun count e => do
        d.invoke e (.notify notice)
        return .go (count + 1)) (fun _ e => (hinvoke e _ rfl).bind fun _ => Keeps.pure _) hexhausted
      refine Keeps.bind (hall _ _ 0) fun count => ?_
      cases summary? count notice with
      | some line => exact hsay line
      | none => exact Keeps.pure ()

/-- A dispatch keeps what every extension and the printing of a line keep. It may be cut off. -/
theorem keeps_dispatch (hinvoke : ∀ e call, (d.invoke e call).Keeps R P)
    (hprint : ∀ line, (d.print line).Keeps R P) (hexhausted : P .exhausted)
    (call : HookCall ν τ) : (d.dispatch call).Keeps R P :=
  keeps_dispatch_of_consultations (fun e use _ => hinvoke e use)
    (fun line => Keeps.ite (hprint line) (Keeps.pure ())) hexhausted

section

omit [IsPreorder σ R]

variable {f : β → ι → Run σ (Progress β)} {limit : Nat} {cursor cursor' : Cursor κ} {result : β}
  {s : σ}

/-- A traversal with nobody left to consult is over. -/
theorem consult_of_none (h : cursor.advance d.read (d.registry s) = (none, cursor')) :
    d.consult f (limit + 1) cursor result s = .ok result s := by
  rw [consult, bind_of_ok (show (get : Run σ σ) s = .ok s s from rfl)]
  generalize cursor.advance d.read (d.registry s) = step at h ⊢
  subst h
  rfl

/-- Otherwise it consults the next one, and goes on from there. -/
theorem consult_of_some {extension : ι}
    (h : cursor.advance d.read (d.registry s) = (some extension, cursor')) :
    d.consult f (limit + 1) cursor result s = (f result extension >>= fun
      | .go result => d.consult f limit cursor' result
      | .stop result => pure result) s := by
  rw [consult, bind_of_ok (show (get : Run σ σ) s = .ok s s from rfl)]
  generalize cursor.advance d.read (d.registry s) = step at h ⊢
  subst h
  rfl

/-- What a traversal comes to. It goes on as long as `I` holds, and `J` holds in the end if it does when
the traversal is stopped or over. -/
theorem consult_result {I J : β → σ → Prop}
    (hgo : ∀ {b e s b' t}, I b s → f b e s = .ok (.go b') t → I b' t)
    (hstop : ∀ {b e s b' t}, I b s → f b e s = .ok (.stop b') t → J b' t)
    (hover : ∀ {b s}, I b s → J b s) {result' : β} {t : σ} (hI : I result s)
    (h : d.consult f limit cursor result s = .ok result' t) : J result' t := by
  induction limit generalizing cursor result s with
  | zero => cases h
  | succ limit ih =>
      rcases hstep : cursor.advance d.read (d.registry s) with ⟨_ | extension, next⟩
      · rw [consult_of_none hstep] at h
        cases h
        exact hover hI
      · rw [consult_of_some hstep] at h
        obtain ⟨progress, r, hprogress, hrest⟩ := bind_eq_ok_iff.mp h
        cases progress with
        | go result => exact ih (hgo hI hprogress) hrest
        | stop result =>
            cases hrest
            exact hstop hI hprogress

end

end Dispatcher

end ExtensibleCheck
