import ExtensibleCheck.Proofs.Session.Abreast

/-! Two dispatches side by side. One of two traversals may come to members that the other does not have,
as long as these are idle: they answer as if they had no opinion, and leave nothing behind that counts.
If the two come to the same members otherwise, and what these do goes abreast, then so do the dispatches,
whichever hook is used. -/

namespace ExtensibleCheck

/-- Both traversals go on or both stop, with results that are related accordingly. -/
def Progress.Related {β β' : Type} (Q V : β → β' → Prop) : Progress β → Progress β' → Prop
  | .go b, .go b' => Q b b'
  | .stop b, .stop b' => V b b'
  | _, _ => False

open Run Session

namespace Dispatcher

variable {ι μ κ ν τ β : Type}

/-- The next steps of two traversals, of which `K` says how far they have come and how many more members
each may consult. An idle member is passed by the second traversal alone. -/
inductive Stride (d d' : Dispatcher (SessionState ι μ) ι κ ν τ) (E : Excuse ι) (idle : ι → Prop)
    (K : Nat → Cursor κ → Nat → Cursor κ → Prop) (s s' : SessionState ι μ) :
    Nat → Cursor κ → Nat → Cursor κ → Prop
  | cutOff {cursor cursor'} : Stride d d' E idle K s s' 0 cursor 0 cursor'
  | first {cursor limit' cursor'} : (∀ e', E.holds ⟨some .exhausted, s.journal.toList⟩ e') →
      Stride d d' E idle K s s' 0 cursor limit' cursor'
  | second {limit cursor cursor'} : (∀ e, E.holds e ⟨some .exhausted, s'.journal.toList⟩) →
      Stride d d' E idle K s s' limit cursor 0 cursor'
  | ended {limit cursor limit' cursor' next next'} :
      cursor.advance d.read (d.registry s) = (none, next) →
      cursor'.advance d'.read (d'.registry s') = (none, next') →
      Stride d d' E idle K s s' (limit + 1) cursor (limit' + 1) cursor'
  | both {limit cursor limit' cursor' next next'} (extension : ι) :
      cursor.advance d.read (d.registry s) = (some extension, next) →
      cursor'.advance d'.read (d'.registry s') = (some extension, next') →
      K limit next limit' next' → Stride d d' E idle K s s' (limit + 1) cursor (limit' + 1) cursor'
  | aside {limit cursor limit' cursor' next'} (extension : ι) : idle extension →
      cursor'.advance d'.read (d'.registry s') = (some extension, next') →
      K (limit + 1) cursor limit' next' →
      Stride d d' E idle K s s' (limit + 1) cursor (limit' + 1) cursor'

section

variable {d d' : Dispatcher (SessionState ι μ) ι κ ν τ} {E : Excuse ι} {idle : ι → Prop}
  {R : SessionState ι μ → SessionState ι μ → Prop} {K : Nat → Cursor κ → Nat → Cursor κ → Prop}

/-- How the second traversal passes an idle member. Either it goes on, or it stops where the first one
would stop at whomever it comes to. -/
def Passes (R : SessionState ι μ → SessionState ι μ → Prop) (Q : β → β → Prop)
    (f f' : β → ι → Session ι μ (Progress β)) (extension : ι) : Prop :=
  ∀ {b b' s s'}, Q b b' → R s s' → ∃ c t', Q b c ∧ R s t' ∧
    (f' b' extension s' = .ok (.go c) t' ∨
      f' b' extension s' = .ok (.stop c) t' ∧ ∀ other, f b other s = .ok (.stop b) s)

variable {Q V : β → β → Prop} {f f' : β → ι → Session ι μ (Progress β)}

/-- A traversal that stops at whomever it comes to ends with what it has. -/
theorem consult_of_stops {s : SessionState ι μ} {b : β} (h : ∀ other, f b other s = .ok (.stop b) s)
    (limit : Nat) (cursor : Cursor κ) : d.consult f (limit + 1) cursor b s = .ok b s := by
  rcases hstep : cursor.advance d.read (d.registry s) with ⟨_ | extension, next⟩
  · exact consult_of_none hstep
  · rw [consult_of_some hstep, bind_of_ok (h extension)]
    rfl

/-- The induction is on how many members the second traversal may consult, which also counts those that
it passes alone. -/
theorem consult_abreast
    (hstep : ∀ {limit cursor limit' cursor' s s'}, K limit cursor limit' cursor' → R s s' →
      Stride d d' E idle K s s' limit cursor limit' cursor')
    (hgrows : ∀ b extension, Grows (f b extension)) (hgrows' : ∀ b extension, Grows (f' b extension))
    (hf : ∀ {b b'} extension, Q b b' →
      Abreast E R (Progress.Related Q V) (f b extension) (f' b' extension))
    (hpass : ∀ extension, idle extension → Passes R Q f f' extension) (hQV : ∀ {b b'}, Q b b' → V b b')
    {limit : Nat} {cursor : Cursor κ} {limit' : Nat} {cursor' : Cursor κ} {b b' : β}
    (hK : K limit cursor limit' cursor') (hQ : Q b b') :
    Abreast E R V (d.consult f limit cursor b) (d'.consult f' limit' cursor' b') := by
  have hconsult (limit : Nat) (cursor : Cursor κ) (b : β) : Grows (d.consult f limit cursor b) :=
    keeps_consult hgrows trivial limit cursor b
  have hconsult' (limit : Nat) (cursor : Cursor κ) (b : β) : Grows (d'.consult f' limit cursor b) :=
    keeps_consult hgrows' trivial limit cursor b
  refine ⟨hconsult _ _ _, hconsult' _ _ _, fun {s s'} hR => ?_⟩
  induction limit' generalizing limit cursor cursor' b b' s s' with
  | zero =>
      cases hstep hK hR with
      | cutOff => exact .inr ⟨rfl, hR⟩
      | first hexcused => exact .inl (hexcused _)
      | second hexcused => exact .inl (hexcused _)
  | succ limit' ih =>
      cases hstep hK hR with
      | first hexcused => exact .inl (hexcused _)
      | ended hnone hnone' =>
          rw [consult_of_none hnone, consult_of_none hnone']
          exact .inr ⟨hQV hQ, hR⟩
      | both extension hsome hsome' hnext =>
          rw [consult_of_some hsome, consult_of_some hsome']
          refine ((hf extension hQ).bind (fun progress => ?_) (fun progress => ?_)
            fun progress progress' hrelated => ?_).ends hR
          · cases progress <;> first | exact hconsult _ _ _ | exact Keeps.pure _
          · cases progress <;> first | exact hconsult' _ _ _ | exact Keeps.pure _
          · cases progress <;> cases progress' <;> try exact hrelated.elim
            · exact ⟨hconsult _ _ _, hconsult' _ _ _, ih hnext hrelated⟩
            · exact .pure hrelated
      | aside extension hidle hsome' hnext =>
          obtain ⟨c, t', hc, ht', hgo | ⟨hstop, hall⟩⟩ := hpass extension hidle hQ hR
          · rw [consult_of_some hsome', bind_of_ok hgo]
            exact ih hnext hc ht'
          · rw [consult_of_some hsome', bind_of_ok hstop, consult_of_stops hall]
            exact .inr ⟨hQV hc, ht'⟩

end

/-- Two dispatchers whose traversals come to the same members, but for idle ones that only the second one
comes to. `T` relates how many members they tell. -/
structure Convoy (d d' : Dispatcher (SessionState ι μ) ι κ ν τ) (E : Excuse ι)
    (R : SessionState ι μ → SessionState ι μ → Prop) (K : Nat → Cursor κ → Nat → Cursor κ → Prop)
    (idle : ι → Prop) (T : Nat → Nat → Prop) : Prop where
  start : K (d.limit + 1) .unopened (d'.limit + 1) .unopened
  step : ∀ {limit cursor limit' cursor' s s'}, K limit cursor limit' cursor' → R s s' →
    Stride d d' E idle K s s' limit cursor limit' cursor'
  label : d.label = d'.label
  say : ∀ line, Abreast E R Eq (d.say line) (d'.say line)
  invoke : ∀ extension call, Abreast E R Eq (d.invoke extension call) (d'.invoke extension call)
  pass : ∀ {extension s s'} call, idle extension → R s s' →
    ∃ t', d'.invoke extension call s' = .ok call.neutral t' ∧ R s t'
  nobody : T 0 0
  one : ∀ {count count'}, T count count' → T (count + 1) (count' + 1)
  another : ∀ {extension count count'}, idle extension → T count count' → T count (count' + 1)
  summary : ∀ {count count' : Nat} {notice : Notice ν τ} {line line'}, T count count' →
    summary? count notice = some line → summary? count' notice = some line' →
      Abreast E R Eq (d.say line) (d'.say line')

namespace Convoy

variable {d d' : Dispatcher (SessionState ι μ) ι κ ν τ} {E : Excuse ι} {idle : ι → Prop}
  {R : SessionState ι μ → SessionState ι μ → Prop} {K : Nat → Cursor κ → Nat → Cursor κ → Prop}
  {T : Nat → Nat → Prop} (h : d.Convoy d' E R K idle T)

include h

theorem ask (question : Question ν τ) : Abreast E R Eq (d.ask question) (d'.ask question) := by
  have hf (extension : ι) : Abreast E R
      (Progress.Related (fun handled handled' => handled = false ∧ handled' = false) Eq)
      (do
        if ← d.invoke extension (.ask question) then
          d.say (question.hook.name ++ " handled by " ++ (d.label extension).describe)
          return .stop true
        else return .go false)
      (do
        if ← d'.invoke extension (.ask question) then
          d'.say (question.hook.name ++ " handled by " ++ (d.label extension).describe)
          return .stop true
        else return .go false) := by
    refine (h.invoke extension (.ask question)).andThen fun handled => .ite (fun _ => ?_) fun _ => ?_
    · exact (h.say _).andThen fun _ => .pure rfl
    · exact .pure ⟨rfl, rfl⟩
  rw [Dispatcher.ask, Dispatcher.ask, ← h.label]
  refine consult_abreast h.step (fun _ e => (hf e).grows) (fun _ e => (hf e).grows')
    (fun e _ => hf e) ?_ (fun hfalse => hfalse.1.trans hfalse.2.symm) h.start ⟨rfl, rfl⟩
  intro extension hidle _ _ s s' hfalse hR
  obtain ⟨t', hinvoke, ht'⟩ := h.pass (.ask question) hidle hR
  exact ⟨false, t', ⟨hfalse.1, rfl⟩, ht', .inl (bind_of_ok hinvoke)⟩

theorem narrow (candidates : List (Candidate τ)) (origin : ν) :
    Abreast E R Eq (d.narrow candidates origin) (d'.narrow candidates origin) := by
  have hf (candidates : List (Candidate τ)) (extension : ι) : Abreast E R (Progress.Related Eq Eq)
      (if candidates.length ≤ 1 then return .stop candidates
        else return .go (← d.invoke extension (.narrow candidates origin)))
      (if candidates.length ≤ 1 then return .stop candidates
        else return .go (← d'.invoke extension (.narrow candidates origin))) :=
    .ite (fun _ => .pure rfl) fun _ => (h.invoke extension _).andThen fun _ => .pure rfl
  refine consult_abreast h.step (fun b e => (hf b e).grows) (fun b e => (hf b e).grows')
    (fun e hb => hb ▸ hf _ e) ?_ id h.start rfl
  rintro extension hidle b _ s s' rfl hR
  by_cases hshort : b.length ≤ 1
  · refine ⟨b, s', rfl, hR, .inr ⟨?_, fun other => ?_⟩⟩ <;> simp only [if_pos hshort] <;> rfl
  · obtain ⟨t', hinvoke, ht'⟩ := h.pass (.narrow b origin) hidle hR
    refine ⟨b, t', rfl, ht', .inl ?_⟩
    simp only [if_neg hshort]
    exact bind_of_ok hinvoke

theorem contribute (missing : MissingMethod ν τ) :
    Abreast E R Eq (d.contribute missing) (d'.contribute missing) := by
  have hf (found : List (Candidate τ)) (extension : ι) : Abreast E R (Progress.Related Eq Eq)
      (do
        let contributed ← d.invoke extension (.contribute missing)
        return .go (found ++ contributed.map Candidate.owned))
      (do
        let contributed ← d'.invoke extension (.contribute missing)
        return .go (found ++ contributed.map Candidate.owned)) :=
    (h.invoke extension _).andThen fun _ => .pure rfl
  refine consult_abreast h.step (fun b e => (hf b e).grows) (fun b e => (hf b e).grows')
    (fun e hb => hb ▸ hf _ e) ?_ id h.start rfl
  rintro extension hidle b _ s s' rfl hR
  obtain ⟨t', hinvoke, ht'⟩ := h.pass (.contribute missing) hidle hR
  refine ⟨b, t', rfl, ht', .inl ((bind_of_ok hinvoke).trans ?_)⟩
  rw [HookCall.neutral, List.map_nil, List.append_nil]
  rfl

theorem notify (notice : Notice ν τ) : Abreast E R Eq (d.notify notice) (d'.notify notice) := by
  have hf {count count' : Nat} (extension : ι) (hcount : T count count') :
      Abreast E R (Progress.Related T T)
        (do
          d.invoke extension (.notify notice)
          return .go (count + 1))
        (do
          d'.invoke extension (.notify notice)
          return .go (count' + 1)) :=
    (h.invoke extension _).andThen fun _ => .pure (h.one hcount)
  have hgrows (count : Nat) (extension : ι) := (h.invoke extension (.notify notice)).grows.bind
    fun _ => Keeps.pure (Progress.go (count + 1))
  have hgrows' (count : Nat) (extension : ι) := (h.invoke extension (.notify notice)).grows'.bind
    fun _ => Keeps.pure (Progress.go (count + 1))
  have hall : Abreast E R T (d.consultAll 0 fun count extension => do
      d.invoke extension (.notify notice)
      return .go (count + 1)) (d'.consultAll 0 fun count extension => do
        d'.invoke extension (.notify notice)
        return .go (count + 1)) := by
    refine consult_abreast h.step hgrows hgrows' hf ?_ id h.start h.nobody
    rintro extension hidle count count' s s' hcount hR
    obtain ⟨t', hinvoke, ht'⟩ := h.pass (.notify notice) hidle hR
    exact ⟨count' + 1, t', h.another hidle hcount, ht', .inl (bind_of_ok hinvoke)⟩
  refine hall.bind (fun count => ?_) (fun count => ?_) fun count count' hcount => ?_
  · cases summary? count notice with
    | some line => exact (h.say line).grows
    | none => exact Keeps.pure ()
  · cases summary? count notice with
    | some line => exact (h.say line).grows'
    | none => exact Keeps.pure ()
  · cases notice with
    | setup => exact @h.summary _ _ .setup _ _ hcount rfl rfl
    | finish => exact @h.summary _ _ .finish _ _ hcount rfl rfl
    | _ => exact .pure rfl

theorem dispatch (call : HookCall ν τ) : Abreast E R Eq (d.dispatch call) (d'.dispatch call) := by
  cases call with
  | ask question => exact h.ask question
  | narrow candidates origin => exact h.narrow candidates origin
  | contribute missing => exact h.contribute missing
  | notify notice => exact h.notify notice

omit h

/-- Dispatchers that go through the same members of the same registry go in step. -/
theorem inStep (hread : d.read = d'.read) (hlimit : d.limit = d'.limit) (hlabel : d.label = d'.label)
    (hregistry : ∀ {s s'}, R s s' → d.registry s = d'.registry s')
    (hsay : ∀ line, Abreast E R Eq (d.say line) (d'.say line))
    (hinvoke : ∀ extension call,
      Abreast E R Eq (d.invoke extension call) (d'.invoke extension call)) :
    d.Convoy d' E R (fun limit cursor limit' cursor' => limit = limit' ∧ cursor = cursor')
      (fun _ => False) Eq where
  start := ⟨congrArg (· + 1) hlimit, rfl⟩
  step := by
    rintro limit cursor _ _ s s' ⟨rfl, rfl⟩ hR
    cases limit with
    | zero => exact .cutOff
    | succ limit =>
        have hsame : cursor.advance d'.read (d'.registry s') = cursor.advance d.read (d.registry s) := by
          rw [hread, hregistry hR]
        rcases hstep : cursor.advance d.read (d.registry s) with ⟨_ | extension, next⟩
        · exact .ended hstep (hsame.trans hstep)
        · exact .both extension hstep (hsame.trans hstep) ⟨rfl, rfl⟩
  label := hlabel
  say := hsay
  invoke := hinvoke
  pass _ hidle := hidle.elim
  nobody := rfl
  one hcount := congrArg (· + 1) hcount
  another hidle := hidle.elim
  summary {_ _ _ line _} hcount hline hline' := by
    rw [← hcount, hline] at hline'
    cases hline'
    exact hsay line

end Convoy

end Dispatcher

/-- The use of a hook goes abreast where the registry is the same and the members respond abreast. -/
theorem Checker.raise_inStep {ι μ : Type} [DecidableEq ι] {c c' : Checker ι μ} {E : Excuse ι}
    {R : SessionState ι μ → SessionState ι μ → Prop} (hlimit : c.limit = c'.limit)
    (hlabel : c.label = c'.label) (hregistry : ∀ {s s'}, R s s' → s.registry = s'.registry)
    (hrecord : ∀ e : Event ι, e.isTurn → Abreast E R Eq (record e) (record e))
    (hsay : ∀ line, Abreast E R Eq (c.dispatcher.say line) (c'.dispatcher.say line))
    (hinvoke : ∀ extension call, Abreast E R Eq (c.invoke extension call) (c'.invoke extension call))
    (call : HookCall Occurrence CheckedType) : Abreast E R Eq (c.raise call) (c'.raise call) := by
  have hconvoy : c.dispatcher.Convoy c'.dispatcher E R
      (fun limit cursor limit' cursor' => limit = limit' ∧ cursor = cursor') (fun _ => False) Eq :=
    .inStep rfl hlimit hlabel hregistry hsay hinvoke
  have hdispatch := hconvoy.dispatch call
  have hrest : Abreast E R Eq
      (do let answer ← c.dispatcher.dispatch call; record (.settled call answer); return answer)
      (do let answer ← c'.dispatcher.dispatch call; record (.settled call answer); return answer) :=
    hdispatch.andThen fun answer => (hrecord (.settled call answer) rfl).andThen fun _ => .pure rfl
  refine ⟨c.grows_raise call, c'.grows_raise call, fun {s s'} hR => ?_⟩
  have hbegin := (hrecord (.raised call s.registry) rfl).andThen fun _ => hrest
  rw [raise_apply, raise_apply, ← hregistry hR]
  exact hbegin.ends hR

end ExtensibleCheck
