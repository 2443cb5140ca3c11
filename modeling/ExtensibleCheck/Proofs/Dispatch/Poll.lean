import ExtensibleCheck.Proofs.Registry.Cursor
import ExtensibleCheck.Proofs.Run.Follows

/-! A dispatch over a registry that stays as it is comes down to a poll: those who respond are consulted
one after the other, in a way that depends on the hook. A group that is polled for one of the responders
answers as its members do in its place, whatever the hook, so nesting makes no difference. -/

namespace ExtensibleCheck

open Run

/-- How somebody responds to each use of a hook. -/
abbrev Responder (σ ν τ : Type) := (call : HookCall ν τ) → Run σ call.Answer

variable {σ ν τ : Type}

/-- Consults the responders in turn. The first who takes care of a matter ends it, candidates are narrowed
until there is no choice left, contributions are collected with an owner each, and news reach everybody. -/
def poll : List (Responder σ ν τ) → Responder σ ν τ
  | [], call => pure call.neutral
  | r :: rs, .ask question => do
    if ← r (.ask question) then return true else poll rs (.ask question)
  | r :: rs, .narrow candidates origin =>
    if candidates.length ≤ 1 then return candidates
    else do poll rs (.narrow (← r (.narrow candidates origin)) origin)
  | r :: rs, .contribute missing => do
    let contributed ← r (.contribute missing)
    return contributed.map Candidate.owned ++ (← poll rs (.contribute missing))
  | r :: rs, .notify notice => do
    r (.notify notice)
    poll rs (.notify notice)

/-- Where there is no choice, nobody is consulted. -/
theorem poll_narrow_of_short {candidates : List (Candidate τ)} (h : candidates.length ≤ 1)
    (rs : List (Responder σ ν τ)) (origin : ν) :
    poll rs (.narrow candidates origin) = pure candidates := by
  cases rs with
  | nil => rfl
  | cons r rs => rw [poll, if_pos h]

/-- A group answers like its members in its place. -/
theorem poll_group (rs rs' : List (Responder σ ν τ)) (call : HookCall ν τ) :
    poll (rs ++ rs') call = poll (poll rs :: rs') call := by
  cases call with
  | ask question =>
      induction rs with
      | nil => rfl
      | cons r rs ih =>
          rw [List.cons_append, poll, ih, poll, poll, poll, bind_assoc]
          refine bind_congr fun handled => ?_
          cases handled <;> rfl
  | narrow candidates origin =>
      induction rs generalizing candidates with
      | nil =>
          rw [List.nil_append, poll]
          by_cases h : candidates.length ≤ 1
          · rw [if_pos h, poll_narrow_of_short h]
          · rw [if_neg h]
            rfl
      | cons r rs ih =>
          rw [List.cons_append, poll, poll, poll]
          by_cases h : candidates.length ≤ 1
          · rw [if_pos h, if_pos h]
          · rw [if_neg h, if_neg h, if_neg h, bind_assoc]
            refine bind_congr fun left => ?_
            rw [ih, poll]
            by_cases hleft : left.length ≤ 1
            · rw [if_pos hleft, poll_narrow_of_short hleft, pure_bind, poll_narrow_of_short hleft]
            · rw [if_neg hleft]
  | contribute missing =>
      induction rs with
      | nil => exact (bind_pure _).symm
      | cons r rs ih =>
          rw [List.cons_append, poll, ih, poll, poll, poll, bind_assoc]
          refine bind_congr fun contributed => ?_
          simp only [bind_assoc, pure_bind, List.map_append, List.map_map, List.append_assoc]
          rfl
  | notify notice =>
      induction rs with
      | nil => rfl
      | cons r rs ih =>
          rw [List.cons_append, poll, ih, poll, poll, poll, bind_assoc]

section

variable {view : σ → σ} {I : σ → Prop} {P : Halt → Prop}

theorem poll_nil_follows {call : HookCall ν τ} :
    Follows view I P (poll [] call : Run σ call.Answer) (poll [] call) := by
  cases call <;> exact .pure _

theorem poll_cons_follows {r r' : Responder σ ν τ} {rs rs' : List (Responder σ ν τ)}
    (hr : ∀ call, Follows view I P (r call) (r' call))
    (hrs : ∀ call, Follows view I P (poll rs call) (poll rs' call)) (call : HookCall ν τ) :
    Follows view I P (poll (r :: rs) call) (poll (r' :: rs') call) := by
  cases call with
  | ask question =>
      refine (hr _).bind fun handled => ?_
      cases handled with
      | true => exact .pure true
      | false => exact hrs _
  | narrow candidates origin =>
      rw [poll, poll]
      by_cases h : candidates.length ≤ 1
      · rw [if_pos h, if_pos h]
        exact .pure candidates
      · rw [if_neg h, if_neg h]
        exact (hr _).bind fun left => hrs _
  | contribute missing => exact (hr _).bind fun _ => (hrs _).bind fun _ => .pure _
  | notify notice => exact (hr _).bind fun _ => hrs _

/-- If those of one list follow those of another one by one, the polls do. -/
theorem poll_map_follows {κ : Type} {f g : κ → Responder σ ν τ} {members : List κ}
    (h : ∀ m ∈ members, ∀ call, Follows view I P (f m call) (g m call)) (call : HookCall ν τ) :
    Follows view I P (poll (members.map f) call) (poll (members.map g) call) := by
  induction members generalizing call with
  | nil => exact poll_nil_follows
  | cons m members ih =>
      exact poll_cons_follows (h m List.mem_cons_self)
        (fun call => ih (fun m hm => h m (.tail _ hm)) call) call

end

namespace Dispatcher

variable {ι κ β : Type}

/-- Consults the given extensions in turn. -/
def traverse (f : β → ι → Run σ (Progress β)) : List ι → β → Run σ β
  | [], result => pure result
  | e :: es, result => do
    match ← f result e with
    | .go result => traverse f es result
    | .stop result => return result

section

variable (respond : ι → Responder σ ν τ)

theorem traverse_ask (question : Question ν τ) (es : List ι) :
    traverse (fun _ e => do
        if ← respond e (.ask question) then return .stop true else return .go false) es false =
      poll (es.map respond) (.ask question) := by
  induction es with
  | nil => rfl
  | cons e es ih =>
      rw [traverse, List.map_cons, poll, bind_assoc]
      refine bind_congr fun handled => ?_
      cases handled with
      | true => rfl
      | false => exact ih

theorem traverse_narrow (origin : ν) (es : List ι) (candidates : List (Candidate τ)) :
    traverse (fun candidates e =>
        if candidates.length ≤ 1 then return .stop candidates
        else return .go (← respond e (.narrow candidates origin))) es candidates =
      poll (es.map respond) (.narrow candidates origin) := by
  induction es generalizing candidates with
  | nil => rfl
  | cons e es ih =>
      rw [traverse, List.map_cons, poll]
      by_cases h : candidates.length ≤ 1
      · rw [if_pos h, if_pos h]
        rfl
      · rw [if_neg h, if_neg h, bind_assoc]
        exact bind_congr fun left => ih left

theorem traverse_contribute (missing : MissingMethod ν τ) (es : List ι)
    (found : List (Candidate τ)) :
    traverse (fun found e => do
        let contributed ← respond e (.contribute missing)
        return .go (found ++ contributed.map Candidate.owned)) es found =
      (do return found ++ (← poll (es.map respond) (.contribute missing))) := by
  induction es generalizing found with
  | nil => exact congrArg pure (List.append_nil found).symm
  | cons e es ih =>
      rw [traverse, List.map_cons, poll, bind_assoc, bind_assoc]
      refine bind_congr fun contributed => ?_
      rw [pure_bind, bind_assoc]
      refine (ih _).trans (bind_congr fun rest => ?_)
      rw [pure_bind, List.append_assoc]

theorem traverse_notify (notice : Notice ν τ) (es : List ι) (count : Nat) :
    traverse (fun count e => do
        respond e (.notify notice)
        return .go (count + 1)) es count =
      (do
        poll (es.map respond) (.notify notice)
        return count + es.length) := by
  induction es generalizing count with
  | nil => rfl
  | cons e es ih =>
      rw [traverse, List.map_cons, poll, bind_assoc, bind_assoc]
      refine bind_congr fun _ => ?_
      rw [pure_bind, List.length_cons, Nat.add_comm es.length, ← Nat.add_assoc]
      exact ih _

end

variable {d : Dispatcher σ ι κ ν τ} {r : Registry ι κ} {view : σ → σ} {I : σ → Prop}

/-- While the registry stays the same, those who remain are consulted. -/
theorem consult_alike_traverse {f f' : β → ι → Run σ (Progress β)}
    (hr : ∀ s, I s → d.registry s = r) {limit : Nat} {cursor : Cursor κ}
    (hf : ∀ result, ∀ e ∈ cursor.remaining d.read r, Alike view I (f result e) (f' result e))
    (hlimit : (cursor.remaining d.read r).length < limit) (result : β) :
    Alike view I (d.consult f limit cursor result)
      (traverse f' (cursor.remaining d.read r) result) := by
  -- Each step takes one off the limit and one off what remains, so the limit is never met.
  induction limit generalizing cursor result with
  | zero => exact absurd hlimit (Nat.not_lt_zero _)
  | succ limit ih =>
      intro s s' hview hs
      have hstep := cursor.remaining_eq d.read r
      cases hfirst : (cursor.advance d.read r).1 with
      | none =>
          have hdone : cursor.advance d.read (d.registry s) = (none, .finished) := by
            rw [hr s hs, ← hfirst, ← Cursor.advance_of_none d.read r hfirst]
          rw [hfirst, Cursor.advance_of_none d.read r hfirst] at hstep
          rw [consult_of_none hdone, hstep]
          exact Follows.pure result s s' hview hs
      | some e =>
          have hnext : cursor.advance d.read (d.registry s) =
              (some e, (cursor.advance d.read r).2) := by
            rw [hr s hs, ← hfirst]
          rw [hfirst] at hstep
          rw [hstep] at hf hlimit
          rw [consult_of_some hnext, hstep]
          refine (hf result e List.mem_cons_self).bind (fun progress => ?_) s s' hview hs
          cases progress with
          | stop result => exact .pure result
          | go result =>
              exact ih (fun result e he => hf result e (.tail _ he))
                (Nat.lt_of_succ_lt_succ hlimit) result

section

variable (hr : ∀ s, I s → d.registry s = r) (hlimit : (r.view d.read).length ≤ d.limit)

include hr hlimit

theorem consultAll_alike_traverse {f f' : β → ι → Run σ (Progress β)}
    (hf : ∀ result, ∀ e ∈ r.view d.read, Alike view I (f result e) (f' result e)) (start : β) :
    Alike view I (d.consultAll start f) (traverse f' (r.view d.read) start) :=
  consult_alike_traverse hr hf (Nat.lt_succ_of_le hlimit) start

variable (hsay : ∀ line, Alike view I (d.say line) (pure ()))
  (hinvoke : ∀ e ∈ r.view d.read, ∀ call, Alike view I (d.invoke e call) (d.invoke e call))

include hinvoke

theorem narrow_alike_poll (candidates : List (Candidate τ)) (origin : ν) :
    Alike view I (d.narrow candidates origin)
      (poll ((r.view d.read).map d.invoke) (.narrow candidates origin)) := by
  rw [← traverse_narrow]
  refine consultAll_alike_traverse hr hlimit (fun candidates e he => ?_) candidates
  split
  · exact .pure _
  · exact (hinvoke e he _).bind fun _ => .pure _

theorem contribute_alike_poll (missing : MissingMethod ν τ) :
    Alike view I (d.contribute missing)
      (poll ((r.view d.read).map d.invoke) (.contribute missing)) := by
  have hpoll := traverse_contribute d.invoke missing (r.view d.read) []
  simp only [List.nil_append, bind_pure] at hpoll
  rw [← hpoll]
  exact consultAll_alike_traverse hr hlimit
    (fun _ e he => (hinvoke e he _).bind fun _ => .pure _) []

include hsay

theorem ask_alike_poll (question : Question ν τ) :
    Alike view I (d.ask question) (poll ((r.view d.read).map d.invoke) (.ask question)) := by
  rw [← traverse_ask]
  refine consultAll_alike_traverse hr hlimit (fun _ e he => ?_) false
  refine (hinvoke e he _).bind fun handled => ?_
  cases handled with
  | true => exact (hsay _).bind fun _ => .pure _
  | false => exact .pure _

theorem notify_alike_poll (notice : Notice ν τ) :
    Alike view I (d.notify notice) (poll ((r.view d.read).map d.invoke) (.notify notice)) := by
  have hpoll := congrArg (· >>= fun _ => pure ())
    (traverse_notify d.invoke notice (r.view d.read) 0)
  simp only [bind_assoc, pure_bind, bind_pure_unit] at hpoll
  rw [← hpoll]
  refine Follows.bind (consultAll_alike_traverse hr hlimit
    (fun _ e he => (hinvoke e he _).bind fun _ => .pure _) 0) fun count => ?_
  cases summary? count notice with
  | some line => exact hsay line
  | none => exact .pure ()

/-- While the registry stays the same, a dispatch is a poll of its members, but for what the dispatcher
says itself. -/
theorem dispatch_alike_poll (call : HookCall ν τ) :
    Alike view I (d.dispatch call) (poll ((r.view d.read).map d.invoke) call) := by
  cases call with
  | ask question => exact ask_alike_poll hr hlimit hsay hinvoke question
  | narrow candidates origin => exact narrow_alike_poll hr hlimit hinvoke candidates origin
  | contribute missing => exact contribute_alike_poll hr hlimit hinvoke missing
  | notify notice => exact notify_alike_poll hr hlimit hsay hinvoke notice

end

end Dispatcher

end ExtensibleCheck
