import ExtensibleCheck.Proofs.Registry.Cursor
import ExtensibleCheck.Proofs.Session.Abreast

/-! Extensions that do nothing but answer. If all that extensions do is to answer, by what they are
asked and nothing else, then a dispatch that is not cut off comes to an answer that can be told from the
members of the registry, and it changes nothing but the journal. -/

namespace ExtensibleCheck

open Run

/-- An answer of each extension to each use of a hook. -/
abbrev Answers (ι ν τ : Type) := ι → (call : HookCall ν τ) → call.Answer

/-- An extension that neither narrows candidates nor contributes any. -/
structure LeavesCandidates {ι ν τ : Type} (answers : Answers ι ν τ) (e : ι) : Prop where
  narrow : ∀ candidates origin, answers e (.narrow candidates origin) = candidates
  contribute : ∀ missing, answers e (.contribute missing) = []

namespace Dispatcher

variable {σ ι κ ν τ β : Type}

/-- What going through the given extensions comes to, as long as the state does not matter. -/
def through (g : β → ι → Progress β) : List ι → β → β
  | [], result => result
  | e :: es, result =>
    match g result e with
    | .go result => through g es result
    | .stop result => result

/-- A traversal that is not cut off goes through the members that remain. -/
theorem consult_eq_through {d : Dispatcher σ ι κ ν τ} {f : β → ι → Run σ (Progress β)}
    {g : β → ι → Progress β}
    (hf : ∀ {b e s progress t}, f b e s = .ok progress t →
      progress = g b e ∧ d.registry t = d.registry s)
    {limit : Nat} {cursor : Cursor κ} {b b' : β} {s t : σ}
    (h : d.consult f limit cursor b s = .ok b' t) :
    b' = through g (cursor.remaining d.read (d.registry s)) b := by
  induction limit generalizing cursor b s with
  | zero => cases h
  | succ limit ih =>
      have hremaining := cursor.remaining_eq d.read (d.registry s)
      rcases hstep : cursor.advance d.read (d.registry s) with ⟨_ | e, next⟩ <;>
        rw [hstep] at hremaining
      · have hnone : (cursor.advance d.read (d.registry s)).1 = none := by rw [hstep]
        have hover := Cursor.advance_of_none d.read (d.registry s) hnone
        rw [hstep] at hover
        obtain rfl : next = .finished := hover
        rw [consult_of_none hstep] at h
        cases h
        rw [hremaining]
        rfl
      · rw [consult_of_some hstep] at h
        obtain ⟨progress, r, hprogress, hrest⟩ := bind_eq_ok_iff.mp h
        obtain ⟨rfl, hregistry⟩ := hf hprogress
        rw [hremaining, Option.toList_some, List.singleton_append, through, ← hregistry]
        cases hg : g b e with
        | go result =>
            rw [hg] at hrest
            exact ih hrest
        | stop result =>
            rw [hg] at hrest
            cases hrest
            rfl

/-- An extension by which nobody's answer is changed can be left out. -/
theorem through_insert {g : β → ι → Progress β} {x : ι}
    (hx : ∀ b, g b x = .go b ∨ g b x = .stop b ∧ ∀ e, g b e = .stop b) (front back : List ι) (b : β) :
    through g (front ++ x :: back) b = through g (front ++ back) b := by
  induction front generalizing b with
  | nil =>
      rcases hx b with hgo | ⟨hstop, hall⟩
      · rw [List.nil_append, through, hgo]
        rfl
      · rw [List.nil_append, through, hstop]
        cases back with
        | nil => rfl
        | cons e back => rw [List.nil_append, through, hall]
  | cons e front ih =>
      rw [List.cons_append, List.cons_append, through, through]
      cases g b e with
      | go result => exact ih result
      | stop result => rfl

/-- If nobody changes anything, nothing is changed. -/
theorem through_of_idle {g : β → ι → Progress β} {b : β}
    (h : ∀ e, g b e = .go b ∨ g b e = .stop b) (es : List ι) : through g es b = b := by
  induction es with
  | nil => rfl
  | cons e es ih =>
      rw [through]
      rcases h e with hgo | hstop
      · rw [hgo]
        exact ih
      · rw [hstop]

end Dispatcher

/-- How a narrowing goes on after an extension has answered. -/
def narrowing {ι ν τ : Type} (answers : Answers ι ν τ) (origin : ν) (left : List (Candidate τ)) (e : ι) :
    Progress (List (Candidate τ)) :=
  if left.length ≤ 1 then .stop left else .go (answers e (.narrow left origin))

/-- What the answers of the given extensions come to together. -/
def agreed {ι ν τ : Type} (answers : Answers ι ν τ) (es : List ι) : (call : HookCall ν τ) → call.Answer
  | .ask question => es.any fun e => answers e (.ask question)
  | .narrow candidates origin => Dispatcher.through (narrowing answers origin) es candidates
  | .contribute missing => es.flatMap fun e => (answers e (.contribute missing)).map Candidate.owned
  | .notify _ => ()

section

variable {ι ν τ : Type} {answers : Answers ι ν τ}

/-- With one more extension that narrows nothing, contributes nothing and takes no care of the matter,
the answer is the same. -/
theorem agreed_insert {x : ι} {call : HookCall ν τ} (hleaves : LeavesCandidates answers x)
    (front back : List ι)
    (hask : ∀ question, call = .ask question → answers x (.ask question) = false) :
    agreed answers (front ++ x :: back) call = agreed answers (front ++ back) call := by
  cases call with
  | ask question => simp [agreed, hask question rfl]
  | narrow candidates origin =>
      refine Dispatcher.through_insert (fun left => ?_) front back candidates
      by_cases hshort : left.length ≤ 1
      · exact .inr ⟨if_pos hshort, fun e => if_pos hshort⟩
      · exact .inl ((if_neg hshort).trans (by rw [hleaves.narrow]))
  | contribute missing => simp [agreed, hleaves.contribute missing]
  | notify notice => rfl

/-- Where nobody narrows or contributes anything, the order of the extensions does not matter. -/
theorem agreed_perm {es es' : List ι} (h : es.Perm es')
    (hleave : ∀ e, LeavesCandidates answers e) (call : HookCall ν τ) :
    agreed answers es call = agreed answers es' call := by
  cases call with
  | ask question => exact h.any_eq
  | narrow candidates origin =>
      have hidle (e : ι) : narrowing answers origin candidates e = .go candidates ∨
          narrowing answers origin candidates e = .stop candidates := by
        unfold narrowing
        by_cases hshort : candidates.length ≤ 1
        · exact .inr (if_pos hshort)
        · exact .inl ((if_neg hshort).trans (by rw [(hleave e).narrow]))
      rw [agreed, agreed, Dispatcher.through_of_idle hidle, Dispatcher.through_of_idle hidle]
  | contribute missing =>
      have hnothing (es : List ι) :
          (es.flatMap fun e => (answers e (.contribute missing)).map Candidate.owned) = [] :=
        List.flatMap_eq_nil_iff.mpr fun e _ => by rw [(hleave e).contribute, List.map_nil]
      rw [agreed, agreed, hnothing, hnothing]
  | notify notice => rfl

end

/-- Whether an event is that an extension was consulted, or that a line was printed. -/
def Event.isMurmur {ι : Type} : Event ι → Bool
  | consulted _ _ | printed _ => true
  | _ => false

namespace SessionState

variable {ι μ : Type}

/-- Nothing has changed but the journal, into which only murmurs were entered. -/
structure Murmured (s t : SessionState ι μ) : Prop where
  same : t = { s with journal := t.journal }
  wrote : Wrote (fun e => e.isMurmur = true) s t

instance : IsPreorder (SessionState ι μ) Murmured where
  refl s := ⟨rfl, refl_of (Wrote _) s⟩
  trans _ _ _ h h' := ⟨h'.same.trans (by rw [h.same]), trans_of (Wrote _) h.wrote h'.wrote⟩

end SessionState

open Session SessionState

namespace Checker

variable {ι μ : Type} [DecidableEq ι] {c : Checker ι μ} {answers : Answers ι Occurrence CheckedType}

omit [DecidableEq ι] in
theorem murmured_record {e : Event ι} (h : e.isMurmur = true) :
    Keeps Murmured (fun halt => halt = .exhausted) (record e : Session ι μ Unit) :=
  Keeps.modify fun s => ⟨rfl, wrote_record s h⟩

section

variable (hpure : ∀ e call, c.behaviour e call = .done (answers e call))

include hpure

theorem invoke_apply (e : ι) (call : HookCall Occurrence CheckedType) (s : SessionState ι μ) :
    c.invoke e call s = .ok (answers e call) (s.record (.consulted e call)) := by
  show (record (.consulted e call) >>= fun _ =>
    (c.behaviour e call).run serve : Session ι μ call.Answer) s = _
  rw [hpure]
  rfl

theorem murmured_dispatch (call : HookCall Occurrence CheckedType) :
    Keeps Murmured (fun halt => halt = .exhausted) (c.dispatcher.dispatch call) := by
  refine Dispatcher.keeps_dispatch (P := fun halt => halt = .exhausted)
    (fun e call => ⟨fun s => ?_, fun {s halt t} herror => ?_⟩) (fun _ => murmured_record rfl) rfl call
  · show Murmured s ((c.invoke e call).after s)
    rw [after_of_ok (invoke_apply hpure e call s)]
    exact ⟨rfl, wrote_record s rfl⟩
  · replace herror : c.invoke e call s = .error halt t := herror
    rw [invoke_apply hpure] at herror
    cases herror

/-- Consulting an extension leaves the registry alone. -/
theorem answered_invoke {e : ι} {call : HookCall Occurrence CheckedType} {s t : SessionState ι μ}
    {answer : call.Answer} (h : c.dispatcher.invoke e call s = .ok answer t) :
    answer = answers e call ∧ c.dispatcher.registry t = c.dispatcher.registry s := by
  replace h : c.invoke e call s = .ok answer t := h
  rw [invoke_apply hpure] at h
  cases h
  exact ⟨rfl, rfl⟩

theorem answered_ask {question : Question Occurrence CheckedType} {s t : SessionState ι μ}
    {handled : Bool} (h : c.dispatcher.ask question s = .ok handled t) :
    handled = (s.registry.view (List.map some)).any fun e => answers e (.ask question) := by
  have hthrough := Dispatcher.consult_eq_through (g := fun _ e =>
    if answers e (.ask question) then .stop true else .go false) ?_ h
  · rw [hthrough]
    show Dispatcher.through _ (s.registry.view (List.map some)) false = _
    induction s.registry.view (List.map some) with
    | nil => rfl
    | cons e es ih =>
        rw [Dispatcher.through, List.any_cons]
        cases answers e (.ask question) with
        | true => rfl
        | false => exact ih
  · intro b e s progress t hrun
    obtain ⟨handled, r, hinvoke, hrest⟩ := bind_eq_ok_iff.mp hrun
    obtain ⟨rfl, hregistry⟩ := answered_invoke hpure hinvoke
    cases hanswer : answers e (.ask question) with
    | false =>
        rw [hanswer] at hrest
        cases hrest
        exact ⟨rfl, hregistry⟩
    | true =>
        rw [hanswer] at hrest
        obtain ⟨_, r', hsay, hstop⟩ := bind_eq_ok_iff.mp hrest
        have hsame : r'.registry = r.registry := by
          rw [Dispatcher.say] at hsay
          split at hsay <;> cases hsay <;> rfl
        cases hstop
        exact ⟨rfl, hsame.trans hregistry⟩

theorem answered_narrow {candidates left : List (Candidate CheckedType)} {origin : Occurrence}
    {s t : SessionState ι μ} (h : c.dispatcher.narrow candidates origin s = .ok left t) :
    left = Dispatcher.through (narrowing answers origin) (s.registry.view (List.map some))
      candidates := by
  refine Dispatcher.consult_eq_through ?_ h
  intro b e s progress t hrun
  unfold narrowing
  by_cases hshort : b.length ≤ 1
  · rw [if_pos hshort] at hrun ⊢
    cases hrun
    exact ⟨rfl, rfl⟩
  · rw [if_neg hshort] at hrun ⊢
    obtain ⟨left, r, hinvoke, hrest⟩ := bind_eq_ok_iff.mp hrun
    obtain ⟨rfl, hregistry⟩ := answered_invoke hpure hinvoke
    cases hrest
    exact ⟨rfl, hregistry⟩

theorem answered_contribute {missing : MissingMethod Occurrence CheckedType}
    {found : List (Candidate CheckedType)} {s t : SessionState ι μ}
    (h : c.dispatcher.contribute missing s = .ok found t) :
    found = (s.registry.view (List.map some)).flatMap fun e =>
      (answers e (.contribute missing)).map Candidate.owned := by
  have hthrough := Dispatcher.consult_eq_through (g := fun found e =>
    .go (found ++ (answers e (.contribute missing)).map Candidate.owned)) ?_ h
  · rw [hthrough]
    show Dispatcher.through _ (s.registry.view (List.map some)) [] = _
    generalize s.registry.view (List.map some) = es
    rw [← List.nil_append (List.flatMap _ es)]
    generalize ([] : List (Candidate CheckedType)) = found
    induction es generalizing found with
    | nil => exact (List.append_nil found).symm
    | cons e es ih =>
        rw [Dispatcher.through, List.flatMap_cons, ← List.append_assoc]
        exact ih _
  · intro b e s progress t hrun
    obtain ⟨contributed, r, hinvoke, hrest⟩ := bind_eq_ok_iff.mp hrun
    obtain ⟨rfl, hregistry⟩ := answered_invoke hpure hinvoke
    cases hrest
    exact ⟨rfl, hregistry⟩

/-- A dispatch that is not cut off is answered as the members of the registry answer together. -/
theorem answered_dispatch {call : HookCall Occurrence CheckedType} {s t : SessionState ι μ}
    {answer : call.Answer} (h : c.dispatcher.dispatch call s = .ok answer t) :
    answer = agreed answers (s.registry.view (List.map some)) call := by
  cases call with
  | ask question => exact answered_ask hpure h
  | narrow candidates origin => exact answered_narrow hpure h
  | contribute missing => exact answered_contribute hpure h
  | notify notice => rfl

/-- The use of a hook is cut off, or it is answered as the members of the registry answer together and
leaves everything but the journal as it is. -/
theorem raise_answers (call : HookCall Occurrence CheckedType) (s : SessionState ι μ) :
    let answer := agreed answers (s.registry.view (List.map some)) call
    (∃ t, c.raise call s = .error .exhausted t) ∨
      ∃ t during, c.raise call s = .ok answer t ∧ t = { s with journal := t.journal } ∧
        t.journal.toList =
          s.journal.toList ++ .raised call s.registry :: (during ++ [.settled call answer]) ∧
        ∀ e ∈ during, e.isMurmur := by
  rw [raise_apply]
  have hmurmured := murmured_dispatch hpure call
  cases hrun : c.dispatcher.dispatch call (s.record (.raised call s.registry)) with
  | error halt t =>
      obtain rfl := hmurmured.halts hrun
      exact .inl ⟨t, bind_of_error hrun⟩
  | ok answer t =>
      obtain rfl := answered_dispatch hpure hrun
      obtain ⟨hsame, during, hjournal, hduring⟩ := hmurmured.state (s.record (.raised call s.registry))
      rw [after_of_ok hrun] at hsame hjournal
      refine .inr ⟨t.record (.settled call _), during, bind_of_ok hrun, ?_, ?_, hduring⟩
      · rw [hsame]
        rfl
      · rw [journal_record, hjournal, journal_record]
        simp

end

end Checker

end ExtensibleCheck
