import ExtensibleCheck.Proofs.Walk.Hooks
import ExtensibleCheck.Proofs.Walk.Marks
import ExtensibleCheck.Proofs.Walk.Mistakes
import ExtensibleCheck.Proofs.Walk.Typing

/-! Which variables are offered as unresolved. Every variable that is read and can be reached is looked
for exactly once, and it is offered then if it has neither a symbol nor anything stored; nothing else is
ever offered as a variable. So none is forgotten, and none comes up twice. -/

namespace ExtensibleCheck

open Occurrence

section

variable {ι : Type} {events journal : List (Event ι)} {n i : Occurrence}

/-- Only the check of a variable offers one. -/
theorem Piece.check_of_raised (h : Piece journal n events) {registry : Registry ι (List ι)}
    (hmem : .raised (.ask (.unresolvedVariable i)) registry ∈ events) :
    n = i ∧ i.isVariable ∧ VariableCheck i events := by
  have hcall : HookCall.ask (.unresolvedVariable i) ∈ raisedIn events := mem_raisedIn.mpr ⟨_, hmem⟩
  cases h with
  | «variable» hvariable hcheck =>
      cases hcheck.eq_of_raised hcall
      exact ⟨rfl, hvariable, hcheck⟩
  | opening hopening =>
      obtain ⟨before, after, hannounced, hasked⟩ := hopening.eq_of_raised hcall
      have hbefore := (announcement?_spec hannounced).2.2.1
      rw [← hasked] at hbefore
      cases hbefore
  | closing _ _ hclosing =>
      rcases hclosing.raised.cases hcall with
        ⟨question, hquestion, hmistaken⟩ | ⟨-, hresolves⟩ | ⟨_, _, _, hnotify⟩
      · cases hquestion
        cases hmistaken
      · cases hresolves
      · cases hnotify

/-- A variable is offered right after it was looked for in vain. -/
theorem VariableCheck.offers (h : VariableCheck i events) {first last : List (Event ι)}
    {registry : Registry ι (List ι)}
    (hsplit : events = first ++ .raised (.ask (.unresolvedVariable i)) registry :: last) :
    i.readsVariable ∧ i.hasVariableSymbol = false ∧ first = [.probed i false] := by
  cases h with
  | unread => simp at hsplit
  | known =>
      cases first with
      | nil => cases hsplit
      | cons => simp at hsplit
  | unknown hreads hsymbol hoffered =>
      refine ⟨hreads, hsymbol, ?_⟩
      obtain ⟨_, rest, rfl, hrest⟩ := hoffered.begins
      exact (eq_of_raised_once hsplit.symm List.not_mem_nil
        (hrest ▸ List.not_mem_nil)).1

variable {p : Program}

/-- A variable is offered at a place that the walk reaches. -/
theorem Course.reaches_of_offered (h : Course p events) (hnumbers : (p.files.map (·.number)).Nodup)
    {past rest : List (Event ι)} {registry : Registry ι (List ι)}
    (hsplit : events = past ++ .raised (.ask (.unresolvedVariable i)) registry :: rest) :
    p.Reaches events i ∧ i.readsVariable ∧ i.hasVariableSymbol = false ∧
      ∃ before, past = before ++ [.probed i false] := by
  have hconsistent := h.consistent hnumbers fun _ he => he
  rcases h.exists_piece hconsistent hsplit with
    hambient | ⟨n, before, first, last, after, rfl, rfl, hreaches, hpiece⟩
  · cases hambient
  obtain ⟨rfl, -, hcheck⟩ := hpiece.check_of_raised (List.mem_append_right _ List.mem_cons_self)
  obtain ⟨hreads, hsymbol, rfl⟩ := hcheck.offers rfl
  exact ⟨hreaches, hreads, hsymbol, before, rfl⟩

/-- A variable that can be reached is looked for, and offered if there is neither a symbol for it nor
anything stored. -/
theorem Course.exists_probe (h : Course p events) (hi : i.kind = .identifier)
    (hreaches : p.Reaches events i) (hreads : i.readsVariable) :
    ∃ past found rest, events = past ++ .probed i found :: rest ∧
      (i.hasVariableSymbol = false → found = false →
        ∃ registry, .raised (.ask (.unresolvedVariable i)) registry ∈ events) := by
  have hvariable : i.isVariable = true := by rw [isVariable, hi, decide_eq_true rfl, Bool.or_true]
  obtain ⟨past, check, rest, rfl, hcheck⟩ := h.exists_check hreaches hvariable
  cases hcheck with
  | unread hunread =>
      rw [hreads] at hunread
      cases hunread
  | @known found _ hknown =>
      refine ⟨past, found, rest, by simp, fun hsymbol hfound => ?_⟩
      rw [hsymbol, hfound] at hknown
      cases hknown
  | unknown _ _ hoffered =>
      obtain ⟨registry, further, rfl, -⟩ := hoffered.begins
      exact ⟨past, false, _, by simp; rfl, fun _ _ => ⟨registry, by simp⟩⟩

end

open Run Session SessionState

namespace Checker

variable {ι μ : Type} [DecidableEq ι] (c : Checker ι μ)

/-- Whatever the program, the extensions and their answers: in a check that is not aborted an identifier
is offered as an unresolved variable if and only if the walk reaches it, it stands for the value of a
variable, the compiler has no symbol for that, and nothing was stored for it when the walk came to it.
The walk comes to each such identifier once, and it is offered then. -/
theorem check_offers_variables (p : Program) (memory : μ) (h : (c.check p).finishes { memory })
    (hnumbers : (p.files.map (·.number)).Nodup) (i : Occurrence) (hi : i.kind = .identifier) :
    let journal := ((c.check p).after { memory }).journal.toList
    ((∃ registry, .raised (.ask (.unresolvedVariable i)) registry ∈ journal) ↔
      p.Reaches journal i ∧ i.readsVariable ∧ i.hasVariableSymbol = false ∧
        ∃ past rest, journal = past ++ .probed i false :: rest ∧ lastTyping past i.id = none) ∧
    (p.Reaches journal i → i.readsVariable → ∃ past rest,
      journal = past ++ .probed i (lastTyping past i.id).isSome :: rest ∧
        ∀ found, .probed i found ∉ past ++ rest) ∧
    ∀ past registry rest, journal = past ++ .raised (.ask (.unresolvedVariable i)) registry :: rest →
      ∃ before, past = before ++ [.probed i false] := by
  have hfollows (past : List (Event ι)) (e : Event ι) (rest : List (Event ι))
      (hsplit : ((c.check p).after { memory }).journal.toList = past ++ e :: rest) :
      e.FollowsFrom past := (c.typed_check p memory).follows hsplit
  obtain ⟨rest, hcourse, hrest⟩ := c.check_course p memory
  rw [hrest h, List.append_nil] at hcourse
  generalize ((c.check p).after { memory }).journal.toList = journal at hfollows hcourse ⊢
  have hmarks : (marks journal).Nodup := hcourse.nodup_marks hnumbers
  have hmark (found : Bool) : (Event.probed (ι := ι) i found).mark? = some (.sought, i.id) := rfl
  refine ⟨⟨?_, ?_⟩, ?_, fun _ _ _ hsplit => (hcourse.reaches_of_offered hnumbers hsplit).2.2.2⟩
  · rintro ⟨registry, hmem⟩
    obtain ⟨past, rest, hsplit⟩ := List.append_of_mem hmem
    obtain ⟨hreaches, hreads, hsymbol, before, rfl⟩ := hcourse.reaches_of_offered hnumbers hsplit
    rw [List.append_assoc] at hsplit
    have hnone : false = (lastTyping before i.id).isSome := hfollows _ _ _ hsplit
    exact ⟨hreaches, hreads, hsymbol, before, _, hsplit, by simpa using hnone.symm⟩
  · rintro ⟨hreaches, hreads, hsymbol, past, rest, hsplit, -⟩
    obtain ⟨past', found, rest', hsplit', hoffers⟩ := hcourse.exists_probe hi hreaches hreads
    -- The variable is looked for only once.
    have hfalse : .probed i false ∈ journal := hsplit.symm ▸ List.mem_append_right _ List.mem_cons_self
    have hfound : .probed i found ∈ journal := hsplit'.symm ▸ List.mem_append_right _ List.mem_cons_self
    cases eq_of_nodup_marks hmarks hfalse hfound (hmark false) (hmark found)
    exact hoffers hsymbol rfl
  · intro hreaches hreads
    obtain ⟨past, found, rest, hsplit, -⟩ := hcourse.exists_probe hi hreaches hreads
    obtain rfl : found = (lastTyping past i.id).isSome := hfollows _ _ _ hsplit
    refine ⟨past, rest, hsplit, fun found hmem => ?_⟩
    rw [hsplit] at hmarks
    exact mark?_ne_of_nodup_marks hmarks (hmark _) hmem (hmark found)

end Checker

/-- Both operands are offered, and nothing else. -/
theorem check_offers_variables_strayNames :
    let run := caresForLeft.check strayNames
    let journal := (run.after { memory := () }).journal.toList
    run.finishes { memory := () } ∧ (strayNames.files.map (·.number)).Nodup ∧
      (raisedIn journal).map (·.hook) =
        [.setup, .unresolvedVariable, .unresolvedVariable, .finish] ∧
      ∀ i : Occurrence, i.kind = .identifier →
        ((∃ registry, .raised (.ask (.unresolvedVariable i)) registry ∈ journal) ↔
          strayNames.Reaches journal i ∧ i.readsVariable ∧ i.hasVariableSymbol = false ∧
            ∃ past rest, journal = past ++ .probed i false :: rest ∧ lastTyping past i.id = none) := by
  have hfinishes : (caresForLeft.check strayNames).finishes { memory := () } := by decide +kernel
  have hnumbers : (strayNames.files.map (·.number)).Nodup := by decide
  refine ⟨hfinishes, hnumbers, by decide +kernel, fun i hi => ?_⟩
  exact (caresForLeft.check_offers_variables strayNames () hfinishes hnumbers i hi).1

end ExtensibleCheck
