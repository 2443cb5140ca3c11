import ExtensibleCheck.Proofs.Registry.Chronicle
import Mathlib.Data.List.Chain

/-! Whole traversals of a registry, one step at a time, with anything else going on between the steps. A
traversal goes through the marks in order, so it comes to none twice, and once it is done it stays done. Each
step goes on behind what the one before came to, and skips nothing but vacant slots. A traversal that loses no
registration to a removal comes to all that are there when it leaves them. -/

namespace ExtensibleCheck

open Workspace

namespace Chronicle

variable {α : Type} [DecidableEq α] {c : Chronicle α} {name : String}

theorem orderly_sights (hfaithful : c.Faithful) (hbegun : c.cursor name ≠ .unopened)
    {steps : List (Step α)} (hspares : ∀ step ∈ steps, step.spares name) :
    Orderly c.ledger (c.cursor name) (c.sights name steps) := by
  refine induction_of_begun (P := fun c steps =>
    Orderly c.ledger (c.cursor name) (c.sights name steps)) ?_ ?_ ?_ hfaithful hbegun hspares
  · exact fun _ => ⟨[], 0, rfl, .nil, fun _ hy => nomatch hy⟩
  · intro c rest hfaithful hcomes hlater
    rw [sights_next]
    exact hcomes.orderly hfaithful.ordered hlater
  · intro c step rest hother hcursor hlater
    obtain ⟨yields, n, hsights, hpairwise, hahead⟩ := hlater
    rw [hcursor] at hahead
    rw [sights_other hother]
    refine ⟨yields, n, hsights, hpairwise, fun y hy => ?_⟩
    cases step with
    | add => exact Ledger.ahead_of_add (hahead y hy)
    | remove => exact Ledger.ahead_of_remove (hahead y hy)
    | _ => exact hahead y hy

/-- Whatever a traversal comes to is where its mark says at that moment. -/
theorem holds_of_mem_moments {top : Option (ScopeList α)} (hfaithful : c.Faithful)
    (hbegun : c.cursor name ≠ .unopened) {steps : List (Step α)}
    (hspares : ∀ step ∈ steps, step.spares name) (hwithin : Within top (c.cursor name)) :
    ∀ m ∈ moments name c steps, m.Faithful ∧
      ∀ mark x, m.sight name = some (mark, x) → m.Holds top x mark := by
  refine induction_of_begun (P := fun c steps => Within top (c.cursor name) →
    ∀ m ∈ moments name c steps, m.Faithful ∧
      ∀ mark x, m.sight name = some (mark, x) → m.Holds top x mark)
    ?_ ?_ ?_ hfaithful hbegun hspares hwithin
  · exact fun _ _ _ hm => nomatch hm
  · intro c rest hfaithful hcomes hlater hwithin m hm
    rw [moments_next] at hm
    rcases List.mem_cons.mp hm with rfl | hm
    · refine ⟨hfaithful, fun mark x hsight => ?_⟩
      rw [hsight] at hcomes
      exact hcomes.holds hwithin
    · exact hlater (hcomes.within hwithin) m hm
  · intro c step rest hother hcursor hlater hwithin m hm
    rw [moments_other hother] at hm
    exact hlater (hcursor ▸ hwithin) m hm

/-- Each step of a traversal goes on where the one before left it, the first one of some steps where the
traversal stands before them. -/
theorem isChain_moments {top : Option (ScopeList α)} (hfaithful : c.Faithful)
    (hbegun : c.cursor name ≠ .unopened) {steps : List (Step α)}
    (hspares : ∀ step ∈ steps, step.spares name) (hwithin : Within top (c.cursor name)) :
    (moments name c steps).IsChain (Resumes name top) ∧
      ∀ m ∈ (moments name c steps).head?, m.Seeks (c.cursor name) (m.sight name) := by
  refine induction_of_begun (P := fun c steps => Within top (c.cursor name) →
    (moments name c steps).IsChain (Resumes name top) ∧
      ∀ m ∈ (moments name c steps).head?, m.Seeks (c.cursor name) (m.sight name))
    ?_ ?_ ?_ hfaithful hbegun hspares hwithin
  · exact fun _ _ => ⟨.nil, fun _ hm => nomatch hm⟩
  · intro c rest _ hcomes hlater hwithin
    obtain ⟨hchain, hhead⟩ := hlater (hcomes.within hwithin)
    rw [moments_next]
    refine ⟨List.isChain_cons.mpr ⟨fun m hm => hcomes.resumes hwithin (hhead m hm), hchain⟩, ?_⟩
    intro m hm
    obtain rfl := Option.some.inj hm
    exact hcomes.seeks
  · intro c step rest hother hcursor hlater hwithin
    rw [moments_other hother, ← hcursor]
    exact hlater (hcursor ▸ hwithin)

/-- Additions and removals change the ledger by one entry at most. -/
theorem length_entries_after (step : Step α) : (c.after step).ledger.entries.length ≤
    c.ledger.entries.length + if step.isAddition then 1 else 0 := by
  cases step with
  | add => exact Nat.le_of_eq List.length_append
  | remove => exact (List.eraseP_sublist ..).length_le
  | _ => exact Nat.le_refl _

theorem length_read_after (scope : ScopeList α) (step : Step α) :
    ((c.after step).workspace.read scope).length ≤
      (c.workspace.read scope).length + if step.appendsTo (some scope) then 1 else 0 := by
  have hinsert (list name : String) (slots : List (Option α)) :
      (c.workspace.lists.insert list slots).getD name [] =
        if list = name then slots else c.workspace.slots name := by
    rw [OrderedMap.getD, OrderedMap.get?_insert]
    split <;> rfl
  cases scope with
  | settled slots => exact Nat.le_add_right _ _
  | shared name =>
      cases step with
      | append list slot =>
          have hslots : (c.after (.append list slot)).workspace.read (.shared name) =
              if list = name then c.workspace.slots list ++ [slot] else c.workspace.slots name :=
            hinsert list name _
          rw [hslots]
          by_cases hlist : list = name
          · subst hlist
            have happends : (Step.append list slot).appendsTo (some (.shared list)) :=
              decide_eq_true rfl
            rw [if_pos rfl, if_pos happends, List.length_append]
            exact Nat.le_refl _
          · rw [if_neg hlist]
            exact Nat.le_add_right _ _
      | dropLast list =>
          have hslots : (c.after (.dropLast list)).workspace.read (.shared name) =
              if list = name then (c.workspace.slots list).dropLast else c.workspace.slots name :=
            hinsert list name _
          rw [hslots]
          by_cases hlist : list = name
          · subst hlist
            rw [if_pos rfl, List.length_dropLast]
            exact Nat.sub_le _ _
          · rw [if_neg hlist]
            exact Nat.le_refl _
      | pop =>
          have hslots : (c.workspace.after .pop).slots name = c.workspace.slots name := by
            rw [Workspace.after, Workspace.step]
            cases c.workspace.registry.popLocal <;> rfl
          exact Nat.le_of_eq (congrArg List.length hslots)
      | _ => exact Nat.le_refl _

/-- Only appending makes more room ahead of a traversal. -/
theorem room_after {top : Option (ScopeList α)} {cursor : Cursor (ScopeList α)}
    (hwithin : Within top cursor) (step : Step α) :
    (c.after step).room cursor ≤ c.room cursor + (if step.isAddition then 1 else 0) +
      if step.appendsTo top then 1 else 0 := by
  have hentries := length_entries_after (c := c) step
  cases cursor with
  | unopened | finished => exact Nat.zero_le _
  | inScope next scope =>
      cases hwithin
      have hread := length_read_after (c := c) scope step
      simp only [room]
      omega
  | inGlobals next scope =>
      cases hwithin
      cases top with
      | none =>
          simp only [room, Option.map_none, Option.getD_none]
          omega
      | some scope =>
          have hread := length_read_after (c := c) scope step
          simp only [room, Option.map_some, Option.getD_some]
          omega

/-- A traversal comes to no more members than there were slots ahead of it and slots appended since. -/
theorem count_sights_le {top : Option (ScopeList α)} (hfaithful : c.Faithful)
    (hbegun : c.cursor name ≠ .unopened) {steps : List (Step α)}
    (hspares : ∀ step ∈ steps, step.spares name) (hwithin : Within top (c.cursor name)) :
    (c.sights name steps).countP Option.isSome ≤
      c.room (c.cursor name) + steps.countP Step.isAddition + steps.countP (·.appendsTo top) := by
  refine induction_of_begun (P := fun c steps => Within top (c.cursor name) →
    (c.sights name steps).countP Option.isSome ≤
      c.room (c.cursor name) + steps.countP Step.isAddition + steps.countP (·.appendsTo top))
    ?_ ?_ ?_ hfaithful hbegun hspares hwithin
  · exact fun _ _ => Nat.zero_le _
  · intro c rest _ hcomes hlater hwithin
    have hlater := hlater (hcomes.within hwithin)
    have hgrown := room_after (c := c) (hcomes.within hwithin) (.next name)
    have hroom := hcomes.room_le
    rw [sights_next]
    simp only [List.countP_cons]
    omega
  · intro c step rest hother hcursor hlater hwithin
    have hlater := hlater (hcursor ▸ hwithin)
    have hgrown := room_after (c := c) hwithin step
    rw [hcursor] at hlater
    rw [sights_other hother, List.countP_cons, List.countP_cons]
    omega

/-- The replies to a traversal are what it comes to, without the marks. -/
theorem replies_eq (hfaithful : c.Faithful) (steps : List (Step α)) :
    replies name c.workspace steps =
      (c.sights name steps).map fun sight => Reply.ofMember (sight.map Prod.snd) := by
  induction steps generalizing c with
  | nil => rfl
  | cons step rest ih =>
      have hlater := ih (hfaithful.after step)
      by_cases hstep : step.isNext name
      · obtain rfl := Step.eq_next_of_isNext hstep
        have hreply : c.workspace.reply? (.next name) =
            some (Reply.ofMember ((c.sight name).map Prod.snd)) :=
          congrArg (fun p : Option α × Cursor (ScopeList α) => some (Reply.ofMember p.1))
            (hfaithful.advance_eq (c.cursor name))
        rw [replies, if_pos hstep, hreply, sights_next, List.map_cons, ← hlater]
        rfl
      · rw [replies, if_neg hstep, sights_other (Bool.eq_false_iff.mpr hstep)]
        exact hlater

theorem cursor_afterAll {steps : List (Step α)}
    (h : ∀ step ∈ steps, step.spares name ∧ step.isNext name = false) :
    (c.afterAll steps).cursor name = c.cursor name := by
  induction steps generalizing c with
  | nil => rfl
  | cons step rest ih =>
      obtain ⟨hspares, hother⟩ := h step List.mem_cons_self
      have hlater := ih (c := c.after step) fun step hstep => h step (.tail _ hstep)
      exact hlater.trans (cursor_after hspares hother)

/-- Without removals the ledger only grows. -/
theorem entries_afterAll {steps : List (Step α)} (h : ∀ step ∈ steps, step.isRemoval = false) :
    c.ledger.entries <+: (c.afterAll steps).ledger.entries := by
  induction steps generalizing c with
  | nil => exact List.prefix_refl _
  | cons step rest ih =>
      have hlater := ih (c := c.after step) fun step hstep => h step (.tail _ hstep)
      have hstep := h step List.mem_cons_self
      refine List.IsPrefix.trans ?_ hlater
      cases step with
      | add => exact List.prefix_append _ _
      | remove => cases hstep
      | _ => exact List.prefix_refl _

omit [DecidableEq α] in
theorem advance_of_nextOccupied {next i : Nat} {scope : Option (ScopeList α)} {y : Mark × α}
    (hposition : c.position name = .inGlobals next scope)
    (h : nextOccupied c.marked.globals next = some (y, i)) :
    (c.cursor name).advance c.readMarked c.marked = (some y, .inGlobals (i + 1) scope) := by
  rw [← advance_position, hposition]
  exact Cursor.stepGlobals_of_some h scope

omit [DecidableEq α] in
/-- A traversal that stands before the global slots comes to the next registration, if there is one. -/
theorem sight_isRegistration {next : Nat} {scope : Option (ScopeList α)}
    (hposition : c.position name = .inGlobals next scope) :
    (∃ number x, c.sight name = some (.registration number, x)) ↔
      nextOccupied c.marked.globals next ≠ none := by
  cases h : nextOccupied c.marked.globals next with
  | some found =>
      obtain ⟨⟨mark, x⟩, i⟩ := found
      obtain ⟨number, rfl, -⟩ := nextOccupied_marked h
      have hadvance := advance_of_nextOccupied hposition h
      exact ⟨fun _ => (fun hne => nomatch hne), fun _ => ⟨number, x, congrArg Prod.fst hadvance⟩⟩
  | none =>
      have hnone := c.firstFrom_globals next
      have hseeks : c.Seeks (c.position name) (c.sight name) := by
        rw [sight, ← advance_position]
        exact (comes_advance (by rw [hposition]; exact fun hne => nomatch hne)).seeks
      rw [h] at hnone
      rw [hposition] at hseeks
      refine iff_of_false ?_ fun hne => hne rfl
      rintro ⟨number, x, hsight⟩
      rw [hsight] at hseeks
      obtain ⟨i, -, hle, hslot, -⟩ := hseeks
      exact hnone i x hle hslot

/-- If a traversal comes to a registration and then to all others that are there in the end, it comes to
all from where it stood. -/
theorem complete_next (last : Chronicle α) {next : Nat} {scope : Option (ScopeList α)}
    {later : List (Option (Mark × α))} (hfaithful : c.Faithful)
    (hposition : c.position name = .inGlobals next scope)
    (hsight : ∃ number x, c.sight name = some (.registration number, x))
    (hlast : c.ledger.entries <+: last.ledger.entries)
    (hlater : ∀ i, (c.after (.next name)).cursor name = .inGlobals (i + 1) scope →
      later = ((last.marked.globals.drop (i + 1)).filterMap id).map some) :
    c.sight name :: later = ((last.marked.globals.drop next).filterMap id).map some := by
  obtain ⟨⟨y, i⟩, hnext⟩ := Option.ne_none_iff_exists'.mp ((sight_isRegistration hposition).mp hsight)
  have hadvance := advance_of_nextOccupied hposition hnext
  obtain ⟨extra, hextra⟩ := hlast
  have hglobals : last.marked.globals = c.marked.globals ++ extra.map fun e =>
      e.slot.map fun x => (.registration e.number, x) := by
    rw [marked, marked, ← hextra, List.map_append]
  have hcursor : (c.after (.next name)).cursor name = .inGlobals (i + 1) scope := by
    rw [cursor_next hfaithful, hadvance]
  rw [hlater i hcursor, hglobals, members_drop_of_some (nextOccupied_append hnext _), List.map_cons,
    sight, hadvance]

/-- While the traversal goes through the global slots, it comes to all that are there in the end, as long
as none is removed. -/
theorem sights_complete {next : Nat} {scope : Option (ScopeList α)} (hfaithful : c.Faithful)
    (hcursor : c.cursor name = .inGlobals next scope) {phase : List (Step α)}
    (hspares : ∀ step ∈ phase, step.spares name) (hkeeps : ∀ step ∈ phase, step.isRemoval = false)
    (hglobal : ∀ sight ∈ c.sights name phase, ∃ number x, sight = some (.registration number, x))
    (hlast : ∀ number x, (c.afterAll phase).sight name ≠ some (.registration number, x)) :
    c.sights name phase =
      (((c.afterAll phase).marked.globals.drop next).filterMap id).map some := by
  have hbegun {c : Chronicle α} {next : Nat} (hcursor : c.cursor name = .inGlobals next scope) :
      c.position name = .inGlobals next scope :=
    (position_of_begun (by rw [hcursor]; exact fun hne => nomatch hne)).trans hcursor
  -- The ledger only grows at its end, so the later steps go through the same slots.
  refine induction_of_begun (P := fun c phase => ∀ next, c.cursor name = .inGlobals next scope →
    (∀ step ∈ phase, step.isRemoval = false) →
    (∀ sight ∈ c.sights name phase, ∃ number x, sight = some (.registration number, x)) →
    (∀ number x, (c.afterAll phase).sight name ≠ some (.registration number, x)) →
    c.sights name phase = (((c.afterAll phase).marked.globals.drop next).filterMap id).map some)
    ?_ ?_ ?_ hfaithful (by rw [hcursor]; exact fun hne => nomatch hne) hspares next hcursor hkeeps
    hglobal hlast
  · intro c next hcursor _ _ hlast
    have hnone : nextOccupied c.marked.globals next = none := by
      by_contra hsome
      obtain ⟨number, x, hsight⟩ := (sight_isRegistration (hbegun hcursor)).mpr hsome
      exact hlast number x hsight
    show [] = ((c.marked.globals.drop next).filterMap id).map some
    rw [members_drop_of_none hnone, List.map_nil]
  · intro c rest hfaithful _ hlater next hcursor hkeeps hglobal hlast
    rw [sights_next] at hglobal ⊢
    refine complete_next (c.afterAll (.next name :: rest)) hfaithful (hbegun hcursor)
      (hglobal _ List.mem_cons_self) (entries_afterAll hkeeps) fun i hcursor => ?_
    exact hlater (i + 1) hcursor (fun step h => hkeeps step (.tail _ h))
      (fun sight h => hglobal sight (.tail _ h)) hlast
  · intro c step rest hother hsame hlater next hcursor hkeeps hglobal hlast
    rw [sights_other hother] at hglobal ⊢
    exact hlater next (hsame.trans hcursor) (fun step h => hkeeps step (.tail _ h)) hglobal hlast

omit [DecidableEq α] in
theorem position_of_opened (h : c.cursor name = .unopened) :
    c.position name = .inGlobals 0 c.top := by
  rw [position, h]

theorem cursor_openCursor : (c.after (.openCursor name)).cursor name = .unopened := by
  show (c.workspace.cursors.insert name _).getD name _ = _
  rw [OrderedMap.getD, OrderedMap.get?_insert_self, Option.getD_some]

theorem workspace_afterAll (steps : List (Step α)) :
    (c.afterAll steps).workspace = c.workspace.afterAll steps := by
  induction steps generalizing c with
  | nil => rfl
  | cons step rest ih => exact ih (c := c.after step)

/-! From here on the traversal is opened and not begun, and its first step is about to be taken. -/

section

variable (hfaithful : c.Faithful) (hopened : c.cursor name = .unopened)

include hfaithful hopened

theorem comes_first : c.Comes (.inGlobals 0 c.top) (c.sight name)
    ((c.after (.next name)).cursor name) := by
  have hcomes := hfaithful.comes name
  rwa [position_of_opened hopened] at hcomes

/-- The first members that a traversal comes to are all registrations that are there when it leaves them,
if nothing is removed until then. -/
theorem sights_complete_first {phase : List (Step α)}
    (hspares : ∀ step ∈ phase, step.spares name) (hkeeps : ∀ step ∈ phase, step.isRemoval = false)
    (hfirst : ∀ step ∈ phase.head?, step = .next name)
    (hglobal : ∀ sight ∈ c.sights name phase, ∃ number x, sight = some (.registration number, x))
    (hlast : ∀ number x, (c.afterAll phase).sight name ≠ some (.registration number, x)) :
    c.sights name phase = ((c.afterAll phase).marked.globals.filterMap id).map some := by
  have hposition := position_of_opened hopened
  cases phase with
  | nil =>
      have hnone : nextOccupied c.marked.globals 0 = none := by
        by_contra hsome
        obtain ⟨number, x, hsight⟩ := (sight_isRegistration hposition).mpr hsome
        exact hlast number x hsight
      show [] = (c.marked.globals.filterMap id).map some
      rw [← List.drop_zero (l := c.marked.globals), members_drop_of_none hnone, List.map_nil]
  | cons first phase =>
      obtain rfl := hfirst first rfl
      rw [sights_next] at hglobal ⊢
      refine complete_next ((c.after (.next name)).afterAll phase) hfaithful hposition
        (hglobal _ List.mem_cons_self) (entries_afterAll hkeeps) fun i hcursor => ?_
      exact sights_complete (hfaithful.after _) hcursor (fun step h => hspares step (.tail _ h))
        (fun step h => hkeeps step (.tail _ h)) (fun sight h => hglobal sight (.tail _ h)) hlast

variable {late : List (Step α)} (hspares : ∀ step ∈ late, step.spares name)

include hspares

theorem holds_of_mem_moments_first :
    ∀ m ∈ moments name c (.next name :: late), m.Faithful ∧
      ∀ mark x, m.sight name = some (mark, x) → m.Holds c.top x mark := by
  have hcomes := comes_first hfaithful hopened
  intro m hm
  rw [moments_next] at hm
  rcases List.mem_cons.mp hm with rfl | hm
  · refine ⟨hfaithful, fun mark x hsight => ?_⟩
    rw [hsight] at hcomes
    exact hcomes.holds rfl
  · exact holds_of_mem_moments (hfaithful.after _) hcomes.begun hspares (hcomes.within rfl) m hm

theorem isChain_moments_first : c.SeeksRegistration c.top 0 (c.sight name) ∧
    (moments name c (.next name :: late)).IsChain (Resumes name c.top) := by
  have hcomes := comes_first hfaithful hopened
  have hwithin : Within c.top ((c.after (.next name)).cursor name) := hcomes.within rfl
  obtain ⟨hchain, hhead⟩ := isChain_moments (hfaithful.after _) hcomes.begun hspares hwithin
  rw [moments_next]
  exact ⟨hcomes.seeks, List.isChain_cons.mpr ⟨fun m hm => hcomes.resumes rfl (hhead m hm), hchain⟩⟩

theorem orderly_sights_first :
    Orderly c.ledger (.inGlobals 0 c.top) (c.sights name (.next name :: late)) := by
  have hcomes := comes_first hfaithful hopened
  rw [sights_next]
  exact hcomes.orderly hfaithful.ordered (orderly_sights (hfaithful.after _) hcomes.begun hspares)

theorem count_sights_first_le :
    (c.sights name (.next name :: late)).countP Option.isSome ≤
      c.room (.inGlobals 0 c.top) + late.countP Step.isAddition + late.countP (·.appendsTo c.top) := by
  have hcomes := comes_first hfaithful hopened
  have hwithin : Within c.top ((c.after (.next name)).cursor name) := hcomes.within rfl
  have hcount := count_sights_le (hfaithful.after _) hcomes.begun hspares hwithin
  have hgrown : _ ≤ c.room _ + 0 + 0 := room_after hwithin (.next name)
  have hroom := hcomes.room_le
  rw [sights_next, List.countP_cons]
  omega

end

end Chronicle

open Chronicle

/-- A traversal is opened, and at some point begun and then continued, while anything else goes on. It
comes to members that are where their marks say, in the scope that was innermost when it began; to
registrations in their order before places in theirs; to no more than there were and are appended; and
from some step on to nothing. Every step comes to the first slot behind that of the step before that is not
vacant: to a global one, and if there is none, to one of the scope, and only if there is none either, to
nothing. If nothing is removed as long as it comes to registrations, then it comes to all that are there when
it leaves them. -/
theorem Workspace.traversal_inOrder {α : Type} [DecidableEq α] (w : Workspace α) (name : String)
    {early late : List (Step α)}
    (hearly : ∀ step ∈ early, step.spares name ∧ step.isNext name = false)
    (hlate : ∀ step ∈ late, step.spares name) :
    let c := (start w).afterAll (.openCursor name :: early)
    let steps := .next name :: late
    c.workspace = w.afterAll (.openCursor name :: early) ∧
    replies name c.workspace steps =
      (c.sights name steps).map (fun sight => Reply.ofMember (sight.map Prod.snd)) ∧
    (∀ m ∈ moments name c steps, m.ledger.globals = m.workspace.registry.globals ∧
      ∀ mark x, m.sight name = some (mark, x) → m.Holds c.top x mark) ∧
    (∃ (yields : List (Mark × α)) (n : Nat),
      c.sights name steps = yields.map some ++ List.replicate n none ∧
      yields.Pairwise (·.1.Before ·.1) ∧
      yields.length ≤ c.room (.inGlobals 0 c.top) + late.countP Step.isAddition +
        late.countP (·.appendsTo c.top)) ∧
    (c.SeeksRegistration c.top 0 (c.sight name) ∧ (moments name c steps).IsChain (Resumes name c.top)) ∧
    ∀ phase rest, steps = phase ++ .next name :: rest →
      (∀ step ∈ phase, step.isRemoval = false) →
      (∀ sight ∈ c.sights name phase, ∃ number x, sight = some (.registration number, x)) →
      (∀ number x, (c.afterAll phase).sight name ≠ some (.registration number, x)) →
      c.ledger.entries <+: (c.afterAll phase).ledger.entries ∧
        c.sights name phase = ((c.afterAll phase).marked.globals.filterMap id).map some := by
  intro c steps
  have hfaithful : c.Faithful := (faithful_start w).afterAll _
  have hopened : c.cursor name = .unopened := (cursor_afterAll hearly).trans cursor_openCursor
  refine ⟨workspace_afterAll _, replies_eq hfaithful _, fun m hm => ?_, ?_,
    isChain_moments_first hfaithful hopened hlate, ?_⟩
  · obtain ⟨hm, hholds⟩ := holds_of_mem_moments_first hfaithful hopened hlate m hm
    exact ⟨hm.globals, hholds⟩
  · obtain ⟨yields, n, hsights, hpairwise, -⟩ := orderly_sights_first hfaithful hopened hlate
    have hcount := count_sights_first_le hfaithful hopened hlate
    rw [hsights, List.countP_append, List.countP_map, List.countP_replicate] at hcount
    exact ⟨yields, n, hsights, hpairwise, by simpa [Function.comp_def] using hcount⟩
  · intro phase rest hsplit hkeeps hglobal hlast
    have hspares : ∀ step ∈ phase, step.spares name := fun step hstep => by
      have hmem : step ∈ steps := hsplit ▸ List.mem_append_left _ hstep
      rcases List.mem_cons.mp hmem with rfl | hmem
      · rfl
      · exact hlate step hmem
    have hfirst : ∀ step ∈ phase.head?, step = .next name := fun step hstep => by
      obtain ⟨phase, rfl⟩ := List.head?_eq_some_iff.mp hstep
      exact (List.cons.inj hsplit).1.symm
    exact ⟨entries_afterAll hkeeps,
      sights_complete_first hfaithful hopened hspares hkeeps hfirst hglobal hlast⟩

/-- A slot without a member, and a scope with two such slots, are there before the traversal begins. -/
def beforeFirstStep : List (Workspace.Step Nat) :=
  [.add (some 1), .add none, .push (.shared "scope"), .append "scope" none, .append "scope" (some 7),
    .append "scope" none]

/-- Members are added after the first step, one of them to the scope, and another scope is opened, which is
not gone through. -/
def afterFirstStep : List (Workspace.Step Nat) :=
  [.add (some 2), .push (.settled [some 9]), .next "view", .next "view", .append "scope" (some 8),
    .next "view", .next "view"]

theorem traversal_inOrder_lateAddition :
    let c := (start {}).afterAll (.openCursor "view" :: beforeFirstStep)
    let sights := c.sights "view" (.next "view" :: afterFirstStep)
    (∀ step ∈ beforeFirstStep, step.spares "view" ∧ step.isNext "view" = false) ∧
      (∀ step ∈ afterFirstStep, step.spares "view") ∧
      sights = [some (.registration 0, 1), some (.registration 2, 2), some (.place 1, 7),
        some (.place 3, 8), none] ∧
      (moments "view" c (.next "view" :: afterFirstStep)).IsChain (Resumes "view" c.top) ∧
      ∃ (yields : List (Mark × Nat)) (n : Nat), sights = yields.map some ++ List.replicate n none ∧
        yields.Pairwise (·.1.Before ·.1) := by
  have hbefore : ∀ step ∈ beforeFirstStep, step.spares "view" ∧ step.isNext "view" = false := by
    decide
  have hafter : ∀ step ∈ afterFirstStep, step.spares "view" := by decide
  obtain ⟨-, -, -, ⟨yields, n, hsights, hpairwise, -⟩, ⟨-, hchain⟩, -⟩ :=
    Workspace.traversal_inOrder {} "view" hbefore hafter
  exact ⟨hbefore, hafter, by decide +kernel, hchain, yields, n, hsights, hpairwise⟩

end ExtensibleCheck
