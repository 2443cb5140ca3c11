import ExtensibleCheck.Registry.Cursor

/-! Single steps of a traversal. A step takes the first of the members that are still ahead, and what is
ahead of a fresh cursor is the view of its registry. Steps do not look at the members themselves: they
come to the same places if the members are replaced by others. -/

namespace ExtensibleCheck

variable {α β κ : Type}

/-- What comes first among slots from an index on: the first occupied one, or nothing if no other is left.
Vacant slots are skipped. -/
def FirstFrom (slots : List (Option α)) (start : Nat) : Option (α × Nat) → Prop
  | some (x, i) =>
    start ≤ i ∧ slots[i]? = some (some x) ∧ ∀ j, start ≤ j → j < i → slots[j]? = some none
  | none => ∀ i x, start ≤ i → slots[i]? ≠ some (some x)

theorem firstFrom_nextOccupied (slots : List (Option α)) (start : Nat) :
    FirstFrom slots start (nextOccupied slots start) := by
  cases h : nextOccupied slots start with
  | none => exact (nextOccupied_eq_none_iff _ _).mp h
  | some found => exact (nextOccupied_eq_some_iff _ _ _ _).mp h

theorem nextOccupied_map (f : α → β) (slots : List (Option α)) (start : Nat) :
    nextOccupied (slots.map (Option.map f)) start =
      (nextOccupied slots start).map fun (x, i) => (f x, i) := by
  cases h : nextOccupied slots start with
  | none =>
      refine (nextOccupied_eq_none_iff _ _).mpr fun i y hi hslot => ?_
      rw [List.getElem?_map, Option.map_eq_some_iff] at hslot
      obtain ⟨slot, hslot, hy⟩ := hslot
      obtain ⟨x, rfl, -⟩ := Option.map_eq_some_iff.mp hy
      exact (nextOccupied_eq_none_iff _ _).mp h i x hi hslot
  | some found =>
      obtain ⟨x, i⟩ := found
      obtain ⟨hle, hslot, hbetween⟩ := (nextOccupied_eq_some_iff _ _ _ _).mp h
      refine (nextOccupied_eq_some_iff _ _ _ _).mpr ⟨hle, ?_, fun j hj hji => ?_⟩
      · rw [List.getElem?_map, hslot]
        rfl
      · rw [List.getElem?_map, hbetween j hj hji]
        rfl

/-- Slots that are appended do not change what comes next, if anything does. -/
theorem nextOccupied_append {slots : List (Option α)} {start i : Nat} {x : α}
    (h : nextOccupied slots start = some (x, i)) (rest : List (Option α)) :
    nextOccupied (slots ++ rest) start = some (x, i) := by
  obtain ⟨hle, hslot, hbetween⟩ := (nextOccupied_eq_some_iff _ _ _ _).mp h
  have hlength := (List.getElem?_eq_some_iff.mp hslot).1
  refine (nextOccupied_eq_some_iff _ _ _ _).mpr ⟨hle, ?_, fun j hj hji => ?_⟩
  · rw [List.getElem?_append_left hlength, hslot]
  · rw [List.getElem?_append_left (Nat.lt_trans hji hlength), hbetween j hj hji]

/-- The member that comes next is the first of those that are left. -/
theorem members_drop_of_some {slots : List (Option α)} {start i : Nat} {x : α}
    (h : nextOccupied slots start = some (x, i)) :
    (slots.drop start).filterMap id = x :: (slots.drop (i + 1)).filterMap id := by
  obtain ⟨hle, hslot, hbetween⟩ := (nextOccupied_eq_some_iff _ _ _ _).mp h
  obtain ⟨hlength, hx⟩ := List.getElem?_eq_some_iff.mp hslot
  have hvacant : ((slots.drop start).take (i - start)).filterMap id = [] := by
    refine List.filterMap_eq_nil_iff.mpr fun slot hmem => ?_
    obtain ⟨j, hj⟩ := List.mem_iff_getElem?.mp hmem
    rw [List.getElem?_take, List.getElem?_drop] at hj
    split at hj
    · rw [hbetween (start + j) (by omega) (by omega)] at hj
      exact (Option.some.inj hj).symm
    · cases hj
  have hrest : (slots.drop start).drop (i - start) = some x :: slots.drop (i + 1) := by
    rw [List.drop_drop, Nat.add_sub_cancel' hle, List.drop_eq_getElem_cons hlength, hx]
  calc (slots.drop start).filterMap id
      = ((slots.drop start).take (i - start) ++ (slots.drop start).drop (i - start)).filterMap id := by
        rw [List.take_append_drop]
    _ = x :: (slots.drop (i + 1)).filterMap id := by
        rw [List.filterMap_append, hvacant, hrest]
        rfl

theorem members_drop_of_none {slots : List (Option α)} {start : Nat}
    (h : nextOccupied slots start = none) : (slots.drop start).filterMap id = [] := by
  refine List.filterMap_eq_nil_iff.mpr fun slot hmem => ?_
  obtain ⟨j, hj⟩ := List.mem_iff_getElem?.mp hmem
  rw [List.getElem?_drop] at hj
  cases slot with
  | none => rfl
  | some x => exact absurd hj ((nextOccupied_eq_none_iff _ _).mp h _ x (Nat.le_add_right _ _))

namespace Cursor

section

variable {read : κ → List (Option α)} {globals : List (Option α)} {next : Nat}

theorem stepGlobals_of_some {x : α} {i : Nat} (h : nextOccupied globals next = some (x, i))
    (scope : Option κ) : stepGlobals read globals next scope = (some x, .inGlobals (i + 1) scope) := by
  unfold stepGlobals
  rw [h]

theorem stepGlobals_of_none (h : nextOccupied globals next = none) (scope : Option κ) :
    stepGlobals read globals next scope = (scope.map (stepScope read 0)).getD (none, .finished) := by
  unfold stepGlobals
  rw [h]
  cases scope <;> rfl

end

section

variable {read : κ → List (Option α)} {read' : κ → List (Option β)} {f : α → β}
  {r : Registry α κ} {r' : Registry β κ}

/-- If the members of a registry are replaced by others, a step comes to the replaced member, and to the
same place. -/
theorem advance_map (hread : ∀ scope, read' scope = (read scope).map (Option.map f))
    (hglobals : r'.globals = r.globals.map (Option.map f)) (hscopes : r'.scopes = r.scopes)
    (cursor : Cursor κ) : cursor.advance read' r' =
      ((cursor.advance read r).1.map f, (cursor.advance read r).2) := by
  have hscope (next : Nat) (scope : κ) : stepScope read' next scope =
      ((stepScope read next scope).1.map f, (stepScope read next scope).2) := by
    rw [stepScope, stepScope, hread, nextOccupied_map]
    cases nextOccupied (read scope) next <;> rfl
  have hglobal (next : Nat) (scope : Option κ) : stepGlobals read' r'.globals next scope =
      ((stepGlobals read r.globals next scope).1.map f,
        (stepGlobals read r.globals next scope).2) := by
    have hmap := nextOccupied_map f r.globals next
    rw [hglobals]
    cases h : nextOccupied r.globals next with
    | some found =>
        rw [h] at hmap
        rw [stepGlobals_of_some h, stepGlobals_of_some hmap]
        rfl
    | none =>
        rw [h] at hmap
        rw [stepGlobals_of_none h, stepGlobals_of_none hmap]
        cases scope with
        | none => rfl
        | some scope => exact hscope 0 scope
  cases cursor with
  | unopened =>
      rw [advance, advance, hscopes]
      exact hglobal 0 _
  | inGlobals next scope => exact hglobal next scope
  | inScope next scope => exact hscope next scope
  | finished => rfl

end

variable (read : κ → List (Option α)) (r : Registry α κ)

/-- The members that a traversal still comes to if nothing changes any more. -/
def remaining : Cursor κ → List α
  | unopened => r.view read
  | inGlobals next scope =>
    (r.globals.drop next).filterMap id ++ ((scope.map read).getD []).filterMap id
  | inScope next scope => ((read scope).drop next).filterMap id
  | finished => []

/-- A step that comes to nobody is the last one. -/
theorem advance_of_none {cursor : Cursor κ} (h : (cursor.advance read r).1 = none) :
    (cursor.advance read r).2 = .finished := by
  have hscope (next : Nat) (scope : κ) (h : (stepScope read next scope).1 = none) :
      (stepScope read next scope).2 = .finished := by
    rw [stepScope] at h ⊢
    cases hnext : nextOccupied (read scope) next with
    | none => rfl
    | some found =>
        rw [hnext] at h
        cases h
  have hglobal (next : Nat) (scope : Option κ) (h : (stepGlobals read r.globals next scope).1 = none) :
      (stepGlobals read r.globals next scope).2 = .finished := by
    cases hnext : nextOccupied r.globals next with
    | some found =>
        rw [stepGlobals_of_some hnext] at h
        cases h
    | none =>
        rw [stepGlobals_of_none hnext] at h ⊢
        cases scope with
        | none => rfl
        | some scope => exact hscope 0 scope h
  cases cursor with
  | unopened => exact hglobal 0 _ h
  | inGlobals next scope => exact hglobal next scope h
  | inScope next scope => exact hscope next scope h
  | finished => rfl

/-- Each step takes the first of the members that remain. -/
theorem remaining_eq (cursor : Cursor κ) :
    cursor.remaining read r = (cursor.advance read r).1.toList ++
      (cursor.advance read r).2.remaining read r := by
  have hscope (next : Nat) (scope : κ) : ((read scope).drop next).filterMap id =
      (stepScope read next scope).1.toList ++ (stepScope read next scope).2.remaining read r := by
    rw [stepScope]
    cases h : nextOccupied (read scope) next with
    | none => exact members_drop_of_none h
    | some found => exact members_drop_of_some h
  have hglobal (next : Nat) (scope : Option κ) :
      (r.globals.drop next).filterMap id ++ ((scope.map read).getD []).filterMap id =
        (stepGlobals read r.globals next scope).1.toList ++
          (stepGlobals read r.globals next scope).2.remaining read r := by
    cases h : nextOccupied r.globals next with
    | none =>
        rw [members_drop_of_none h, stepGlobals_of_none h]
        cases scope with
        | none => rfl
        | some scope => exact hscope 0 scope
    | some found =>
        rw [members_drop_of_some h, stepGlobals_of_some h]
        rfl
  cases cursor with
  | unopened =>
      rw [remaining, Registry.view, List.filterMap_append]
      exact hglobal 0 r.scopes.head?
  | inGlobals next scope => exact hglobal next scope
  | inScope next scope => exact hscope next scope
  | finished => rfl

end Cursor

end ExtensibleCheck
