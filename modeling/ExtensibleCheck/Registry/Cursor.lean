import ExtensibleCheck.Registry.Basic

/-! Lazy traversal of a registry that may change between two steps. A cursor looks up the global
slots by position in the list as it is at that moment, so members appended meanwhile are still
reached, and then goes through the scope that was innermost at its first step. -/

namespace ExtensibleCheck

/-- Where a traversal stands. The scope is fixed by the first step, not by opening the cursor. -/
inductive Cursor (κ : Type) where
  | unopened
  | inGlobals (next : Nat) (scope : Option κ)
  | inScope (next : Nat) (scope : κ)
  | finished
  deriving DecidableEq

/-- The first member at position `start` or later, with its position. -/
def nextOccupied {α : Type} (slots : List (Option α)) (start : Nat) : Option (α × Nat) :=
  ((slots.drop start).zipIdx start).findSome? fun (slot, i) => slot.map fun x => (x, i)

private theorem findSome?_zipIdx_eq_some_iff {α : Type} (slots : List (Option α)) (start : Nat)
    (x : α) (i : Nat) :
    (slots.zipIdx start).findSome? (fun (slot, i) => slot.map fun x => (x, i)) = some (x, i) ↔
      start ≤ i ∧ slots[i - start]? = some (some x) ∧
        ∀ j < i - start, slots[j]? = some none := by
  induction slots generalizing start with
  | nil => simp
  | cons slot rest ih =>
    cases slot with
    | none =>
      rw [List.zipIdx_cons, List.findSome?_cons]
      simp only [Option.map_none]
      rw [ih (start + 1)]
      constructor
      · rintro ⟨hle, hx, hall⟩
        have hs : i - start = i - (start + 1) + 1 := by omega
        refine ⟨by omega, by rw [hs]; simpa using hx, fun j hj => ?_⟩
        cases j with
        | zero => rfl
        | succ j => simpa using hall j (by omega)
      · rintro ⟨hle, hx, hall⟩
        have hne : i - start ≠ 0 := fun h => by simp [h] at hx
        have hs : i - start = i - (start + 1) + 1 := by omega
        refine ⟨by omega, by rw [hs] at hx; simpa using hx, fun j hj => ?_⟩
        simpa using hall (j + 1) (by omega)
    | some y =>
      rw [List.zipIdx_cons, List.findSome?_cons]
      simp only [Option.map_some, Option.some.injEq, Prod.mk.injEq]
      constructor
      · rintro ⟨rfl, rfl⟩
        simp
      · rintro ⟨hle, hx, hall⟩
        have hzero : i - start = 0 := by
          apply Nat.eq_zero_of_not_pos
          intro hpos
          simpa using hall 0 hpos
        rw [hzero] at hx
        exact ⟨by simpa using hx, by omega⟩

/-- The member found is the first one from `start` on. -/
theorem nextOccupied_eq_some_iff {α : Type} (slots : List (Option α)) (start : Nat) (x : α)
    (i : Nat) :
    nextOccupied slots start = some (x, i) ↔
      start ≤ i ∧ slots[i]? = some (some x) ∧
        ∀ j, start ≤ j → j < i → slots[j]? = some none := by
  rw [nextOccupied, findSome?_zipIdx_eq_some_iff]
  constructor
  · rintro ⟨hle, hx, hall⟩
    refine ⟨hle, ?_, fun j hj hji => ?_⟩
    · rw [List.getElem?_drop] at hx
      rwa [Nat.add_sub_cancel' hle] at hx
    · have h := hall (j - start) (by omega)
      rw [List.getElem?_drop] at h
      rwa [Nat.add_sub_cancel' hj] at h
  · rintro ⟨hle, hx, hall⟩
    refine ⟨hle, ?_, fun j hj => ?_⟩
    · rw [List.getElem?_drop, Nat.add_sub_cancel' hle]
      exact hx
    · rw [List.getElem?_drop]
      exact hall (start + j) (by omega) (by omega)

/-- Nothing is found exactly where no member is left. -/
theorem nextOccupied_eq_none_iff {α : Type} (slots : List (Option α)) (start : Nat) :
    nextOccupied slots start = none ↔ ∀ i x, start ≤ i → slots[i]? ≠ some (some x) := by
  rw [nextOccupied, List.findSome?_eq_none_iff]
  constructor
  · intro h i x hi hx
    have hmem : (some x, i) ∈ (slots.drop start).zipIdx start := by
      rw [List.mk_mem_zipIdx_iff_le_and_getElem?_sub, List.getElem?_drop, Nat.add_sub_cancel' hi]
      exact ⟨hi, hx⟩
    simpa using h _ hmem
  · rintro h ⟨slot, i⟩ hmem
    rw [List.mk_mem_zipIdx_iff_le_and_getElem?_sub, List.getElem?_drop] at hmem
    obtain ⟨hi, hslot⟩ := hmem
    rw [Nat.add_sub_cancel' hi] at hslot
    cases slot with
    | none => rfl
    | some x => exact absurd hslot (h i x hi)


namespace Cursor

variable {α κ : Type} (read : κ → List (Option α))

/-- One step within the scope. Once the scope is used up, the traversal is over for good. -/
def stepScope (next : Nat) (scope : κ) : Option α × Cursor κ :=
  match nextOccupied (read scope) next with
  | some (x, i) => (some x, .inScope (i + 1) scope)
  | none => (none, .finished)

/-- One step within the global slots, going over to the scope where they are used up. -/
def stepGlobals (globals : List (Option α)) (next : Nat) (scope : Option κ) :
    Option α × Cursor κ :=
  match nextOccupied globals next, scope with
  | some (x, i), _ => (some x, .inGlobals (i + 1) scope)
  | none, some scope => stepScope read 0 scope
  | none, none => (none, .finished)

/-- The next member and where the traversal stands after it. -/
def advance (r : Registry α κ) : Cursor κ → Option α × Cursor κ
  | .unopened => stepGlobals read r.globals 0 r.scopes.head?
  | .inGlobals next scope => stepGlobals read r.globals next scope
  | .inScope next scope => stepScope read next scope
  | .finished => (none, .finished)

@[simp] theorem advance_finished (r : Registry α κ) :
    advance read r .finished = (none, .finished) := rfl

end Cursor

end ExtensibleCheck
