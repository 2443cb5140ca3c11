import ExtensibleCheck.Registry.Cursor
import Mathlib.Data.List.Nodup
import Mathlib.Data.List.Perm.Subperm

/-! One round through the global slots of a registry while slots are appended and removed. Every
registration gets a number, so that it can be told from others of the same member. The position of the
traversal is not moved when a slot before it is removed; all later slots move up by one then, and the
one that is next in turn is overrun. -/

namespace ExtensibleCheck

/-- A slot with the number of its registration. -/
structure Registration (α : Type) where
  number : Nat
  slot : Option α
  deriving DecidableEq

/-- A round so far. -/
structure Round (α : Type) where
  slots : List (Registration α)
  /-- The number for the next registration. -/
  fresh : Nat
  /-- The position at which the traversal goes on. -/
  next : Nat := 0
  /-- The registrations that the round came to, with their members, in order. -/
  reached : List (Nat × α) := []
  /-- The registrations that got behind the position before the round came to them. -/
  overrun : List Nat := []
  /-- How often a slot before the position was removed. -/
  lost : Nat := 0

namespace Round

variable {α : Type}

/-- The round that is about to begin. -/
def start (globals : List (Option α)) : Round α where
  slots := globals.zipIdx.map fun (slot, number) => ⟨number, slot⟩
  fresh := globals.length

/-- The slots as the registry has them. -/
def globals (r : Round α) : List (Option α) := r.slots.map (·.slot)

/-- A member is added at the end. If the position is beyond the end, it is overrun at once. -/
def add (r : Round α) (x : α) : Round α :=
  { r with
    slots := r.slots ++ [⟨r.fresh, some x⟩]
    fresh := r.fresh + 1
    overrun := if r.slots.length < r.next then r.overrun ++ [r.fresh] else r.overrun }

/-- A slot that the position has passed is removed: the slot at the position, if there is one, moves
behind it. -/
def dropPassed (r : Round α) (i : Nat) : Round α :=
  { r with
    slots := r.slots.eraseIdx i
    overrun := r.overrun ++ (r.slots[r.next]?.map (·.number)).toList
    lost := r.lost + 1 }

/-- A slot that is still ahead is removed. -/
def dropAhead (r : Round α) (i : Nat) : Round α := { r with slots := r.slots.eraseIdx i }

/-- The first slot that holds a member is removed, if there is one. -/
def remove [DecidableEq α] (r : Round α) (x : α) : Round α :=
  let i := r.globals.idxOf (some x)
  if i < r.slots.length then if i < r.next then r.dropPassed i else r.dropAhead i else r

/-- The round comes to the next member. -/
def visit (r : Round α) : Round α :=
  match nextOccupied r.globals r.next with
  | some (x, i) =>
    { r with
      next := i + 1
      reached := r.reached ++ (r.slots[i]?.map fun slot => (slot.number, x)).toList }
  | none => r

/-- The numbers of the registrations that the round came to. -/
def reachedNumbers (r : Round α) : List Nat := r.reached.map Prod.fst

theorem globals_start (globals : List (Option α)) : (start globals).globals = globals := by
  show ((globals.zipIdx.map _).map _) = _
  rw [List.map_map]
  exact List.zipIdx_map_fst 0 globals

theorem globals_add (r : Round α) (x : α) : (r.add x).globals = r.globals ++ [some x] := by
  simp [globals, add]

/-- After an addition every slot is where it was, or it is the new one at the end. -/
theorem getElem?_add_cases {r : Round α} {x : α} {i : Nat} {slot : Registration α}
    (h : (r.add x).slots[i]? = some slot) :
    r.slots[i]? = some slot ∧ i < r.slots.length ∨ i = r.slots.length ∧ slot = ⟨r.fresh, some x⟩ := by
  have hsplit : (r.slots ++ [⟨r.fresh, some x⟩])[i]? = some slot := h
  rw [List.getElem?_append] at hsplit
  split at hsplit
  · rename_i hi
    exact Or.inl ⟨hsplit, hi⟩
  · rename_i hi
    rw [List.getElem?_singleton] at hsplit
    split at hsplit
    · rename_i hzero
      exact Or.inr ⟨by omega, (Option.some.inj hsplit).symm⟩
    · cases hsplit

theorem mem_overrun_add {r : Round α} {x : α} {k : Nat} :
    k ∈ (r.add x).overrun ↔ k ∈ r.overrun ∨ r.slots.length < r.next ∧ k = r.fresh := by
  show k ∈ (if _ then _ else _) ↔ _
  split <;> simp [*]

theorem mem_overrun_dropPassed {r : Round α} {i k : Nat} :
    k ∈ (r.dropPassed i).overrun ↔
      k ∈ r.overrun ∨ ∃ slot, r.slots[r.next]? = some slot ∧ slot.number = k := by
  show k ∈ r.overrun ++ _ ↔ _
  rw [List.mem_append, Option.mem_toList, Option.map_eq_some_iff]

theorem globals_remove [DecidableEq α] (r : Round α) (x : α) :
    (r.remove x).globals = r.globals.erase (some x) := by
  have herase : (r.slots.eraseIdx (r.globals.idxOf (some x))).map (·.slot) =
      r.globals.erase (some x) := by
    rw [← List.eraseIdx_map, ← List.eraseIdx_idxOf_eq_erase]
    rfl
  unfold remove
  by_cases hlength : r.globals.idxOf (some x) < r.slots.length
  · rw [if_pos hlength]
    by_cases hnext : r.globals.idxOf (some x) < r.next
    · rw [if_pos hnext]
      exact herase
    · rw [if_neg hnext]
      exact herase
  · rw [if_neg hlength, ← herase, List.eraseIdx_of_length_le (Nat.not_lt.mp hlength)]
    rfl

theorem globals_visit (r : Round α) : r.visit.globals = r.globals := by
  rw [visit]
  split <;> rfl

/-- The round comes to the next member, which stands in a numbered slot, and goes on behind it. Before
that slot there is no other member left. -/
theorem visit_of_nextOccupied {r : Round α} {x : α} {i : Nat}
    (h : nextOccupied r.globals r.next = some (x, i)) :
    ∃ k, r.slots[i]? = some ⟨k, some x⟩ ∧ r.next ≤ i ∧
      (∀ j, r.next ≤ j → j < i → ∀ n y, r.slots[j]? ≠ some ⟨n, some y⟩) ∧
      r.visit = { r with next := i + 1, reached := r.reached ++ [(k, x)] } := by
  obtain ⟨hle, hfound, hbetween⟩ := (nextOccupied_eq_some_iff _ _ _ _).mp h
  rw [globals, List.getElem?_map, Option.map_eq_some_iff] at hfound
  obtain ⟨⟨k, _⟩, hslot, rfl⟩ := hfound
  refine ⟨k, hslot, hle, fun j hj hji n y hother => ?_, ?_⟩
  · have hnone := hbetween j hj hji
    rw [globals, List.getElem?_map, hother] at hnone
    cases hnone
  · simp only [visit, h, hslot]
    rfl

/-- What holds throughout a round. -/
structure Sound (r : Round α) : Prop where
  /-- No number stands for two slots. -/
  distinct : (r.slots.map (·.number)).Nodup
  used : ∀ slot ∈ r.slots, slot.number < r.fresh
  /-- Behind the position, a member was either reached or overrun. -/
  passed : ∀ i k x, i < r.next → r.slots[i]? = some ⟨k, some x⟩ →
    (k ∈ r.reachedNumbers ↔ k ∉ r.overrun)
  /-- From the position on, nothing was reached or overrun yet. -/
  ahead : ∀ i slot, r.next ≤ i → r.slots[i]? = some slot →
    slot.number ∉ r.reachedNumbers ∧ slot.number ∉ r.overrun
  /-- Nothing was reached twice. -/
  once : r.reachedNumbers.Nodup
  known : ∀ k, k ∈ r.reachedNumbers ∨ k ∈ r.overrun → k < r.fresh
  /-- Every removal of a slot before the position costs one registration its turn, at the latest when
  another one is added. -/
  account : r.overrun.length + (r.next - r.slots.length) = r.lost

theorem sound_start (globals : List (Option α)) : (start globals).Sound := by
  have hnumbers : (start globals).slots.map (·.number) = List.range' 0 globals.length := by
    show ((globals.zipIdx.map _).map _) = _
    rw [List.map_map]
    exact List.zipIdx_map_snd 0 globals
  refine ⟨?_, fun slot hslot => ?_, (fun _ _ _ hi => nomatch hi), fun _ _ _ _ => ?_, List.nodup_nil,
    fun _ hk => ?_, ?_⟩
  · rw [hnumbers]
    exact List.nodup_range' ..
  · have hmem : slot.number ∈ List.range' 0 globals.length :=
      hnumbers ▸ List.mem_map_of_mem hslot
    have hlt := (List.mem_range'_1.mp hmem).2
    rwa [Nat.zero_add] at hlt
  · exact ⟨List.not_mem_nil, List.not_mem_nil⟩
  · rcases hk with hk | hk <;> cases hk
  · show 0 + (0 - _) = 0
    omega

namespace Sound

variable {r : Round α}

/-- Slots at different positions have different numbers. -/
theorem index_eq (h : r.Sound) {i j : Nat} {slot slot' : Registration α}
    (hi : r.slots[i]? = some slot) (hj : r.slots[j]? = some slot')
    (hnumber : slot.number = slot'.number) : i = j := by
  have hlength : i < (r.slots.map (·.number)).length := by
    rw [List.length_map]
    exact (List.getElem?_eq_some_iff.mp hi).1
  apply (List.getElem?_inj hlength h.distinct).mp
  rw [List.getElem?_map, List.getElem?_map, hi, hj, Option.map_some, Option.map_some, hnumber]

theorem fresh_not_mem (h : r.Sound) : r.fresh ∉ r.reachedNumbers ∧ r.fresh ∉ r.overrun :=
  ⟨fun hk => Nat.lt_irrefl _ (h.known _ (Or.inl hk)),
    fun hk => Nat.lt_irrefl _ (h.known _ (Or.inr hk))⟩

theorem add (h : r.Sound) (x : α) : (r.add x).Sound := by
  constructor
  case distinct =>
    show ((r.slots ++ [_]).map _).Nodup
    rw [List.map_append, List.nodup_append]
    refine ⟨h.distinct, List.nodup_singleton _, fun k hk k' hk' => ?_⟩
    obtain ⟨slot, hslot, rfl⟩ := List.mem_map.mp hk
    rw [List.mem_singleton.mp hk']
    exact Nat.ne_of_lt (h.used slot hslot)
  case used =>
    intro slot hslot
    rcases List.mem_append.mp hslot with hslot | hslot
    · exact Nat.lt_succ_of_lt (h.used slot hslot)
    · rw [List.mem_singleton.mp hslot]
      exact Nat.lt_succ_self _
  case passed =>
    intro i k y hi hslot
    rw [mem_overrun_add]
    rcases getElem?_add_cases hslot with ⟨hold, -⟩ | ⟨rfl, hnew⟩
    · have hpassed := h.passed i k y hi hold
      have hne : k ≠ r.fresh := Nat.ne_of_lt (h.used _ (List.mem_of_getElem? hold))
      simp only [hne, and_false, or_false]
      exact hpassed
    · cases hnew
      have hreached : r.fresh ∉ (r.add x).reachedNumbers := h.fresh_not_mem.1
      have hlate : r.slots.length < r.next := hi
      simp [hreached, hlate]
  case ahead =>
    intro i slot hi hslot
    have hnext : r.next ≤ i := hi
    rw [mem_overrun_add]
    rcases getElem?_add_cases hslot with ⟨hold, hlength⟩ | ⟨rfl, rfl⟩
    · obtain ⟨hreached, hrun⟩ := h.ahead i slot hi hold
      exact ⟨hreached, fun hk => hk.elim hrun fun hlate => by omega⟩
    · obtain ⟨hreached, hrun⟩ := h.fresh_not_mem
      exact ⟨hreached, fun hk => hk.elim hrun fun hlate => by omega⟩
  case once => exact h.once
  case known =>
    intro k hk
    rw [mem_overrun_add] at hk
    show k < r.fresh + 1
    rcases hk with hk | hk | ⟨-, rfl⟩
    · exact Nat.lt_succ_of_lt (h.known k (Or.inl hk))
    · exact Nat.lt_succ_of_lt (h.known k (Or.inr hk))
    · exact Nat.lt_succ_self _
  case account =>
    have haccount := h.account
    show (if _ then _ else _ : List Nat).length + (r.next - (r.slots ++ [_]).length) = r.lost
    rw [List.length_append, List.length_singleton]
    split
    · rw [List.length_append, List.length_singleton]
      omega
    · omega

/-- After a removal every slot is where it was or one position further up. -/
theorem getElem?_eraseIdx_cases {slots : List (Registration α)} {i j : Nat}
    {slot : Registration α} (h : (slots.eraseIdx i)[j]? = some slot) :
    j < i ∧ slots[j]? = some slot ∨ i ≤ j ∧ slots[j + 1]? = some slot := by
  rw [List.getElem?_eraseIdx] at h
  split at h
  · rename_i hj
    exact Or.inl ⟨hj, h⟩
  · rename_i hj
    exact Or.inr ⟨Nat.not_lt.mp hj, h⟩

theorem distinct_eraseIdx (h : r.Sound) (i : Nat) :
    ((r.slots.eraseIdx i).map (·.number)).Nodup :=
  h.distinct.sublist ((List.eraseIdx_sublist _ i).map _)

theorem dropPassed (h : r.Sound) {first : Nat} (hlength : first < r.slots.length)
    (hpassed : first < r.next) : (r.dropPassed first).Sound := by
  constructor
  case distinct => exact h.distinct_eraseIdx first
  case used => exact fun slot hslot => h.used slot (List.mem_of_mem_eraseIdx hslot)
  case passed =>
    intro i k y hi hslot
    have hnext : i < r.next := hi
    rw [mem_overrun_dropPassed]
    -- the slot that came to stand right behind the position is the one that was overrun
    by_cases hlast : first ≤ i ∧ i + 1 = r.next
    · have hslot : r.slots[r.next]? = some ⟨k, some y⟩ := by
        rw [← hlast.2, ← List.getElem?_eraseIdx_of_ge hlast.1]
        exact hslot
      have hahead := h.ahead r.next _ (Nat.le_refl _) hslot
      constructor
      · intro hk
        exact absurd hk hahead.1
      · intro hk
        exact absurd (Or.inr ⟨_, hslot, rfl⟩) hk
    · have hold : ∃ j < r.next, r.slots[j]? = some ⟨k, some y⟩ := by
        rcases getElem?_eraseIdx_cases hslot with ⟨-, hold⟩ | ⟨hge, hold⟩
        · exact ⟨i, hi, hold⟩
        · exact ⟨i + 1, by omega, hold⟩
      obtain ⟨j, hj, hold⟩ := hold
      have hother : ¬∃ slot, r.slots[r.next]? = some slot ∧ slot.number = k := by
        rintro ⟨slot, hnext, hk⟩
        exact absurd (h.index_eq hold hnext hk.symm) (Nat.ne_of_lt hj)
      rw [or_iff_left hother]
      exact h.passed j k y hj hold
  case ahead =>
    intro i slot hi hslot
    have hnext : r.next ≤ i := hi
    have hold : r.slots[i + 1]? = some slot := by
      rcases getElem?_eraseIdx_cases hslot with ⟨hlt, -⟩ | ⟨-, hold⟩
      · omega
      · exact hold
    obtain ⟨hreached, hrun⟩ := h.ahead (i + 1) slot (by omega) hold
    refine ⟨hreached, fun hk => ?_⟩
    rcases mem_overrun_dropPassed.mp hk with hk | ⟨other, hother, hk⟩
    · exact hrun hk
    · have hsame := h.index_eq hother hold hk
      omega
  case once => exact h.once
  case known =>
    intro k hk
    rw [mem_overrun_dropPassed] at hk
    rcases hk with hk | hk | ⟨slot, hslot, rfl⟩
    · exact h.known k (Or.inl hk)
    · exact h.known k (Or.inr hk)
    · exact h.used slot (List.mem_of_getElem? hslot)
  case account =>
    have haccount := h.account
    show (r.overrun ++ _).length + (r.next - (r.slots.eraseIdx first).length) = r.lost + 1
    rw [List.length_append, List.length_eraseIdx_of_lt hlength]
    by_cases hend : r.next < r.slots.length
    · rw [List.getElem?_eq_getElem hend]
      show r.overrun.length + 1 + _ = _
      omega
    · rw [List.getElem?_eq_none (Nat.not_lt.mp hend)]
      show r.overrun.length + 0 + _ = _
      omega

theorem dropAhead (h : r.Sound) {first : Nat} (hlength : first < r.slots.length)
    (hahead : r.next ≤ first) : (r.dropAhead first).Sound := by
  constructor
  case distinct => exact h.distinct_eraseIdx first
  case used => exact fun slot hslot => h.used slot (List.mem_of_mem_eraseIdx hslot)
  case passed =>
    intro i k y hi hslot
    have hnext : i < r.next := hi
    rcases getElem?_eraseIdx_cases hslot with ⟨-, hold⟩ | ⟨hge, -⟩
    · exact h.passed i k y hi hold
    · omega
  case ahead =>
    intro i slot hi hslot
    have hnext : r.next ≤ i := hi
    rcases getElem?_eraseIdx_cases hslot with ⟨-, hold⟩ | ⟨-, hold⟩
    · exact h.ahead i slot hi hold
    · exact h.ahead (i + 1) slot (by omega) hold
  case once => exact h.once
  case known => exact h.known
  case account =>
    have haccount := h.account
    show r.overrun.length + (r.next - (r.slots.eraseIdx first).length) = r.lost
    rw [List.length_eraseIdx_of_lt hlength]
    omega

theorem remove [DecidableEq α] (h : r.Sound) (x : α) : (r.remove x).Sound := by
  unfold Round.remove
  dsimp only
  split
  · rename_i hlength
    split
    · rename_i hpassed
      exact h.dropPassed hlength hpassed
    · rename_i hahead
      exact h.dropAhead hlength (Nat.not_lt.mp hahead)
  · exact h

theorem visit_some (h : r.Sound) {x : α} {i : Nat}
    (hfound : nextOccupied r.globals r.next = some (x, i)) : r.visit.Sound := by
  obtain ⟨k, hslot, hle, hbetween, hvisit⟩ := visit_of_nextOccupied hfound
  rw [hvisit]
  have hnew := h.ahead i _ hle hslot
  have hreached (n : Nat) : n ∈ (r.reached ++ [(k, x)]).map Prod.fst ↔
      n ∈ r.reachedNumbers ∨ n = k := by
    rw [List.map_append, List.mem_append]
    exact or_congr_right List.mem_singleton
  constructor
  case distinct => exact h.distinct
  case used => exact h.used
  case passed =>
    intro j n y hj hother
    have hj : j < i + 1 := hj
    rw [reachedNumbers]
    show n ∈ (r.reached ++ [(k, x)]).map Prod.fst ↔ n ∉ r.overrun
    rw [hreached]
    by_cases hhere : j = i
    · subst hhere
      rw [hslot] at hother
      cases hother
      simp [hnew.2]
    · have hne : n ≠ k := fun hk => hhere (h.index_eq hother hslot hk)
      rw [or_iff_left hne]
      by_cases hpassed : j < r.next
      · exact h.passed j n y hpassed hother
      · exact absurd hother (hbetween j (by omega) (by omega) n y)
  case ahead =>
    intro j slot hj hother
    have hj : i + 1 ≤ j := hj
    obtain ⟨hold, hrun⟩ := h.ahead j slot (by omega) hother
    refine ⟨fun hk => ?_, hrun⟩
    rcases (hreached _).mp hk with hk | hk
    · exact hold hk
    · have hsame := h.index_eq hother hslot hk
      omega
  case once =>
    show ((r.reached ++ [(k, x)]).map Prod.fst).Nodup
    rw [List.map_append, List.nodup_append]
    refine ⟨h.once, List.nodup_singleton _, fun n hn n' hn' => ?_⟩
    rw [List.mem_singleton.mp hn']
    rintro rfl
    exact hnew.1 hn
  case known =>
    intro n hn
    rcases hn with hn | hn
    · rcases (hreached n).mp hn with hn | rfl
      · exact h.known n (Or.inl hn)
      · exact h.used _ (List.mem_of_getElem? hslot)
    · exact h.known n (Or.inr hn)
  case account =>
    have haccount := h.account
    have hlength := (List.getElem?_eq_some_iff.mp hslot).1
    show r.overrun.length + (i + 1 - r.slots.length) = r.lost
    omega

theorem visit (h : r.Sound) : r.visit.Sound := by
  cases hfound : nextOccupied r.globals r.next with
  | none =>
      rw [Round.visit, hfound]
      exact h
  | some found => exact h.visit_some hfound

/-- When no member is left ahead, each registration that is still there was reached exactly once, unless
it was overrun. -/
theorem count_reached (h : r.Sound) (hend : nextOccupied r.globals r.next = none) {k : Nat} {x : α}
    (hslot : ⟨k, some x⟩ ∈ r.slots) :
    r.reachedNumbers.count k = if k ∈ r.overrun then 0 else 1 := by
  obtain ⟨i, hi⟩ := List.mem_iff_getElem?.mp hslot
  have hpassed : i < r.next := by
    by_contra hahead
    apply (nextOccupied_eq_none_iff _ _).mp hend i x (Nat.not_lt.mp hahead)
    rw [globals, List.getElem?_map, hi]
    rfl
  have hiff := h.passed i k x hpassed hi
  by_cases hrun : k ∈ r.overrun
  · rw [if_pos hrun]
    exact List.count_eq_zero.mpr fun hk => hiff.mp hk hrun
  · rw [if_neg hrun]
    exact List.count_eq_one_of_mem h.once (hiff.mpr hrun)

/-- There are no more visits than registrations. -/
theorem length_reached_le (h : r.Sound) : r.reached.length ≤ r.fresh := by
  have hsub : r.reachedNumbers.Subperm (List.range r.fresh) :=
    List.subperm_of_subset h.once fun k hk => List.mem_range.mpr (h.known k (Or.inl hk))
  have hlength := hsub.length_le
  rwa [reachedNumbers, List.length_map, List.length_range] at hlength

end Sound

end Round

end ExtensibleCheck
