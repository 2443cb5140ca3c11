import ExtensibleCheck.Proofs.Registry.Round

/-! Slots with marks. Global slots are told from each other by the number of their registration, which
stays with them while they move up, and the slots of a scope by their place. Marks have an order, and
what is still ahead of a cursor in this order can only become less, except by registrations that are
new. -/

namespace ExtensibleCheck

/-- The global slots of a registry with the numbers of their registrations. -/
structure Ledger (α : Type) where
  entries : List (Registration α)
  /-- The number for the next registration. -/
  fresh : Nat

namespace Ledger

variable {α : Type}

def start (globals : List (Option α)) : Ledger α where
  entries := globals.zipIdx.map fun (slot, number) => ⟨number, slot⟩
  fresh := globals.length

def add (l : Ledger α) (slot : Option α) : Ledger α where
  entries := l.entries ++ [⟨l.fresh, slot⟩]
  fresh := l.fresh + 1

/-- Removes the first entry whose slot holds the same, if there is one. -/
def remove [DecidableEq α] (l : Ledger α) (slot : Option α) : Ledger α :=
  { l with entries := l.entries.eraseP fun e => slot == e.slot }

/-- The slots as the registry has them. -/
def globals (l : Ledger α) : List (Option α) := l.entries.map (·.slot)

theorem globals_start (globals : List (Option α)) : (start globals).globals = globals :=
  Round.globals_start globals

theorem globals_add (l : Ledger α) (slot : Option α) :
    (l.add slot).globals = l.globals ++ [slot] := List.map_append

theorem globals_remove [DecidableEq α] (l : Ledger α) (slot : Option α) :
    (l.remove slot).globals = l.globals.erase slot := by
  rw [globals, globals, List.erase_eq_eraseP, List.eraseP_map]
  rfl

/-- The entries stand in the order of their registration. -/
structure Ordered (l : Ledger α) : Prop where
  increasing : l.entries.Pairwise (·.number < ·.number)
  used : ∀ e ∈ l.entries, e.number < l.fresh

theorem ordered_start (globals : List (Option α)) : (start globals).Ordered := by
  have hnumbers : (start globals).entries.map (·.number) = List.range' 0 globals.length := by
    show ((globals.zipIdx.map _).map _) = _
    rw [List.map_map]
    exact List.zipIdx_map_snd 0 globals
  constructor
  · rw [← List.pairwise_map, hnumbers]
    exact List.pairwise_lt_range' ..
  · intro e he
    have hmem : e.number ∈ List.range' 0 globals.length := hnumbers ▸ List.mem_map_of_mem he
    have hlt := (List.mem_range'_1.mp hmem).2
    rwa [Nat.zero_add] at hlt

theorem Ordered.add {l : Ledger α} (h : l.Ordered) (slot : Option α) : (l.add slot).Ordered := by
  constructor
  · refine List.pairwise_append.mpr ⟨h.increasing, List.pairwise_singleton _ _, fun e he e' he' => ?_⟩
    rw [List.mem_singleton.mp he']
    exact h.used e he
  · intro e he
    rcases List.mem_append.mp he with he | he
    · exact Nat.lt_succ_of_lt (h.used e he)
    · rw [List.mem_singleton.mp he]
      exact Nat.lt_succ_self _

theorem Ordered.remove [DecidableEq α] {l : Ledger α} (h : l.Ordered) (slot : Option α) :
    (l.remove slot).Ordered :=
  ⟨h.increasing.sublist (List.eraseP_sublist ..), fun e he => h.used e (List.mem_of_mem_eraseP he)⟩

end Ledger

/-- What tells the slots that a traversal comes to from each other: the number of a registration, or the
place in the scope. -/
inductive Mark where
  | registration (number : Nat)
  | place (index : Nat)
  deriving DecidableEq

/-- Registrations come before places, and both in their own order. -/
def Mark.Before : Mark → Mark → Prop
  | registration number, registration number' => number < number'
  | registration _, place _ => True
  | place _, registration _ => False
  | place index, place index' => index < index'

namespace Ledger

variable {α κ : Type}

/-- Whether a traversal may still come to a mark. Registrations to come are always ahead of it while it
goes through the global slots. -/
def Ahead (l : Ledger α) : Cursor κ → Mark → Prop
  | .unopened, _ | .inGlobals _ _, .place _ => True
  | .inGlobals next _, .registration number =>
    l.fresh ≤ number ∨ ∃ e ∈ l.entries.drop next, e.number = number
  | .inScope next _, .place index => next ≤ index
  | .inScope _ _, .registration _ | .finished, _ => False

/-- A new registration was ahead before. -/
theorem ahead_of_add {l : Ledger α} {slot : Option α} {cursor : Cursor κ} {mark : Mark}
    (h : (l.add slot).Ahead cursor mark) : l.Ahead cursor mark := by
  cases cursor with
  | inGlobals next scope =>
      cases mark with
      | registration number =>
          rcases h with h | ⟨e, he, rfl⟩
          · exact Or.inl (Nat.le_of_succ_le h)
          · rw [add, List.drop_append, List.mem_append] at he
            rcases he with he | he
            · exact Or.inr ⟨e, he, rfl⟩
            · rw [List.mem_singleton.mp (List.mem_of_mem_drop he)]
              exact Or.inl (Nat.le_refl _)
      | place => exact h
  | inScope => cases mark <;> exact h
  | unopened | finished => exact h

theorem ahead_of_remove [DecidableEq α] {l : Ledger α} {slot : Option α} {cursor : Cursor κ}
    {mark : Mark} (h : (l.remove slot).Ahead cursor mark) : l.Ahead cursor mark := by
  cases cursor with
  | inGlobals next scope =>
      cases mark with
      | registration number =>
          rcases h with h | ⟨e, he, rfl⟩
          · exact Or.inl h
          · have hsublist := (List.eraseP_sublist (p := fun e => slot == e.slot) (l := l.entries)).drop next
            exact Or.inr ⟨e, hsublist.subset he, rfl⟩
      | place => exact h
  | inScope => cases mark <;> exact h
  | unopened | finished => exact h

end Ledger

end ExtensibleCheck
