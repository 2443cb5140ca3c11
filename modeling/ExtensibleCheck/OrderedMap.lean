/-! Finite maps that remember the order in which their keys came in. Storing under a key again
replaces the value and keeps the key's place. -/

namespace ExtensibleCheck

structure OrderedMap (κ α : Type) where
  entries : List (κ × α) := []

namespace OrderedMap

variable {κ α : Type}

instance : EmptyCollection (OrderedMap κ α) := ⟨{}⟩

instance : Inhabited (OrderedMap κ α) := ⟨∅⟩

def keys (m : OrderedMap κ α) : List κ := m.entries.map (·.1)

variable [DecidableEq κ]

/-- The entries after `value` is stored under `key`. -/
def put (key : κ) (value : α) : List (κ × α) → List (κ × α)
  | [] => [(key, value)]
  | entry :: rest => if entry.1 = key then (key, value) :: rest else entry :: put key value rest

def insert (m : OrderedMap κ α) (key : κ) (value : α) : OrderedMap κ α := ⟨put key value m.entries⟩

def get? (m : OrderedMap κ α) (key : κ) : Option α :=
  (m.entries.find? (·.1 = key)).map (·.2)

def contains (m : OrderedMap κ α) (key : κ) : Bool := (m.get? key).isSome

def getD (m : OrderedMap κ α) (key : κ) (default : α) : α := (m.get? key).getD default

/-- Stores every pair in turn, so that of two pairs with one key the later counts. -/
def insertAll (m : OrderedMap κ α) (pairs : List (κ × α)) : OrderedMap κ α :=
  pairs.foldl (fun m pair => m.insert pair.1 pair.2) m

def ofList (pairs : List (κ × α)) : OrderedMap κ α := insertAll ∅ pairs

@[simp] theorem get?_empty (key : κ) : (∅ : OrderedMap κ α).get? key = none := rfl

theorem find?_put (key key' : κ) (value : α) (entries : List (κ × α)) :
    ((put key value entries).find? (·.1 = key')).map (·.2)
      = if key = key' then some value else (entries.find? (·.1 = key')).map (·.2) := by
  induction entries with
  | nil => by_cases h : key = key' <;> simp [put, h]
  | cons entry rest ih =>
    by_cases he : entry.1 = key
    · by_cases h : key = key' <;> simp [put, he, h]
    · rw [put, if_neg he]
      by_cases h : entry.1 = key'
      · have hk : key ≠ key' := fun hk => he (h.trans hk.symm)
        simp [h, hk]
      · simpa [h] using ih

/-- Where a key is not among the first entries, it concerns only those after them. -/
theorem put_append {key : κ} {before : List (κ × α)} (h : key ∉ before.map (·.1)) (value : α)
    (entries : List (κ × α)) : put key value (before ++ entries) = before ++ put key value entries := by
  induction before with
  | nil => rfl
  | cons entry before ih =>
    rw [List.map_cons, List.mem_cons, not_or] at h
    have hne : entry.1 ≠ key := fun hsame => h.1 hsame.symm
    rw [List.cons_append, put, if_neg hne, ih h.2, List.cons_append]

theorem find?_append_of_notMem {key : κ} {before : List (κ × α)} (h : key ∉ before.map (·.1))
    (entries : List (κ × α)) :
    (before ++ entries).find? (·.1 = key) = entries.find? (·.1 = key) := by
  have hnone : before.find? (·.1 = key) = none := by
    rw [List.find?_eq_none]
    intro entry hentry hkey
    exact h (List.mem_map.mpr ⟨entry, hentry, of_decide_eq_true hkey⟩)
  rw [List.find?_append, hnone, Option.none_or]

theorem get?_insert (m : OrderedMap κ α) (key key' : κ) (value : α) :
    (m.insert key value).get? key' = if key = key' then some value else m.get? key' :=
  find?_put key key' value m.entries

@[simp] theorem get?_insert_self (m : OrderedMap κ α) (key : κ) (value : α) :
    (m.insert key value).get? key = some value := by
  simp [get?_insert]

theorem get?_insert_of_ne (m : OrderedMap κ α) {key key' : κ} (value : α) (h : key ≠ key') :
    (m.insert key value).get? key' = m.get? key' := by
  simp [get?_insert, h]

/-- A key that is new comes last; one that is known keeps its place. -/
theorem keys_put (key : κ) (value : α) (entries : List (κ × α)) :
    (put key value entries).map (·.1)
      = if key ∈ entries.map (·.1) then entries.map (·.1) else entries.map (·.1) ++ [key] := by
  induction entries with
  | nil => simp [put]
  | cons entry rest ih =>
    by_cases he : entry.1 = key
    · simp [put, he]
    · have hne : key ≠ entry.1 := fun h => he h.symm
      by_cases hr : key ∈ rest.map (·.1) <;> simp_all [put]

theorem keys_insert (m : OrderedMap κ α) (key : κ) (value : α) :
    (m.insert key value).keys = if key ∈ m.keys then m.keys else m.keys ++ [key] :=
  keys_put key value m.entries

end OrderedMap

end ExtensibleCheck
