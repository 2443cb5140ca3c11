import ExtensibleCheck.Proofs.Registry.Cursor
import Mathlib.Data.List.Basic

/-! A registry with one more global member. A traversal of it comes to the same members as one of the
registry without it, in the same order, and to the new one on the way: while both are before it they stand
at the same place, and beyond it they are one place apart. -/

namespace ExtensibleCheck

variable {α κ : Type}

/-- Where no slot is vacant, the next member is the one at the position. -/
theorem nextOccupied_map_some (members : List α) (start : Nat) :
    nextOccupied (members.map some) start = members[start]?.map fun x => (x, start) := by
  cases h : members[start]? with
  | none =>
      refine (nextOccupied_eq_none_iff _ _).mpr fun i x hi hx => ?_
      have hshort := List.getElem?_eq_none_iff.mp h
      have hlength := (List.getElem?_eq_some_iff.mp hx).1
      rw [List.length_map] at hlength
      omega
  | some x =>
      refine (nextOccupied_eq_some_iff _ _ _ _).mpr ⟨Nat.le_refl _, ?_, fun j hj hjs => ?_⟩
      · rw [List.getElem?_map, h]
        rfl
      · omega

namespace Registry

/-- The second registry is the first one with a member `x` inserted after the members `front`. -/
structure GainsAt (x : α) (front : List α) (scopes : List κ) (r r' : Registry α κ) : Prop where
  within : r.scopes = scopes
  within' : r'.scopes = scopes
  globals : ∃ back, r.globals = (front ++ back).map some ∧ r'.globals = (front ++ x :: back).map some

/-- The second registry is the first one with a member inserted. -/
def Gains (x : α) (r r' : Registry α κ) : Prop := ∃ front, GainsAt x front r.scopes r r'

variable {x : α} {front : List α} {scopes : List κ} {r r' : Registry α κ}

theorem GainsAt.gains (h : GainsAt x front scopes r r') : Gains x r r' :=
  ⟨front, rfl, h.within'.trans h.within.symm, h.globals⟩

theorem GainsAt.addGlobal (h : GainsAt x front scopes r r') (y : α) :
    GainsAt x front scopes (r.addGlobal (some y)) (r'.addGlobal (some y)) := by
  obtain ⟨hscopes, hscopes', back, hglobals, hglobals'⟩ := h
  refine ⟨hscopes, hscopes', back ++ [y], ?_, ?_⟩
  · rw [Registry.addGlobal, hglobals]
    simp
  · rw [Registry.addGlobal, hglobals']
    simp

theorem Gains.scopes_eq (h : Gains x r r') : r.scopes = r'.scopes := by
  obtain ⟨front, h⟩ := h
  exact h.within'.symm

theorem Gains.addGlobal (h : Gains x r r') (y : α) :
    Gains x (r.addGlobal (some y)) (r'.addGlobal (some y)) := by
  obtain ⟨front, h⟩ := h
  exact (h.addGlobal y).gains

theorem Gains.withScopes (h : Gains x r r') (scopes : List κ) :
    Gains x { r with scopes } { r' with scopes } := by
  obtain ⟨front, h⟩ := h
  exact ⟨front, rfl, rfl, h.globals⟩

theorem Gains.view_eq (h : Gains x r r') (read : κ → List (Option α)) :
    ∃ front back, r.view read = front ++ back ∧ r'.view read = front ++ x :: back := by
  obtain ⟨front, -, hscopes, back, hglobals, hglobals'⟩ := h
  refine ⟨front, back ++ ((r.scopes.head?.map read).getD []).filterMap id, ?_, ?_⟩
  · rw [view, hglobals]
    simp
  · rw [view, hglobals', hscopes]
    simp

/-- A member that is appended is inserted. -/
theorem gains_addGlobal {members : List α} (h : r.globals = members.map some) (x : α) :
    Gains x r (r.addGlobal (some x)) := by
  refine ⟨members, rfl, rfl, [], ?_, ?_⟩
  · rw [h, List.append_nil]
  · rw [Registry.addGlobal, h]
    simp

/-- Whoever else is removed, the member stays inserted. -/
theorem Gains.removeGlobal [DecidableEq α] (h : Gains x r r') {y : α} (hy : y ≠ x) :
    Gains x (r.removeGlobal (some y)) (r'.removeGlobal (some y)) := by
  have herase (members : List α) : (members.map some).erase (some y) = (members.erase y).map some :=
    (List.map_erase (fun _ _ => Option.some.inj) members).symm
  obtain ⟨front, hscopes, hscopes', back, hglobals, hglobals'⟩ := h
  by_cases hfront : y ∈ front
  · refine ⟨front.erase y, rfl, hscopes', back, ?_, ?_⟩
    · rw [Registry.removeGlobal, hglobals, herase, List.erase_append_left _ hfront]
    · rw [Registry.removeGlobal, hglobals', herase, List.erase_append_left _ hfront]
  · refine ⟨front, rfl, hscopes', back.erase y, ?_, ?_⟩
    · rw [Registry.removeGlobal, hglobals, herase, List.erase_append_right _ hfront]
    · rw [Registry.removeGlobal, hglobals', herase, List.erase_append_right _ hfront,
        List.erase_cons_tail (by simpa using hy.symm)]

end Registry

namespace Cursor

/-- The cursor after it has been opened, which by itself comes to nobody. -/
def opened (scope : Option κ) : Cursor κ → Cursor κ
  | unopened => inGlobals 0 scope
  | cursor => cursor

theorem advance_opened (read : κ → List (Option α)) (r : Registry α κ) (cursor : Cursor κ) :
    (cursor.opened r.scopes.head?).advance read r = cursor.advance read r := by
  cases cursor <;> rfl

/-- Where the traversals of two registries stand of which the second has one more member, at position
`place`, and whether that member is still ahead. -/
inductive Level (place : Nat) : Bool → Cursor κ → Cursor κ → Prop
  | before {next scope} : next ≤ place → Level place true (inGlobals next scope) (inGlobals next scope)
  | beyond {next scope} : place ≤ next →
      Level place false (inGlobals next scope) (inGlobals (next + 1) scope)
  | inScope {next scope} : Level place false (inScope next scope) (inScope next scope)
  | finished : Level place false finished finished

variable {read : κ → List (Option α)} {x : α} {front : List α} {scopes : List κ}
  {r r' : Registry α κ} {ahead : Bool} {cursor cursor' : Cursor κ}

/-- Both traversals have been opened. -/
theorem Level.opened {place : Nat} (h : Level place ahead cursor cursor') (scope : Option κ) :
    cursor.opened scope = cursor ∧ cursor'.opened scope = cursor' := by
  cases h <;> exact ⟨rfl, rfl⟩

/-- Either the second traversal comes to the member that was inserted, or both come to the same. -/
theorem Level.advance (read : κ → List (Option α))
    (hlevel : Level front.length ahead cursor cursor') (h : r.GainsAt x front scopes r') :
    (ahead = true ∧ ∃ next', cursor'.advance read r' = (some x, next') ∧
        Level front.length false cursor next') ∨
      (cursor.advance read r).1 = (cursor'.advance read r').1 ∧
        Level front.length ahead (cursor.advance read r).2 (cursor'.advance read r').2 := by
  obtain ⟨-, -, back, hglobals, hglobals'⟩ := h
  have hscope (next : Nat) (scope : κ) :
      Level front.length false (stepScope read next scope).2 (stepScope read next scope).2 := by
    unfold stepScope
    cases nextOccupied (read scope) next with
    | none => exact .finished
    | some found => exact .inScope
  cases hlevel with
  | @before next scope hle =>
      rcases Nat.lt_or_eq_of_le hle with hlt | rfl
      · have hsome (rest : List α) :
            nextOccupied ((front ++ rest).map some) next = some (front[next], next) := by
          rw [nextOccupied_map_some, List.getElem?_append_left hlt, List.getElem?_eq_getElem hlt]
          rfl
        rw [Cursor.advance, Cursor.advance, hglobals, hglobals', stepGlobals_of_some (hsome _),
          stepGlobals_of_some (hsome _)]
        exact .inr ⟨rfl, .before hlt⟩
      · have hsome : nextOccupied ((front ++ x :: back).map some) front.length =
            some (x, front.length) := by
          rw [nextOccupied_map_some]
          simp
        refine .inl ⟨rfl, .inGlobals (front.length + 1) scope, ?_, .beyond (Nat.le_refl _)⟩
        rw [Cursor.advance, hglobals', stepGlobals_of_some hsome]
  | @beyond next scope hle =>
      right
      have hback : (front ++ back)[next]? = back[next - front.length]? :=
        List.getElem?_append_right hle
      have hback' : (front ++ x :: back)[next + 1]? = back[next - front.length]? := by
        rw [List.getElem?_append_right (by omega), Nat.sub_add_comm hle, List.getElem?_cons_succ]
      have hnext : nextOccupied ((front ++ back).map some) next =
          back[next - front.length]?.map fun y => (y, next) := by
        rw [nextOccupied_map_some, hback]
      have hnext' : nextOccupied ((front ++ x :: back).map some) (next + 1) =
          back[next - front.length]?.map fun y => (y, next + 1) := by
        rw [nextOccupied_map_some, hback']
      rw [Cursor.advance, Cursor.advance, hglobals, hglobals']
      cases hy : back[next - front.length]? with
      | some y =>
          rw [hy] at hnext hnext'
          rw [stepGlobals_of_some hnext, stepGlobals_of_some hnext']
          exact ⟨rfl, .beyond (by omega)⟩
      | none =>
          rw [hy] at hnext hnext'
          rw [stepGlobals_of_none hnext, stepGlobals_of_none hnext']
          cases scope with
          | none => exact ⟨rfl, .finished⟩
          | some scope => exact ⟨rfl, hscope 0 scope⟩
  | @inScope next scope => exact .inr ⟨rfl, hscope next scope⟩
  | finished => exact .inr ⟨rfl, .finished⟩

end Cursor

end ExtensibleCheck
