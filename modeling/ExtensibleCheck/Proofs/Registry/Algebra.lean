import ExtensibleCheck.Proofs.Registry.Chronicle
import Mathlib.Data.List.Infix

/-! How the changes to a registry add up. Additions and removals get in each other's way only where they
are about the same and it is not there; how often something is registered follows from the additions and
removals of it alone; and whoever closes all scopes that he opens leaves the older ones as they were. -/

namespace ExtensibleCheck

namespace Registry

variable {α κ : Type} [DecidableEq α] {r : Registry α κ} {x y : Option α}

/-- The first slot of the kind goes, and the others stay in their order. -/
theorem removeGlobal_of_mem (h : x ∈ r.globals) : ∃ front back, x ∉ front ∧
    r.globals = front ++ x :: back ∧ r.removeGlobal x = { r with globals := front ++ back } := by
  obtain ⟨front, back, hfront, hglobals, herase⟩ := List.exists_erase_eq h
  exact ⟨front, back, hfront, hglobals, by rw [removeGlobal, herase]⟩

theorem removeGlobal_of_notMem (h : x ∉ r.globals) : r.removeGlobal x = r := by
  rw [removeGlobal, List.erase_of_not_mem h]

theorem removeGlobal_comm (r : Registry α κ) (x y : Option α) :
    (r.removeGlobal x).removeGlobal y = (r.removeGlobal y).removeGlobal x := by
  simp only [removeGlobal, List.erase_comm x y]

/-- A removal comes to the same before and after an addition, except of what is added here for the first
time. -/
theorem removeGlobal_addGlobal_iff :
    (r.addGlobal x).removeGlobal y = (r.removeGlobal y).addGlobal x ↔ x ≠ y ∨ x ∈ r.globals := by
  have hglobals : (r.addGlobal x).removeGlobal y = (r.removeGlobal y).addGlobal x ↔
      (r.globals ++ [x]).erase y = r.globals.erase y ++ [x] := by
    simp [addGlobal, removeGlobal]
  rw [hglobals, List.erase_append]
  by_cases hy : y ∈ r.globals
  · rw [if_pos hy]
    refine iff_of_true rfl ?_
    by_cases hxy : x = y
    · exact Or.inr (hxy ▸ hy)
    · exact Or.inl hxy
  · rw [if_neg hy, List.erase_of_not_mem hy, List.append_cancel_left_eq]
    by_cases hxy : x = y
    · subst hxy
      simp [hy]
    · simp [hxy]

theorem removeGlobal_addGlobal_self (h : x ∉ r.globals) : (r.addGlobal x).removeGlobal x = r := by
  rw [removeGlobal, addGlobal, List.erase_append_right _ h, List.erase_cons_head, List.append_nil]

end Registry

namespace Workspace

variable {α : Type}

namespace Step

/-- Whether the step opens a scope. -/
def isPush : Step α → Bool
  | push _ => true
  | _ => false

/-- Whether the step closes a scope. -/
def isPop : Step α → Bool
  | pop => true
  | _ => false

/-- How often something is registered after a step, if it was registered so many times before it. -/
def recount [DecidableEq α] (x : Option α) (n : Nat) : Step α → Nat
  | add slot => if slot = x then n + 1 else n
  | remove slot => if slot = x then n - 1 else n
  | _ => n

end Step

/-- All scopes that are opened are closed, and up to no step more are closed than were opened. -/
def Balanced (steps : List (Step α)) : Prop :=
  steps.countP Step.isPop = steps.countP Step.isPush ∧
    ∀ front, front <+: steps → front.countP Step.isPop ≤ front.countP Step.isPush

instance (steps : List (Step α)) : Decidable (Balanced steps) :=
  decidable_of_iff (steps.countP Step.isPop = steps.countP Step.isPush ∧
    ∀ front ∈ steps.inits, front.countP Step.isPop ≤ front.countP Step.isPush) (by
      simp only [Balanced, List.mem_inits])

variable [DecidableEq α] {w : Workspace α} {steps : List (Step α)}

theorem globals_after (step : Step α) : (w.after step).registry.globals =
    match step with
    | .add slot => w.registry.globals ++ [slot]
    | .remove slot => w.registry.globals.erase slot
    | _ => w.registry.globals := by
  cases step with
  | pop =>
      rw [after, step, Registry.popLocal]
      cases w.registry.scopes <;> rfl
  | _ => rfl

theorem scopes_after (step : Step α) : (w.after step).registry.scopes =
    match step with
    | .push scope => scope :: w.registry.scopes
    | .pop => w.registry.scopes.tail
    | _ => w.registry.scopes := by
  cases step with
  | pop =>
      rw [after, step, Registry.popLocal]
      cases hscopes : w.registry.scopes with
      | nil => exact hscopes
      | cons scope outer => rfl
  | _ => rfl

theorem count_globals_after (step : Step α) (x : Option α) :
    (w.after step).registry.globals.count x = step.recount x (w.registry.globals.count x) := by
  rw [globals_after]
  cases step with
  | add slot =>
      rw [List.count_append, List.count_singleton, Step.recount]
      by_cases h : slot = x <;> simp [h]
  | remove slot =>
      rw [List.count_erase, Step.recount]
      by_cases h : slot = x <;> simp [h]
  | _ => rfl

theorem count_globals_afterAll (steps : List (Step α)) (x : Option α) :
    (w.afterAll steps).registry.globals.count x =
      steps.foldl (Step.recount x) (w.registry.globals.count x) := by
  induction steps generalizing w with
  | nil => rfl
  | cons step steps ih =>
      rw [List.foldl_cons, ← count_globals_after]
      exact ih

/-- A step that closes none of the outer scopes leaves them at the bottom of the stack. -/
theorem exists_scopes_after {step : Step α} {inner outer : List (ScopeList α)}
    (h : w.registry.scopes = inner ++ outer)
    (hcloses : [step].countP Step.isPop ≤ inner.length + [step].countP Step.isPush) :
    ∃ inner', (w.after step).registry.scopes = inner' ++ outer ∧
      inner'.length + [step].countP Step.isPop = inner.length + [step].countP Step.isPush := by
  rw [scopes_after, h]
  cases step with
  | push scope => exact ⟨scope :: inner, rfl, rfl⟩
  | pop =>
      cases inner with
      | nil => exact absurd hcloses (Nat.not_succ_le_zero 0)
      | cons scope inner => exact ⟨inner, rfl, rfl⟩
  | _ => exact ⟨inner, rfl, rfl⟩

/-- Steps that close no more scopes than were opened above the outer ones leave these at the bottom of the
stack, and above them as many as are still to be closed. -/
theorem exists_scopes_afterAll {inner outer : List (ScopeList α)} (h : w.registry.scopes = inner ++ outer)
    (hcloses : ∀ front, front <+: steps →
      front.countP Step.isPop ≤ inner.length + front.countP Step.isPush) :
    ∃ inner', (w.afterAll steps).registry.scopes = inner' ++ outer ∧
      inner'.length + steps.countP Step.isPop = inner.length + steps.countP Step.isPush := by
  -- What is open above the outer scopes changes with every step, so the bound on the closings speaks of it.
  induction steps generalizing w inner with
  | nil => exact ⟨inner, h, rfl⟩
  | cons step steps ih =>
      obtain ⟨inner', hstep, hlength⟩ := exists_scopes_after h (hcloses [step] (List.prefix_append [step] steps))
      have hsplit (p : Step α → Bool) (front : List (Step α)) :
          (step :: front).countP p = [step].countP p + front.countP p := by
        rw [← List.countP_append, List.singleton_append]
      obtain ⟨inner'', hrest, hlength'⟩ := ih hstep fun front hfront => by
        have hfirst := hcloses (step :: front) (List.cons_prefix_cons.mpr ⟨rfl, hfront⟩)
        rw [hsplit _ front, hsplit _ front] at hfirst
        omega
      refine ⟨inner'', hrest, ?_⟩
      rw [hsplit _ steps, hsplit _ steps]
      omega

theorem scopes_afterAll_of_balanced (h : Balanced steps) :
    (w.afterAll steps).registry.scopes = w.registry.scopes := by
  have hopened : w.registry.scopes = [] ++ w.registry.scopes := (List.nil_append _).symm
  obtain ⟨inner, hscopes, hlength⟩ := exists_scopes_afterAll hopened fun front hfront => by
    rw [List.length_nil, Nat.zero_add]
    exact h.2 front hfront
  have hnone : inner.length = 0 := by
    have hbalance := h.1
    rw [List.length_nil] at hlength
    omega
  rw [hscopes, List.length_eq_zero_iff.mp hnone, List.nil_append]

/-- Nothing fails but closing a scope where there is none. -/
theorem step_eq_error_iff {step : Step α} {failure : Failure} :
    w.step step = .error failure ↔
      step = .pop ∧ w.registry.scopes = [] ∧ failure = .noActiveScope := by
  cases step with
  | pop =>
      rw [Workspace.step, Registry.popLocal]
      cases hscopes : w.registry.scopes with
      | nil =>
          constructor
          · rintro ⟨⟩
            exact ⟨rfl, rfl, rfl⟩
          · rintro ⟨-, -, rfl⟩
            rfl
      | cons scope outer =>
          refine iff_of_false ?_ fun h => List.cons_ne_nil _ _ h.2.1
          rintro ⟨⟩
  | _ =>
      refine iff_of_false ?_ ?_
      · rintro ⟨⟩
      · rintro ⟨⟨⟩, -⟩

/-- Whatever the registry holds, also several times or vacant. A removal takes away the first slot of the
kind and leaves the others in their order, and does nothing where there is none. Removals can change places
with each other, and a removal with an addition unless it is of the same that is not there yet; an addition
of such is undone by a removal. After any steps something is registered once more for each addition of it and
once less, but not less than never, for each removal of it. Only additions and removals change the global
slots, and only opening and closing scopes the scopes; if scopes are opened and closed in balance, the stack
is as it was. Only closing a scope where there is none fails, and it leaves everything as it was. -/
theorem steps_add_up (w : Workspace α) :
    (∀ x, (x ∉ w.registry.globals → w.after (.remove x) = w) ∧
      (x ∈ w.registry.globals → ∃ front back, x ∉ front ∧ w.registry.globals = front ++ x :: back ∧
        (w.after (.remove x)).registry.globals = front ++ back)) ∧
    (∀ x y, w.afterAll [.remove x, .remove y] = w.afterAll [.remove y, .remove x]) ∧
    (∀ x y, w.afterAll [.add x, .remove y] = w.afterAll [.remove y, .add x] ↔
      x ≠ y ∨ x ∈ w.registry.globals) ∧
    (∀ x, x ∉ w.registry.globals → w.afterAll [.add x, .remove x] = w) ∧
    (∀ steps x, (w.afterAll steps).registry.globals.count x =
      steps.foldl (Step.recount x) (w.registry.globals.count x)) ∧
    (∀ step : Step α,
      (step.isAddition ∨ step.isRemoval ∨ (w.after step).registry.globals = w.registry.globals) ∧
      (step.isPush ∨ step.isPop ∨ (w.after step).registry.scopes = w.registry.scopes)) ∧
    (∀ steps, Balanced steps → (w.afterAll steps).registry.scopes = w.registry.scopes) ∧
    ∀ step failure, w.step step = .error failure ↔
      step = .pop ∧ w.registry.scopes = [] ∧ failure = .noActiveScope ∧ w.after step = w := by
  have hchanged (r r' : Registry α (ScopeList α)) :
      ({ w with registry := r } : Workspace α) = { w with registry := r' } ↔ r = r' := by
    rw [mk.injEq]
    exact and_iff_left ⟨rfl, rfl⟩
  refine ⟨fun x => ⟨fun hx => ?_, fun hx => ?_⟩, fun x y => ?_, fun x y => ?_, fun x hx => ?_,
    fun steps x => count_globals_afterAll steps x, fun step => ⟨?_, ?_⟩,
    fun steps => scopes_afterAll_of_balanced, fun step failure => ?_⟩
  · exact (hchanged _ _).mpr (Registry.removeGlobal_of_notMem hx)
  · obtain ⟨front, back, hfront, hglobals, hremoved⟩ := Registry.removeGlobal_of_mem hx
    exact ⟨front, back, hfront, hglobals, congrArg (·.globals) hremoved⟩
  · exact (hchanged _ _).mpr (w.registry.removeGlobal_comm x y)
  · exact (hchanged _ _).trans Registry.removeGlobal_addGlobal_iff
  · exact (hchanged _ _).mpr (Registry.removeGlobal_addGlobal_self hx)
  · rw [globals_after]
    cases step <;> simp [Step.isAddition, Step.isRemoval]
  · rw [scopes_after]
    cases step <;> simp [Step.isPush, Step.isPop]
  · constructor
    · intro hfails
      have hafter : w.after step = w := by rw [after, hfails]
      obtain ⟨hpop, hscopes, hfailure⟩ := step_eq_error_iff.mp hfails
      exact ⟨hpop, hscopes, hfailure, hafter⟩
    · rintro ⟨hpop, hscopes, hfailure, -⟩
      exact step_eq_error_iff.mpr ⟨hpop, hscopes, hfailure⟩

end Workspace

/-- A member that is registered twice, a vacant slot between the two, and a scope. -/
def repeatedMember : Workspace Nat where
  registry := { globals := [some 1, none, some 1], scopes := [.settled [some 7]] }

/-- Two scopes, one within the other and one after it, while members come and go. -/
def nestedScopes : List (Workspace.Step Nat) :=
  [.push (.shared "outer"), .remove (some 1), .push (.settled []), .remove (some 1), .pop, .add (some 2), .pop,
    .remove (some 1), .push (.shared "outer"), .add (some 1), .pop]

/-- The first of the two goes, what was not there can be taken back, and three removals of what is there
twice leave room for one more addition only. -/
theorem steps_add_up_repeatedMember :
    some 1 ∈ repeatedMember.registry.globals ∧ some 2 ∉ repeatedMember.registry.globals ∧
      (repeatedMember.after (.remove (some 1))).registry.globals = [none, some 1] ∧
      repeatedMember.afterAll [.add (some 2), .remove (some 2)] = repeatedMember ∧
      Workspace.Balanced nestedScopes ∧
      (repeatedMember.afterAll nestedScopes).registry.scopes = [.settled [some 7]] ∧
      (repeatedMember.afterAll nestedScopes).registry.globals.count (some 1) = 1 := by
  obtain ⟨hremoves, -, -, hundone, hcount, -, hbalanced, -⟩ := repeatedMember.steps_add_up
  have hmem : some 1 ∈ repeatedMember.registry.globals := by decide
  have hnotMem : some 2 ∉ repeatedMember.registry.globals := by decide
  have hscopes : Workspace.Balanced nestedScopes := by decide
  obtain ⟨front, back, hfront, hglobals, hremoved⟩ := (hremoves (some 1)).2 hmem
  have hfirst : front = [] ∧ back = [none, some 1] := by
    cases front with
    | nil => exact ⟨rfl, (List.cons.inj hglobals).2.symm⟩
    | cons slot front => exact absurd ((List.cons.inj hglobals).1 ▸ List.mem_cons_self) hfront
  rw [hfirst.1, hfirst.2] at hremoved
  exact ⟨hmem, hnotMem, hremoved, hundone _ hnotMem, hscopes, hbalanced _ hscopes,
    (hcount nestedScopes (some 1)).trans (by decide)⟩

end ExtensibleCheck
