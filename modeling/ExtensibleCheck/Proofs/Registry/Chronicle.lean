import ExtensibleCheck.Proofs.Registry.Cursor
import ExtensibleCheck.Proofs.Registry.Ledger
import ExtensibleCheck.Registry.Workspace

/-! A workspace with marks on its slots, through steps of all kinds. A traversal goes through the marked
slots as it does through the members, and one step of it comes to a registration, to a place in the scope
or to the end: to the first of those that are left, as vacant slots are skipped. Steps of anything else
leave it where it stands. -/

namespace ExtensibleCheck

namespace Workspace

variable {α : Type}

namespace Step

/-- Whether the step is one of the traversal with the given name. -/
def isNext (name : String) : Step α → Bool
  | next other => other = name
  | _ => false

/-- Whether the step neither opens nor closes the traversal with the given name. -/
def spares (name : String) : Step α → Bool
  | openCursor other | close other => other ≠ name
  | _ => true

def isRemoval : Step α → Bool
  | remove _ => true
  | _ => false

def isAddition : Step α → Bool
  | add _ => true
  | _ => false

/-- Whether the step appends to the list behind the given scope. -/
def appendsTo [DecidableEq α] (top : Option (ScopeList α)) : Step α → Bool
  | append list _ => top = some (.shared list)
  | _ => false

end Step

/-- The reply to a step of a traversal that comes to a member or to the end. -/
def Reply.ofMember : Option α → Reply α
  | some x => .yielded x
  | none => .done

theorem Step.eq_next_of_isNext {name : String} {step : Step α} (h : step.isNext name) :
    step = .next name := by
  cases step with
  | next other => rw [of_decide_eq_true h]
  | _ => cases h

variable [DecidableEq α]

/-- The workspace after a step. -/
def after (w : Workspace α) (step : Step α) : Workspace α :=
  match w.step step with
  | .ok (_, w) => w
  | .error _ => w

def afterAll (w : Workspace α) (steps : List (Step α)) : Workspace α := steps.foldl after w

/-- The reply to a step, if it does not fail. -/
def reply? (w : Workspace α) (step : Step α) : Option (Reply α) :=
  match w.step step with
  | .ok (reply, _) => some reply
  | .error _ => none

/-- What the steps of one traversal are replied. -/
def replies (name : String) : Workspace α → List (Step α) → List (Reply α)
  | _, [] => []
  | w, step :: rest =>
    let later := replies name (w.after step) rest
    if step.isNext name then (w.reply? step).toList ++ later else later

end Workspace

open Workspace

/-- A workspace with a ledger of its registrations. -/
structure Chronicle (α : Type) where
  workspace : Workspace α
  ledger : Ledger α

namespace Chronicle

variable {α : Type}

section

variable (c : Chronicle α) (name : String)

def start (w : Workspace α) : Chronicle α := ⟨w, .start w.registry.globals⟩

def cursor : Cursor (ScopeList α) := c.workspace.cursors.getD name .finished

/-- The innermost scope, if there is one. -/
def top : Option (ScopeList α) := c.workspace.registry.scopes.head?

/-- The registry with every global member marked by its registration. -/
def marked : Registry (Mark × α) (ScopeList α) where
  globals := c.ledger.entries.map fun e => e.slot.map fun x => (.registration e.number, x)
  scopes := c.workspace.registry.scopes

/-- What a scope holds, every member marked by its place. -/
def readMarked (scope : ScopeList α) : List (Option (Mark × α)) :=
  (c.workspace.read scope).zipIdx.map fun (slot, index) => slot.map fun x => (.place index, x)

/-- What the traversal comes to by its next step, if it is not at its end. -/
def sight : Option (Mark × α) := ((c.cursor name).advance c.readMarked c.marked).1

/-- Whether a member is where the mark says. The scope is the given one. -/
def Holds (scope : Option (ScopeList α)) (x : α) : Mark → Prop
  | .registration number => ⟨number, some x⟩ ∈ c.ledger.entries
  | .place index => ∃ list ∈ scope, (c.workspace.read list)[index]? = some (some x)

/-- The ledger agrees with the registry. -/
structure Faithful : Prop where
  globals : c.ledger.globals = c.workspace.registry.globals
  ordered : c.ledger.Ordered

end

variable {c : Chronicle α} {name : String}

theorem faithful_start (w : Workspace α) : (start w).Faithful :=
  ⟨Ledger.globals_start _, Ledger.ordered_start _⟩

theorem map_map_mark (mark : Mark) (slot : Option α) :
    (slot.map fun x => (mark, x)).map Prod.snd = slot := by
  cases slot <;> rfl

/-- Without the marks, the slots are those of the ledger. -/
theorem globals_marked (c : Chronicle α) : c.marked.globals.map (Option.map Prod.snd) = c.ledger.globals := by
  rw [Ledger.globals, marked, List.map_map]
  exact List.map_congr_left fun e _ => map_map_mark (.registration e.number) e.slot

theorem map_readMarked (c : Chronicle α) (scope : ScopeList α) :
    (c.readMarked scope).map (Option.map Prod.snd) = c.workspace.read scope := by
  rw [readMarked, List.map_map]
  have hslots := List.map_congr_left (l := (c.workspace.read scope).zipIdx) fun p _ =>
    map_map_mark (.place p.2) p.1
  exact hslots.trans (List.zipIdx_map_fst 0 _)

/-- The marks do not change what the traversal comes to. -/
theorem Faithful.advance_eq (h : c.Faithful) (cursor : Cursor (ScopeList α)) :
    cursor.advance c.workspace.read c.workspace.registry =
      ((cursor.advance c.readMarked c.marked).1.map Prod.snd,
        (cursor.advance c.readMarked c.marked).2) := by
  refine Cursor.advance_map (f := Prod.snd) (r := c.marked) (fun scope => ?_) ?_ rfl cursor
  · exact (c.map_readMarked scope).symm
  · exact h.globals.symm.trans c.globals_marked.symm

/-- What is left of the global slots, without the marks. -/
theorem firstFrom_globals (c : Chronicle α) (next : Nat) : FirstFrom c.ledger.globals next
    ((nextOccupied c.marked.globals next).map fun (y, i) => (y.2, i)) := by
  rw [← c.globals_marked, ← nextOccupied_map]
  exact firstFrom_nextOccupied _ _

/-- What is left of a scope, without the marks. -/
theorem firstFrom_read (c : Chronicle α) (scope : ScopeList α) (next : Nat) :
    FirstFrom (c.workspace.read scope) next
      ((nextOccupied (c.readMarked scope) next).map fun (y, i) => (y.2, i)) := by
  rw [← c.map_readMarked, ← nextOccupied_map]
  exact firstFrom_nextOccupied _ _

theorem nextOccupied_marked {next i : Nat} {mark : Mark} {x : α}
    (h : nextOccupied c.marked.globals next = some ((mark, x), i)) :
    ∃ number, mark = .registration number ∧ c.ledger.entries[i]? = some ⟨number, some x⟩ := by
  obtain ⟨-, hslot, -⟩ := (nextOccupied_eq_some_iff _ _ _ _).mp h
  rw [marked, List.getElem?_map, Option.map_eq_some_iff] at hslot
  obtain ⟨⟨number, slot⟩, hentry, hmarked⟩ := hslot
  obtain ⟨y, rfl, hpair⟩ := Option.map_eq_some_iff.mp hmarked
  cases hpair
  exact ⟨number, rfl, hentry⟩

theorem nextOccupied_readMarked {scope : ScopeList α} {next i : Nat} {mark : Mark} {x : α}
    (h : nextOccupied (c.readMarked scope) next = some ((mark, x), i)) : mark = .place i := by
  obtain ⟨-, hslot, -⟩ := (nextOccupied_eq_some_iff _ _ _ _).mp h
  rw [readMarked, List.getElem?_map, Option.map_eq_some_iff] at hslot
  obtain ⟨⟨slot, index⟩, hpair, hmarked⟩ := hslot
  obtain ⟨y, rfl, hmark⟩ := Option.map_eq_some_iff.mp hmarked
  rw [List.getElem?_zipIdx, Option.map_eq_some_iff] at hpair
  obtain ⟨slot, hread, hsame⟩ := hpair
  rw [Nat.zero_add] at hsame
  cases hsame
  cases hmark
  rfl

/-- A step through the scope comes to the first member of it from an index on, and to nothing only if there
is none. -/
def SeeksPlace (c : Chronicle α) (scope : Option (ScopeList α)) (start : Nat) :
    Option (Mark × α) → Prop
  | some (.place i, x) => ∃ list ∈ scope, FirstFrom (c.workspace.read list) start (some (x, i))
  | some (.registration _, _) => False
  | none => ∀ list ∈ scope, FirstFrom (c.workspace.read list) start none

/-- A step through the global slots comes to the first registration from an index on. Only if there is none
it goes over to the beginning of the scope. -/
def SeeksRegistration (c : Chronicle α) (scope : Option (ScopeList α)) (start : Nat) :
    Option (Mark × α) → Prop
  | some (.registration number, x) => ∃ i, c.ledger.entries[i]? = some ⟨number, some x⟩ ∧
      FirstFrom c.ledger.globals start (some (x, i))
  | sight => FirstFrom c.ledger.globals start none ∧ c.SeeksPlace scope 0 sight

/-- What the step of a traversal that has begun comes to from where it stands. -/
def Seeks (c : Chronicle α) : Cursor (ScopeList α) → Option (Mark × α) → Prop
  | .unopened, _ => False
  | .inGlobals next scope, sight => c.SeeksRegistration scope next sight
  | .inScope next scope, sight => c.SeeksPlace (some scope) next sight
  | .finished, sight => sight = none

/-- The later step goes on behind what the earlier one came to, in the slots as they are by then. -/
def Resumes (name : String) (scope : Option (ScopeList α)) (earlier later : Chronicle α) : Prop :=
  match earlier.sight name with
  | some (.registration number, x) => ∃ i, earlier.ledger.entries[i]? = some ⟨number, some x⟩ ∧
      later.SeeksRegistration scope (i + 1) (later.sight name)
  | some (.place i, _) => later.SeeksPlace scope (i + 1) (later.sight name)
  | none => later.sight name = none

/-- What one step of a traversal that has begun comes to, and where the traversal stands then. -/
inductive Comes (c : Chronicle α) :
    Cursor (ScopeList α) → Option (Mark × α) → Cursor (ScopeList α) → Prop
  | global {next scope i number x} : FirstFrom c.ledger.globals next (some (x, i)) →
      c.ledger.entries[i]? = some ⟨number, some x⟩ →
      Comes c (.inGlobals next scope) (some (.registration number, x)) (.inGlobals (i + 1) scope)
  | enter {next scope i x} : FirstFrom c.ledger.globals next none →
      FirstFrom (c.workspace.read scope) 0 (some (x, i)) →
      Comes c (.inGlobals next (some scope)) (some (.place i, x)) (.inScope (i + 1) scope)
  | place {next scope i x} : FirstFrom (c.workspace.read scope) next (some (x, i)) →
      Comes c (.inScope next scope) (some (.place i, x)) (.inScope (i + 1) scope)
  | done {cursor} : c.Seeks cursor none → Comes c cursor none .finished

theorem comes_stepScope {cursor : Cursor (ScopeList α)} {next : Nat} {scope : ScopeList α}
    (hfound : ∀ {i x}, FirstFrom (c.workspace.read scope) next (some (x, i)) →
      c.Comes cursor (some (.place i, x)) (.inScope (i + 1) scope))
    (hnone : FirstFrom (c.workspace.read scope) next none → c.Seeks cursor none) :
    c.Comes cursor (Cursor.stepScope c.readMarked next scope).1
      (Cursor.stepScope c.readMarked next scope).2 := by
  have hfirst := c.firstFrom_read scope next
  rw [Cursor.stepScope]
  cases hnext : nextOccupied (c.readMarked scope) next with
  | none =>
      rw [hnext] at hfirst
      exact .done (hnone hfirst)
  | some found =>
      rw [hnext] at hfirst
      obtain ⟨⟨mark, x⟩, i⟩ := found
      obtain rfl := nextOccupied_readMarked hnext
      exact hfound hfirst

theorem comes_advance {cursor : Cursor (ScopeList α)} (hbegun : cursor ≠ .unopened) :
    c.Comes cursor (cursor.advance c.readMarked c.marked).1
      (cursor.advance c.readMarked c.marked).2 := by
  cases cursor with
  | unopened => exact absurd rfl hbegun
  | finished => exact .done rfl
  | inScope next scope =>
      refine comes_stepScope .place fun hnone list hlist => ?_
      obtain rfl := Option.some.inj hlist
      exact hnone
  | inGlobals next scope =>
      have hfirst := c.firstFrom_globals next
      rw [Cursor.advance]
      cases h : nextOccupied c.marked.globals next with
      | some found =>
          rw [h] at hfirst
          obtain ⟨⟨mark, x⟩, i⟩ := found
          obtain ⟨number, rfl, hentry⟩ := nextOccupied_marked h
          rw [Cursor.stepGlobals_of_some h]
          exact .global hfirst hentry
      | none =>
          rw [h] at hfirst
          rw [Cursor.stepGlobals_of_none h]
          cases scope with
          | none => exact .done ⟨hfirst, fun list hlist => absurd hlist (Option.not_mem_none list)⟩
          | some scope =>
              refine comes_stepScope (.enter hfirst) fun hnone => ⟨hfirst, fun list hlist => ?_⟩
              obtain rfl := Option.some.inj hlist
              exact hnone

theorem Comes.seeks {cursor cursor' : Cursor (ScopeList α)} {sight : Option (Mark × α)}
    (h : c.Comes cursor sight cursor') : c.Seeks cursor sight := by
  cases h with
  | global hfirst hentry => exact ⟨_, hentry, hfirst⟩
  | enter hnone hfirst => exact ⟨hnone, _, rfl, hfirst⟩
  | place hfirst => exact ⟨_, rfl, hfirst⟩
  | done hnone => exact hnone

theorem Comes.begun {cursor cursor' : Cursor (ScopeList α)} {sight : Option (Mark × α)}
    (h : c.Comes cursor sight cursor') : cursor' ≠ .unopened := by
  cases h <;> exact fun hne => nomatch hne

/-- What a step comes to was ahead, and comes before all that is still ahead then. -/
theorem Comes.ahead {c : Chronicle α} {cursor cursor' : Cursor (ScopeList α)} {mark : Mark} {x : α}
    (h : c.Comes cursor (some (mark, x)) cursor') (hordered : c.ledger.Ordered) :
    c.ledger.Ahead cursor mark ∧ ∀ mark', c.ledger.Ahead cursor' mark' →
      c.ledger.Ahead cursor mark' ∧ mark.Before mark' := by
  cases h with
  | @global next scope i number _ hfirst hentry =>
      obtain ⟨hle, -⟩ := hfirst
      -- What is ahead after the step are the entries behind this one and numbers not used yet.
      obtain ⟨hlength, hget⟩ := List.getElem?_eq_some_iff.mp hentry
      have hdrop : c.ledger.entries.drop i =
          ⟨number, some x⟩ :: c.ledger.entries.drop (i + 1) := by
        rw [List.drop_eq_getElem_cons hlength, hget]
      have hsubset : ⟨number, some x⟩ :: c.ledger.entries.drop (i + 1) ⊆
          c.ledger.entries.drop next := hdrop ▸ List.drop_subset_drop_left _ hle
      refine ⟨Or.inr ⟨⟨number, some x⟩, hsubset List.mem_cons_self, rfl⟩, fun mark' hahead => ?_⟩
      cases mark' with
      | place => exact ⟨trivial, trivial⟩
      | registration number' =>
          rcases hahead with hfresh | ⟨e, he, rfl⟩
          · exact ⟨Or.inl hfresh,
              Nat.lt_of_lt_of_le (hordered.used _ (List.mem_of_getElem? hentry)) hfresh⟩
          · have hincreasing := hordered.increasing.sublist (List.drop_sublist i _)
            rw [hdrop] at hincreasing
            exact ⟨Or.inr ⟨e, hsubset (List.mem_cons_of_mem _ he), rfl⟩,
              List.rel_of_pairwise_cons hincreasing he⟩
  | enter =>
      refine ⟨trivial, fun mark' hahead => ?_⟩
      cases mark' with
      | place index => exact ⟨trivial, hahead⟩
      | registration => exact hahead.elim
  | place hfirst =>
      obtain ⟨hle, -⟩ := hfirst
      refine ⟨hle, fun mark' hahead => ?_⟩
      cases mark' with
      | place index => exact ⟨Nat.le_trans hle (Nat.le_of_succ_le hahead), hahead⟩
      | registration => exact hahead.elim

/-- A traversal in order: it comes to some marks, one before the other and all of them ahead of where it
stands, and then to nothing any more. -/
def Orderly (l : Ledger α) (cursor : Cursor (ScopeList α)) (sights : List (Option (Mark × α))) :
    Prop :=
  ∃ (yields : List (Mark × α)) (n : Nat), sights = yields.map some ++ List.replicate n none ∧
    yields.Pairwise (·.1.Before ·.1) ∧ ∀ y ∈ yields, l.Ahead cursor y.1

theorem Comes.orderly {cursor cursor' : Cursor (ScopeList α)} {sight : Option (Mark × α)}
    {sights : List (Option (Mark × α))} (h : c.Comes cursor sight cursor')
    (hordered : c.ledger.Ordered) (hrest : Orderly c.ledger cursor' sights) :
    Orderly c.ledger cursor (sight :: sights) := by
  obtain ⟨yields, n, rfl, hpairwise, hahead⟩ := hrest
  cases sight with
  | some y =>
      obtain ⟨hhere, hlater⟩ := h.ahead hordered
      refine ⟨y :: yields, n, rfl, ?_, fun z hz => ?_⟩
      · exact List.pairwise_cons.mpr ⟨fun z hz => (hlater z.1 (hahead z hz)).2, hpairwise⟩
      · rcases List.mem_cons.mp hz with rfl | hz
        · exact hhere
        · exact (hlater z.1 (hahead z hz)).1
  | none =>
      obtain rfl : cursor' = .finished := by cases h; rfl
      cases yields with
      | nil => exact ⟨[], n + 1, rfl, .nil, fun _ hz => nomatch hz⟩
      | cons y yields => exact (hahead y List.mem_cons_self).elim

/-- Where the traversal stands. A fresh one stands before the first global slot as soon as it goes on,
with the scope that is innermost then. -/
def position (c : Chronicle α) (name : String) : Cursor (ScopeList α) :=
  match c.cursor name with
  | .unopened => .inGlobals 0 c.top
  | cursor => cursor

theorem position_of_begun (h : c.cursor name ≠ .unopened) : c.position name = c.cursor name := by
  rw [position]
  split
  · rename_i hcursor
    exact absurd hcursor h
  · rfl

theorem advance_position : (c.position name).advance c.readMarked c.marked =
    (c.cursor name).advance c.readMarked c.marked := by
  rw [position]
  split
  · rename_i hcursor
    rw [hcursor]
    rfl
  · rfl

/-- Whether a traversal that has begun goes through the given scope, if it comes to any. -/
def Within (top : Option (ScopeList α)) : Cursor (ScopeList α) → Prop
  | .inGlobals _ scope => scope = top
  | .inScope _ scope => some scope = top
  | .unopened | .finished => True

theorem Comes.within {top : Option (ScopeList α)} {cursor cursor' : Cursor (ScopeList α)}
    {sight : Option (Mark × α)} (h : c.Comes cursor sight cursor') (hwithin : Within top cursor) :
    Within top cursor' := by
  cases h with
  | global | enter | place => exact hwithin
  | done => trivial

/-- A member that the traversal comes to is where its mark says at that moment. -/
theorem Comes.holds {top : Option (ScopeList α)} {cursor cursor' : Cursor (ScopeList α)}
    {mark : Mark} {x : α} (h : c.Comes cursor (some (mark, x)) cursor')
    (hwithin : Within top cursor) : c.Holds top x mark := by
  cases h with
  | global _ hentry => exact List.mem_of_getElem? hentry
  | enter _ hfirst => exact ⟨_, hwithin.symm, hfirst.2.1⟩
  | place hfirst => exact ⟨_, hwithin.symm, hfirst.2.1⟩

/-- From where a step left the traversal, the next one goes on behind what that step came to. -/
theorem Comes.resumes {c' : Chronicle α} {top : Option (ScopeList α)} {cursor cursor' : Cursor (ScopeList α)}
    (h : c.Comes cursor (c.sight name) cursor') (hwithin : Within top cursor)
    (hseeks : c'.Seeks cursor' (c'.sight name)) : Resumes name top c c' := by
  unfold Resumes
  generalize c.sight name = sight at h ⊢
  cases h with
  | global _ hentry => exact ⟨_, hentry, hwithin ▸ hseeks⟩
  | enter => exact hwithin ▸ hseeks
  | place => exact hwithin ▸ hseeks
  | done => exact hseeks

/-- How many slots are ahead of a traversal. -/
def room (c : Chronicle α) : Cursor (ScopeList α) → Nat
  | .unopened => 0
  | .inGlobals next scope =>
    c.ledger.entries.length - next + (scope.map fun list => (c.workspace.read list).length).getD 0
  | .inScope next scope => (c.workspace.read scope).length - next
  | .finished => 0

theorem Comes.room_le {cursor cursor' : Cursor (ScopeList α)} {sight : Option (Mark × α)}
    (h : c.Comes cursor sight cursor') :
    c.room cursor' + (if sight.isSome then 1 else 0) ≤ c.room cursor := by
  have hlength {slots : List (Option α)} {i : Nat} {x : α} (hslot : slots[i]? = some (some x)) :
      i < slots.length := (List.getElem?_eq_some_iff.mp hslot).1
  cases h with
  | global hfirst hentry =>
      obtain ⟨hle, -⟩ := hfirst
      have hlast := (List.getElem?_eq_some_iff.mp hentry).1
      simp only [room, Option.isSome_some, if_true]
      omega
  | enter _ hfirst =>
      have hlast := hlength hfirst.2.1
      simp only [room, Option.map_some, Option.getD_some, Option.isSome_some, if_true]
      omega
  | place hfirst =>
      obtain ⟨hle, hread, -⟩ := hfirst
      have hlast := hlength hread
      simp only [room, Option.isSome_some, if_true]
      omega
  | done => exact Nat.zero_le _

section

variable [DecidableEq α]

def after (c : Chronicle α) (step : Step α) : Chronicle α where
  workspace := c.workspace.after step
  ledger := match step with
    | .add slot => c.ledger.add slot
    | .remove slot => c.ledger.remove slot
    | _ => c.ledger

def afterAll (c : Chronicle α) (steps : List (Step α)) : Chronicle α := steps.foldl after c

/-- The moments at which the traversal takes its steps. -/
def moments (name : String) : Chronicle α → List (Step α) → List (Chronicle α)
  | _, [] => []
  | c, step :: rest =>
    let later := moments name (c.after step) rest
    if step.isNext name then c :: later else later

/-- What the traversal comes to, step by step. -/
def sights (c : Chronicle α) (name : String) (steps : List (Step α)) : List (Option (Mark × α)) :=
  (moments name c steps).map fun m => m.sight name

variable {step : Step α} {rest : List (Step α)}

theorem moments_next : moments name c (.next name :: rest) =
    c :: moments name (c.after (.next name)) rest :=
  if_pos (decide_eq_true rfl)

theorem moments_other (h : step.isNext name = false) :
    moments name c (step :: rest) = moments name (c.after step) rest :=
  if_neg (by rw [h]; exact Bool.false_ne_true)

theorem sights_next : c.sights name (.next name :: rest) =
    c.sight name :: (c.after (.next name)).sights name rest := by
  rw [sights, moments_next, List.map_cons, sights]

theorem sights_other (h : step.isNext name = false) :
    c.sights name (step :: rest) = (c.after step).sights name rest := by
  rw [sights, moments_other h, sights]

theorem Faithful.after (h : c.Faithful) (step : Step α) : (c.after step).Faithful := by
  have hsame (hregistry : (c.workspace.after step).registry.globals = c.workspace.registry.globals)
      (hledger : (c.after step).ledger = c.ledger) : (c.after step).Faithful := by
    constructor
    · rw [hledger]
      exact h.globals.trans hregistry.symm
    · rw [hledger]
      exact h.ordered
  cases step with
  | add slot =>
      refine ⟨?_, h.ordered.add slot⟩
      exact (c.ledger.globals_add slot).trans (congrArg (· ++ [slot]) h.globals)
  | remove slot =>
      refine ⟨?_, h.ordered.remove slot⟩
      exact (c.ledger.globals_remove slot).trans (congrArg (List.erase · slot) h.globals)
  | pop =>
      refine hsame ?_ rfl
      rw [Workspace.after, Workspace.step, Registry.popLocal]
      cases c.workspace.registry.scopes <;> rfl
  | push | append | dropLast | view | openCursor | next | close => exact hsame rfl rfl

theorem Faithful.afterAll (h : c.Faithful) (steps : List (Step α)) : (c.afterAll steps).Faithful := by
  induction steps generalizing c with
  | nil => exact h
  | cons step steps ih => exact ih (h.after step)

/-- A step of something else leaves the traversal where it is. -/
theorem cursor_after {step : Step α} (hspares : step.spares name) (hother : step.isNext name = false) :
    (c.after step).cursor name = c.cursor name := by
  have hinsert {other : String} (hne : other ≠ name) (cursor : Cursor (ScopeList α)) :
      (c.workspace.cursors.insert other cursor).getD name .finished = c.cursor name := by
    rw [OrderedMap.getD, OrderedMap.get?_insert_of_ne _ _ hne]
    rfl
  cases step with
  | pop =>
      show (c.workspace.after .pop).cursors.getD name .finished = _
      rw [Workspace.after, Workspace.step]
      cases c.workspace.registry.popLocal <;> rfl
  | openCursor other | close other => exact hinsert (of_decide_eq_true hspares) _
  | next other => exact hinsert (of_decide_eq_false hother) _
  | add | remove | push | append | dropLast | view => rfl

theorem cursor_next (h : c.Faithful) : (c.after (.next name)).cursor name =
    ((c.cursor name).advance c.readMarked c.marked).2 := by
  show (c.workspace.cursors.insert name _).getD name .finished = _
  rw [OrderedMap.getD, OrderedMap.get?_insert_self, Option.getD_some]
  exact congrArg Prod.snd (h.advance_eq (c.cursor name))

/-- What the next step of a traversal comes to. -/
theorem Faithful.comes (h : c.Faithful) (name : String) :
    c.Comes (c.position name) (c.sight name) ((c.after (.next name)).cursor name) := by
  have hbegun : c.position name ≠ .unopened := by
    rw [position]
    split
    · exact fun hne => nomatch hne
    · rename_i hne
      exact hne
  have hcomes := comes_advance (c := c) hbegun
  rw [advance_position] at hcomes
  rw [cursor_next h]
  exact hcomes

/-- What holds of a traversal that has begun follows by induction on the steps, which are its own or
leave it where it is. -/
theorem induction_of_begun {P : Chronicle α → List (Step α) → Prop} (hnil : ∀ c, P c [])
    (hnext : ∀ {c rest}, c.Faithful →
      c.Comes (c.cursor name) (c.sight name) ((c.after (.next name)).cursor name) →
      P (c.after (.next name)) rest → P c (.next name :: rest))
    (hother : ∀ {c step rest}, step.isNext name = false →
      (c.after step).cursor name = c.cursor name → P (c.after step) rest → P c (step :: rest))
    {c : Chronicle α} (hfaithful : c.Faithful) (hbegun : c.cursor name ≠ .unopened)
    {steps : List (Step α)} (hspares : ∀ step ∈ steps, step.spares name) : P c steps := by
  induction steps generalizing c with
  | nil => exact hnil c
  | cons step rest ih =>
      have hrest : ∀ step ∈ rest, step.spares name := fun step h => hspares step (.tail _ h)
      by_cases hstep : step.isNext name
      · obtain rfl := Step.eq_next_of_isNext hstep
        have hcomes := hfaithful.comes name
        rw [position_of_begun hbegun] at hcomes
        exact hnext hfaithful hcomes (ih (hfaithful.after _) hcomes.begun hrest)
      · have hcursor : (c.after step).cursor name = c.cursor name :=
          cursor_after (hspares step List.mem_cons_self) (Bool.eq_false_iff.mpr hstep)
        exact hother (Bool.eq_false_iff.mpr hstep) hcursor
          (ih (hfaithful.after step) (hcursor ▸ hbegun) hrest)

end

end Chronicle

end ExtensibleCheck
