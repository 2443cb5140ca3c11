import ExtensibleCheck.OrderedMap
import ExtensibleCheck.Registry.Cursor

/-! A registry together with what its users hold: lists that they go on changing after they were
pushed as scopes, and traversals that they have begun. This is the whole world in which the steps of
several traversals and the changes to a registry can interleave. -/

namespace ExtensibleCheck

/-- The list behind a scope: one that nobody changes any more, or one shared with its owner. -/
inductive ScopeList (α : Type) where
  | settled (slots : List (Option α))
  | shared (name : String)
  deriving DecidableEq

structure Workspace (α : Type) where
  registry : Registry α (ScopeList α) := {}
  lists : OrderedMap String (List (Option α)) := ∅
  cursors : OrderedMap String (Cursor (ScopeList α)) := ∅

namespace Workspace

variable {α : Type}

inductive Step (α : Type) where
  | add (slot : Option α)
  | remove (slot : Option α)
  | push (scope : ScopeList α)
  | pop
  | append (list : String) (slot : Option α)
  | dropLast (list : String)
  | view
  | openCursor (name : String)
  | next (name : String)
  | close (name : String)

inductive Reply (α : Type) where
  | nothing
  | members (members : List α)
  | yielded (member : α)
  | done

/-- What a list holds now; one that nobody has touched is empty. -/
def slots (w : Workspace α) (name : String) : List (Option α) := w.lists.getD name []

def read (w : Workspace α) : ScopeList α → List (Option α)
  | .settled slots => slots
  | .shared name => w.slots name

variable [DecidableEq α]

/-- Performs one step. A step that fails changes nothing. -/
def step (w : Workspace α) : Step α → Except Failure (Reply α × Workspace α)
  | .add slot => .ok (.nothing, { w with registry := w.registry.addGlobal slot })
  | .remove slot => .ok (.nothing, { w with registry := w.registry.removeGlobal slot })
  | .push scope => .ok (.nothing, { w with registry := w.registry.pushLocal scope })
  | .pop => do
    let registry ← w.registry.popLocal
    return (.nothing, { w with registry })
  | .append list slot =>
    .ok (.nothing, { w with lists := w.lists.insert list (w.slots list ++ [slot]) })
  | .dropLast list =>
    .ok (.nothing, { w with lists := w.lists.insert list (w.slots list).dropLast })
  | .view => .ok (.members (w.registry.view w.read), w)
  | .openCursor name => .ok (.nothing, { w with cursors := w.cursors.insert name .unopened })
  | .next name =>
    let (member, cursor) := (w.cursors.getD name .finished).advance w.read w.registry
    let w := { w with cursors := w.cursors.insert name cursor }
    .ok (match member with | some x => .yielded x | none => .done, w)
  | .close name => .ok (.nothing, { w with cursors := w.cursors.insert name .finished })

end Workspace

end ExtensibleCheck
