import ExtensibleCheck.Proofs.Dispatch.Poll
import ExtensibleCheck.Proofs.Network.Invocation

/-! Dispatchers that are members of each other's registries. As long as nobody changes a registry, a
dispatch consults the extensions that its members come down to, in order and as if they were members of
one registry; only the lines that the dispatchers print and how deep the calls nest tell the difference. -/

namespace ExtensibleCheck

open Run NetworkState

variable {ε ν τ μ : Type}

namespace Network

section

variable (n : Network ε ν τ μ)

/-- The members that a dispatcher reaches if nothing changes meanwhile. -/
def members (s : NetworkState ε ν τ μ) (name : String) : List (Member ε) :=
  (s.registry (n.specOf name).registry).view (List.map some)

/-- Whether a dispatcher is a member of what another one works on. -/
def Nests (s : NetworkState ε ν τ μ) (inner outer : String) : Prop :=
  .dispatcher inner ∈ n.members s outer

/-- The extensions that members come down to, in order, if each dispatcher among them is replaced by its
own members, over and over. The number bounds how deep the dispatchers are nested. -/
inductive Expands (s : NetworkState ε ν τ μ) : Nat → List (Member ε) → List ε → Prop where
  | nil (height : Nat) : Expands s height [] []
  | extension {height : Nat} {members : List (Member ε)} {leaves : List ε} (e : ε)
    (rest : Expands s height members leaves) :
    Expands s height (.extension e :: members) (e :: leaves)
  | dispatcher {height : Nat} {members : List (Member ε)} {inner leaves : List ε} (name : String)
    (nested : Expands s height (n.members s name) inner)
    (rest : Expands s (height + 1) members leaves) :
    Expands s (height + 1) (.dispatcher name :: members) (inner ++ leaves)

variable {n} {s : NetworkState ε ν τ μ}

theorem Expands.mono {height height' : Nat} {members : List (Member ε)} {leaves : List ε}
    (h : n.Expands s height members leaves) (hle : height ≤ height') :
    n.Expands s height' members leaves := by
  induction h generalizing height' with
  | nil height => exact .nil height'
  | extension e _ ih => exact .extension e (ih hle)
  | dispatcher name _ _ ihnested ihrest =>
      obtain ⟨height', rfl⟩ := Nat.exists_eq_add_one.mpr (Nat.lt_of_lt_of_le (Nat.succ_pos _) hle)
      exact .dispatcher name (ihnested (Nat.le_of_succ_le_succ hle)) (ihrest hle)

theorem exists_expands_of_forall {members : List (Member ε)}
    (h : ∀ name, .dispatcher name ∈ members →
      ∃ height leaves, n.Expands s height (n.members s name) leaves) :
    ∃ height leaves, n.Expands s height members leaves := by
  induction members with
  | nil => exact ⟨0, [], .nil 0⟩
  | cons member members ih =>
      obtain ⟨height, leaves, hrest⟩ := ih fun name hname => h name (.tail _ hname)
      cases member with
      | extension e => exact ⟨height, e :: leaves, .extension e hrest⟩
      | dispatcher name =>
          obtain ⟨height', inner, hnested⟩ := h name List.mem_cons_self
          exact ⟨max height' height + 1, inner ++ leaves,
            .dispatcher name (hnested.mono (Nat.le_max_left _ _))
              (hrest.mono (Nat.le_succ_of_le (Nat.le_max_right _ _)))⟩

/-- A dispatcher comes down to extensions unless dispatchers are nested in it forever. -/
theorem exists_expands {name : String} (h : Acc (n.Nests s) name) :
    ∃ height leaves, n.Expands s height (n.members s name) leaves := by
  induction h with
  | intro name _ ih => exact exists_expands_of_forall fun inner hinner => ih inner hinner

end

variable [DecidableEq ε] [DecidableEq ν] (n : Network ε ν τ μ)

/-- One use of a hook of a dispatcher, with members nested no deeper than `depth`. -/
def dispatch (depth : Nat) (name : String) : (call : HookCall ν τ) →
    Run (NetworkState ε ν τ μ) call.Answer :=
  (n.dispatcherAt (n.invoke depth) name).dispatch

/-- An extension that leaves every registry as it is, whatever hook is used. -/
def Spares (s : NetworkState ε ν τ μ) (e : ε) : Prop :=
  ∀ depth call t, s.SameRegistries t → EndsIn s.SameRegistries (n.invoke depth (.extension e) call t)

section

variable {n} {s : NetworkState ε ν τ μ}

variable (hlimit : ∀ name, (n.members s name).length ≤ n.limit)

include hlimit in
theorem dispatch_alike_poll {name : String}
    (h : ∀ member ∈ n.members s name, ∀ depth call, Alike unprinted s.SameRegistries
      (n.invoke depth member call) (n.invoke depth member call))
    (depth : Nat) (call : HookCall ν τ) : Alike unprinted s.SameRegistries (n.dispatch depth name call)
      (poll ((n.members s name).map (n.invoke depth)) call) := by
  refine Dispatcher.dispatch_alike_poll (d := n.dispatcherAt (n.invoke depth) name)
    (fun t ht => ht _) (hlimit name) (fun line => ?_)
    (fun member hmember call => h member hmember depth call) call
  rw [Dispatcher.say]
  split
  · exact print_alike s line
  · exact .pure ()

namespace Expands

variable {height : Nat} {members : List (Member ε)} {leaves : List ε}

include hlimit

theorem invoke_alike (h : n.Expands s height members leaves) (hspares : ∀ e ∈ leaves, n.Spares s e) :
    ∀ member ∈ members, ∀ depth call, Alike unprinted s.SameRegistries
      (n.invoke depth member call) (n.invoke depth member call) := by
  induction h with
  | nil => exact fun _ hmember => (List.not_mem_nil hmember).elim
  | extension e _ ih =>
      intro member hmember depth call
      rcases List.mem_cons.mp hmember with rfl | hmember
      · exact (n.invoke_alike depth _ call).keeping fun t ht => hspares e List.mem_cons_self depth call t ht
      · exact ih (fun e he => hspares e (.tail _ he)) member hmember depth call
  | dispatcher name _ _ ihnested ihrest =>
      intro member hmember depth call
      rcases List.mem_cons.mp hmember with rfl | hmember
      · cases depth with
        | zero => exact .throw _
        | succ depth =>
            -- It is like the poll of its members, which on its part is like the dispatcher.
            have hpoll := dispatch_alike_poll hlimit
              (ihnested fun e he => hspares e (List.mem_append_left _ he)) depth call
            exact hpoll.trans (hpoll.symm SameRegistries.of_unprinted_eq)
      · exact ihrest (fun e he => hspares e (List.mem_append_right _ he)) member hmember depth call

/-- Polling members is polling the extensions that they come down to, unless it goes too deep. -/
theorem poll_members_follows (h : n.Expands s height members leaves)
    (hspares : ∀ e ∈ leaves, n.Spares s e) (depth : Nat) (call : HookCall ν τ) :
    Follows unprinted s.SameRegistries TooDeep (poll (members.map (n.invoke depth)) call)
      (poll (leaves.map fun e => n.invoke depth (.extension e)) call) := by
  induction h generalizing depth call with
  | nil => exact poll_nil_follows
  | extension e rest ih =>
      have hself := (Expands.extension e rest).invoke_alike hlimit hspares
      exact poll_cons_follows (fun call => (hself _ List.mem_cons_self depth call).follows)
        (ih (fun e he => hspares e (.tail _ he)) depth) call
  | @dispatcher _ _ inner _ name nested _ ihnested ihrest =>
      have hinner : ∀ e ∈ inner, n.Spares s e := fun e he => hspares e (List.mem_append_left _ he)
      have hleaves := ihrest fun e he => hspares e (List.mem_append_right _ he)
      rw [List.map_append, poll_group]
      refine poll_cons_follows (fun call => ?_) (hleaves depth) call
      cases depth with
      | zero => exact .ofExcused rfl _
      | succ depth =>
          -- Its members are consulted one level further in than the dispatcher, and so are the leaves
          -- there; to consult these from where the dispatcher is only leaves them more room.
          have hdispatch := dispatch_alike_poll hlimit (nested.invoke_alike hlimit hinner) depth call
          refine (hdispatch.follows.trans (ihnested hinner depth call)).trans ?_
          refine poll_map_follows (fun e he call => ?_) call
          exact (n.invoke_follows depth.le_succ _ call).keeping (hinner e he depth call)

/-- Polling the extensions that members come down to is polling the members, if these may nest as much
deeper as the dispatchers do. -/
theorem poll_leaves_follows (h : n.Expands s height members leaves)
    (hspares : ∀ e ∈ leaves, n.Spares s e) {depth depth' : Nat} (hdepth : depth + height ≤ depth')
    (call : HookCall ν τ) : Follows unprinted s.SameRegistries TooDeep
      (poll (leaves.map fun e => n.invoke depth (.extension e)) call)
      (poll (members.map (n.invoke depth')) call) := by
  induction h generalizing depth' call with
  | nil => exact poll_nil_follows
  | extension e rest ih =>
      refine poll_cons_follows (fun call => ?_)
        (ih (fun e he => hspares e (.tail _ he)) hdepth) call
      exact (n.invoke_follows (Nat.le_of_add_right_le hdepth) _ call).keeping
        (hspares e List.mem_cons_self depth call)
  | @dispatcher _ _ inner _ name nested _ ihnested ihrest =>
      have hinner : ∀ e ∈ inner, n.Spares s e := fun e he => hspares e (List.mem_append_left _ he)
      have hleaves := ihrest (fun e he => hspares e (List.mem_append_right _ he)) hdepth
      rw [List.map_append, poll_group]
      refine poll_cons_follows (fun call => ?_) hleaves call
      obtain ⟨depth', rfl⟩ := Nat.exists_eq_add_one.mpr (Nat.lt_of_lt_of_le (Nat.succ_pos _) hdepth)
      have hdispatch := dispatch_alike_poll hlimit (nested.invoke_alike hlimit hinner) depth' call
      exact (ihnested hinner (Nat.le_of_succ_le_succ hdepth) call).trans
        (hdispatch.symm SameRegistries.of_unprinted_eq).follows

end Expands

include hlimit in
/-- A dispatcher that works on extensions only polls these. -/
theorem dispatch_alike_poll_leaves {flat : String} {leaves : List ε}
    (hspares : ∀ e ∈ leaves, n.Spares s e) (hflat : n.members s flat = leaves.map .extension)
    (depth : Nat) (call : HookCall ν τ) : Alike unprinted s.SameRegistries (n.dispatch depth flat call)
      (poll (leaves.map fun e => n.invoke depth (.extension e)) call) := by
  have hmembers : ∀ member ∈ n.members s flat, ∀ depth call, Alike unprinted s.SameRegistries
      (n.invoke depth member call) (n.invoke depth member call) := by
    intro member hmember depth call
    rw [hflat] at hmember
    obtain ⟨e, he, rfl⟩ := List.mem_map.mp hmember
    exact (n.invoke_alike depth _ call).keeping (hspares e he depth call)
  have hdispatch := dispatch_alike_poll hlimit hmembers depth call
  rwa [hflat, List.map_map] at hdispatch

/-- Dispatchers of which none is nested in itself, directly or not, come down to extensions. If these
change no registry, the outer dispatcher does the same as one that works on exactly these extensions, in
this order, unless its calls nest too deeply; for that it needs as much more room as there are
dispatchers on top of each other. No registry may be so long that its dispatches are cut off. -/
theorem dispatch_flattened (s : NetworkState ε ν τ μ) {outer : String}
    (hacyclic : Acc (n.Nests s) outer) (hlimit : ∀ name, (n.members s name).length ≤ n.limit) :
    (∃ height leaves, n.Expands s height (n.members s outer) leaves) ∧
    ∀ height leaves, n.Expands s height (n.members s outer) leaves →
      (∀ e ∈ leaves, n.Spares s e) →
      ∀ flat, n.members s flat = leaves.map .extension → ∀ depth (call : HookCall ν τ),
        (HaltsFor TooDeep (n.dispatch depth outer call s) ∨
          mapState unprinted (n.dispatch depth outer call s) =
            mapState unprinted (n.dispatch depth flat call s)) ∧
        (HaltsFor TooDeep (n.dispatch depth flat call s) ∨ ∀ depth', depth + height ≤ depth' →
          mapState unprinted (n.dispatch depth' outer call s) =
            mapState unprinted (n.dispatch depth flat call s)) := by
  refine ⟨exists_expands hacyclic, fun height leaves hexpands hspares flat hflat depth call => ?_⟩
  have hsame : s.SameRegistries s := fun _ => rfl
  have houter := dispatch_alike_poll hlimit (hexpands.invoke_alike hlimit hspares)
  have hpoll := dispatch_alike_poll_leaves hlimit hspares hflat depth call
  constructor
  · have hfollows := ((houter depth call).follows.trans
      (hexpands.poll_members_follows hlimit hspares depth call)).trans
      (hpoll.symm SameRegistries.of_unprinted_eq).follows
    exact (hfollows s s rfl hsame).imp_right And.left
  · refine Classical.or_iff_not_imp_left.mpr fun hshallow depth' hdepth => ?_
    have hfollows := (hpoll.follows.trans
      (hexpands.poll_leaves_follows hlimit hspares hdepth call)).trans
      ((houter depth' call).symm SameRegistries.of_unprinted_eq).follows
    exact ((hfollows s s rfl hsame).resolve_left hshallow).1.symm

end

end Network

/-- Extensions that contribute a method with their own name, the second one with an owner that it brings
along, and a dispatcher that brings the second one between the first and the third. -/
def contributors : Network String String String Unit where
  dispatchers := .ofList [("outer", ⟨.ownedBy "outer", true⟩), ("inner", ⟨.ownedBy "inner", true⟩),
    ("flat", ⟨.ownedBy "flat", false⟩)]
  behaviour e
    | .contribute _ => .done [{ name := e, owner := if e = "second" then some ⟨"Map", none⟩ else none }]
    | call => Behaviour.neutral call
  label _ := .anonymous
  registrar _ := .named "R"
  typeOf := id
  limit := 3

def contributorsNested : NetworkState String String String Unit where
  registries := .ofList [
    (.ownedBy "outer",
      { globals := [some (.extension "first"), some (.dispatcher "inner")]
        scopes := [[.extension "third"]] }),
    (.ownedBy "inner", { scopes := [[.extension "second"], [.extension "first"]] }),
    (.ownedBy "flat",
      { globals := [some (.extension "first"), some (.extension "second"), some (.extension "third")] })]
  memory := ()

theorem contributors_spares (e : String) : contributors.Spares contributorsNested e := by
  intro depth call t ht
  cases depth with
  | zero => trivial
  | succ depth => cases call <;> exact ht

theorem contributors_members_outer : contributors.members contributorsNested "outer" =
    [.extension "first", .dispatcher "inner", .extension "third"] := by
  decide

theorem contributors_members_inner :
    contributors.members contributorsNested "inner" = [.extension "second"] := by
  decide

theorem contributors_members_length (name : String) :
    (contributors.members contributorsNested name).length ≤ contributors.limit := by
  have hall : ∀ entry ∈ contributorsNested.registries.entries,
      (entry.2.view (List.map some)).length ≤ 3 := by decide
  show ((contributorsNested.registries.getD (contributors.specOf name).registry .empty).view _).length ≤ 3
  rw [OrderedMap.getD, OrderedMap.get?]
  cases hentry : contributorsNested.registries.entries.find?
      (·.1 = (contributors.specOf name).registry) with
  | none => exact Nat.zero_le _
  | some entry => exact hall entry (List.mem_of_find?_eq_some hentry)

theorem contributors_acyclic : Acc (contributors.Nests contributorsNested) "outer" := by
  refine .intro _ fun name hname => ?_
  rw [Network.Nests, contributors_members_outer] at hname
  obtain rfl : name = "inner" := by simpa using hname
  refine .intro _ fun name hname => ?_
  rw [Network.Nests, contributors_members_inner] at hname
  simp at hname

theorem contributors_expands : contributors.Expands contributorsNested 1
    (contributors.members contributorsNested "outer") ["first", "second", "third"] := by
  have hinner : contributors.Expands contributorsNested 0
      (contributors.members contributorsNested "inner") ["second"] := by
    rw [contributors_members_inner]
    exact .extension _ (.nil 0)
  rw [contributors_members_outer]
  exact .extension _ (.dispatcher "inner" hinner (.extension _ (.nil 1)))

theorem dispatch_flattened_contributors :
    let call : HookCall String String := .contribute ⟨"any", "find", [], [], "call"⟩
    mapState unprinted (contributors.dispatch 2 "outer" call contributorsNested) =
      mapState unprinted (contributors.dispatch 1 "flat" call contributorsNested) :=
  ((contributors.dispatch_flattened contributorsNested contributors_acyclic
    contributors_members_length).2 1 _ contributors_expands (fun e _ => contributors_spares e) "flat"
    (by decide) 1 _).2.resolve_left id 2 (by decide)

end ExtensibleCheck
