import ExtensibleCheck.Proofs.Dispatch.Transcript
import ExtensibleCheck.Proofs.Registry.Cursor

/-! Dispatches over a registry that grows meanwhile. Whoever is added to the global members before all of
them had their turn is still consulted, in front of the scope; whoever is added later is not. As long as no
slot is removed, the extensions that are consulted are the first ones of this live view, or all. -/

namespace ExtensibleCheck

variable {σ ι κ ν τ α β : Type}

namespace Registry

/-- The members in the global slots. -/
def globalMembers (r : Registry α κ) : List α := r.globals.filterMap id

/-- The members of the innermost scope. -/
def localMembers (read : κ → List (Option α)) (r : Registry α κ) : List α :=
  ((r.scopes.head?.map read).getD []).filterMap id

theorem view_eq_append (read : κ → List (Option α)) (r : Registry α κ) :
    r.view read = r.globalMembers ++ r.localMembers read := by
  simp [view, globalMembers, localMembers]

end Registry

namespace Cursor

/-- The global members that a traversal has still ahead. -/
def globalsAhead (r : Registry α κ) : Cursor κ → List α
  | unopened => r.globalMembers
  | inGlobals next _ => (r.globals.drop next).filterMap id
  | inScope _ _ | finished => []

/-- The members of its scope that a traversal has still ahead. -/
def scopeAhead (read : κ → List (Option α)) (r : Registry α κ) : Cursor κ → List α
  | unopened => r.localMembers read
  | inGlobals _ scope => ((scope.map read).getD []).filterMap id
  | inScope next scope => ((read scope).drop next).filterMap id
  | finished => []

variable {read : κ → List (Option α)} {r : Registry α κ} {cursor next : Cursor κ} {x : α}

theorem remaining_eq_append (read : κ → List (Option α)) (r : Registry α κ) (cursor : Cursor κ) :
    cursor.remaining read r = cursor.globalsAhead r ++ cursor.scopeAhead read r := by
  cases cursor with
  | unopened => exact r.view_eq_append read
  | inGlobals next scope => rfl
  | inScope next scope => rfl
  | finished => rfl

theorem ahead_of_advance_none (h : cursor.advance read r = (none, next)) :
    cursor.globalsAhead r = [] ∧ cursor.scopeAhead read r = [] := by
  have hfirst : (cursor.advance read r).1 = none := by rw [h]
  have hremaining := cursor.remaining_eq read r
  rw [advance_of_none read r hfirst, hfirst, remaining_eq_append] at hremaining
  simpa [remaining] using hremaining

theorem scopeAhead_of_stepScope {i : Nat} {scope : κ} (h : stepScope read i scope = (some x, next)) :
    ∃ j, next = .inScope j scope ∧
      ((read scope).drop i).filterMap id = x :: next.scopeAhead read r := by
  unfold stepScope at h
  cases hfound : nextOccupied (read scope) i with
  | none => simp [hfound] at h
  | some found =>
      rw [hfound] at h
      cases h
      exact ⟨_, rfl, members_drop_of_some hfound⟩

theorem ahead_of_stepGlobals {i : Nat} {scope : Option κ}
    (h : stepGlobals read r.globals i scope = (some x, next)) :
    (∃ j, next = .inGlobals j scope ∧ j ≤ r.globals.length ∧
      (r.globals.drop i).filterMap id = x :: next.globalsAhead r) ∨
    (∃ j inner, next = .inScope j inner ∧ (r.globals.drop i).filterMap id = [] ∧
      ((scope.map read).getD []).filterMap id = x :: next.scopeAhead read r) := by
  cases hfound : nextOccupied r.globals i with
  | some found =>
      rw [stepGlobals_of_some hfound] at h
      cases h
      obtain ⟨-, hslot, -⟩ := (nextOccupied_eq_some_iff _ _ _ _).mp hfound
      have hlength := (List.getElem?_eq_some_iff.mp hslot).1
      exact .inl ⟨_, rfl, hlength, members_drop_of_some hfound⟩
  | none =>
      rw [stepGlobals_of_none hfound] at h
      cases scope with
      | none => simp at h
      | some scope =>
          obtain ⟨j, hnext, hmembers⟩ := scopeAhead_of_stepScope h
          exact .inr ⟨j, scope, hnext, members_drop_of_none hfound, hmembers⟩

/-- A step comes to the first of the global members that are ahead, or if there is none, to the first of
the scope. -/
theorem advance_cases (h : cursor.advance read r = (some x, next)) :
    (∃ i scope, next = .inGlobals i scope ∧ i ≤ r.globals.length ∧
      cursor.globalsAhead r = x :: next.globalsAhead r ∧
      cursor.scopeAhead read r = next.scopeAhead read r) ∨
    (∃ i scope, next = .inScope i scope ∧ cursor.globalsAhead r = [] ∧
      cursor.scopeAhead read r = x :: next.scopeAhead read r) := by
  cases cursor with
  | unopened =>
      rcases ahead_of_stepGlobals h with ⟨i, rfl, hi, hmembers⟩ | ⟨i, scope, rfl, hnone, hmembers⟩
      · exact .inl ⟨i, _, rfl, hi, hmembers, rfl⟩
      · exact .inr ⟨i, scope, rfl, hnone, hmembers⟩
  | inGlobals _ scope =>
      rcases ahead_of_stepGlobals h with ⟨i, rfl, hi, hmembers⟩ | ⟨i, scope, rfl, hnone, hmembers⟩
      · exact .inl ⟨i, _, rfl, hi, hmembers, rfl⟩
      · exact .inr ⟨i, scope, rfl, hnone, hmembers⟩
  | inScope _ scope =>
      obtain ⟨i, rfl, hmembers⟩ := scopeAhead_of_stepScope h
      exact .inr ⟨i, scope, rfl, rfl, hmembers⟩
  | finished => cases h

end Cursor

namespace Turn

variable (d : Dispatcher σ ι κ ν τ) (turn : Turn σ ι ν τ)

/-- No global slot was removed or moved in the turn; slots may have been added after them. -/
def Appends : Prop := (d.registry turn.before).globals <+: (d.registry turn.after).globals

instance [DecidableEq ι] : Decidable (turn.Appends d) :=
  inferInstanceAs (Decidable (_ <+: _))

/-- The members that were added to the global ones in the turn. -/
def added : List ι :=
  ((d.registry turn.after).globals.drop (d.registry turn.before).globals.length).filterMap id

variable {d turn}

/-- What was added comes after the global members that were there. -/
theorem Appends.members_drop (h : turn.Appends d) {i : Nat}
    (hi : i ≤ (d.registry turn.before).globals.length) :
    ((d.registry turn.after).globals.drop i).filterMap id =
      ((d.registry turn.before).globals.drop i).filterMap id ++ turn.added d := by
  obtain ⟨extra, hextra⟩ := h
  rw [added, ← hextra, List.drop_append_of_le_length hi, List.drop_left, List.filterMap_append]

theorem Appends.globalMembers_after (h : turn.Appends d) :
    (d.registry turn.after).globalMembers = (d.registry turn.before).globalMembers ++ turn.added d :=
  h.members_drop (Nat.zero_le _)

/-- Where the global slots are left alone, nothing is added. -/
theorem appends_of_globals_eq
    (h : (d.registry turn.after).globals = (d.registry turn.before).globals) :
    turn.Appends d ∧ turn.added d = [] := by
  simp [Appends, added, h]

end Turn

open Run

namespace Dispatcher

variable (d : Dispatcher σ ι κ ν τ)

/-- The turns that global members have, out of the given ones, where so many of them are ahead. Whoever
is added in one of these turns is one of them. -/
def globalTurns : Nat → List (Turn σ ι ν τ) → List (Turn σ ι ν τ)
  | 0, _ | _ + 1, [] => []
  | ahead + 1, turn :: turns => turn :: globalTurns (ahead + (turn.added d).length) turns

/-- The members that a dispatch with given turns comes to if nobody stops it: the global members at the
start, those that were added before the global members had all had their turn, and the members of the
scope that was innermost at the start. -/
def liveView (s : σ) (turns : List (Turn σ ι ν τ)) : List ι :=
  let globals := (d.registry s).globalMembers
  globals ++ (d.globalTurns globals.length turns).flatMap (·.added d) ++ (d.registry s).localMembers d.read

/-- The same from a cursor on. -/
def awaited (cursor : Cursor κ) (s : σ) (turns : List (Turn σ ι ν τ)) : List ι :=
  let globals := cursor.globalsAhead (d.registry s)
  globals ++ (d.globalTurns globals.length turns).flatMap (·.added d) ++
    cursor.scopeAhead d.read (d.registry s)

theorem globalTurns_prefix (ahead : Nat) (turns : List (Turn σ ι ν τ)) :
    d.globalTurns ahead turns <+: turns := by
  induction turns generalizing ahead with
  | nil => cases ahead <;> exact List.nil_prefix
  | cons turn turns ih =>
      cases ahead with
      | zero => exact List.nil_prefix
      | succ ahead => exact (List.prefix_cons_inj turn).mpr (ih _)

variable {d} {s : σ}

/-- While nothing is added, the live view is the view. -/
theorem liveView_eq_view {turns : List (Turn σ ι ν τ)} (h : ∀ turn ∈ turns, turn.added d = []) :
    d.liveView s turns = (d.registry s).view d.read := by
  have hnothing : (d.globalTurns (d.registry s).globalMembers.length turns).flatMap (·.added d) = [] :=
    List.flatMap_eq_nil_iff.mpr fun turn hturn => h turn ((d.globalTurns_prefix _ turns).subset hturn)
  rw [liveView, hnothing, List.append_nil, Registry.view_eq_append]

section

variable {cursor next : Cursor κ} {extension : ι} {turn : Turn σ ι ν τ}

theorem awaited_of_advance_none (h : cursor.advance d.read (d.registry s) = (none, next)) :
    d.awaited cursor s [] = [] := by
  obtain ⟨hglobals, hscope⟩ := Cursor.ahead_of_advance_none h
  simp [awaited, globalTurns, hglobals, hscope]

/-- The first turn is that of the first one who is awaited, and after it the others are. -/
theorem awaited_cons (h : cursor.advance d.read (d.registry s) = (some extension, next))
    (hturn : d.HasTurn extension s turn) (happends : turn.Appends d) (turns : List (Turn σ ι ν τ)) :
    d.awaited cursor s (turn :: turns) = turn.extension :: d.awaited next turn.after turns := by
  obtain ⟨rfl, rfl, -⟩ := hturn
  rcases Cursor.advance_cases h with ⟨i, scope, rfl, hi, hglobals, hscope⟩ | ⟨i, scope, rfl, hglobals, hscope⟩
  · have hgrown : (Cursor.inGlobals i scope).globalsAhead (d.registry turn.after) =
        (Cursor.inGlobals i scope).globalsAhead (d.registry turn.before) ++ turn.added d :=
      happends.members_drop hi
    have hsame : (Cursor.inGlobals i scope).scopeAhead d.read (d.registry turn.after) =
        (Cursor.inGlobals i scope).scopeAhead d.read (d.registry turn.before) := rfl
    simp [awaited, globalTurns, hglobals, hscope, hgrown, hsame]
  · have hnone : (Cursor.inScope i scope).globalsAhead (d.registry turn.after) = [] := rfl
    have hsame : (Cursor.inScope i scope).scopeAhead d.read (d.registry turn.after) =
        (Cursor.inScope i scope).scopeAhead d.read (d.registry turn.before) := rfl
    simp [awaited, globalTurns, hglobals, hscope, hnone, hsame]

theorem prefix_awaited_cons (h : cursor.advance d.read (d.registry s) = (some extension, next))
    (hturn : d.HasTurn extension s turn) (turns : List (Turn σ ι ν τ))
    (hrest : (∀ turn ∈ turns, turn.Appends d) → turns.map (·.extension) <+: d.awaited next turn.after turns)
    (happends : ∀ other ∈ turn :: turns, other.Appends d) :
    (turn :: turns).map (·.extension) <+: d.awaited cursor s (turn :: turns) := by
  obtain ⟨hfirst, happends⟩ := List.forall_mem_cons.mp happends
  rw [awaited_cons h hturn hfirst, List.map_cons, List.prefix_cons_inj]
  exact hrest happends

theorem eq_awaited_cons (h : cursor.advance d.read (d.registry s) = (some extension, next))
    (hturn : d.HasTurn extension s turn) (turns : List (Turn σ ι ν τ))
    (hrest : (∀ turn ∈ turns, turn.Appends d) → turns.map (·.extension) = d.awaited next turn.after turns)
    (happends : ∀ other ∈ turn :: turns, other.Appends d) :
    (turn :: turns).map (·.extension) = d.awaited cursor s (turn :: turns) := by
  obtain ⟨hfirst, happends⟩ := List.forall_mem_cons.mp happends
  rw [awaited_cons h hturn hfirst, List.map_cons, hrest happends]

end

/-- What may come of consulting an extension in a traversal that keeps `I` as long as it goes on: it goes on
after one turn, it is stopped with `J`, or the turn fails with `E`. -/
def Takes (d : Dispatcher σ ι κ ν τ) (I J : List (Turn σ ι ν τ) → β → Prop)
    (E : List (Turn σ ι ν τ) → Halt → Prop) (extension : ι) (s : σ) (turns : List (Turn σ ι ν τ)) :
    EStateM.Result Halt (σ × List (Turn σ ι ν τ)) (Progress β) → Prop
  | .ok (.go b) r => ∃ turn, d.HasTurn extension s turn ∧ r = (turn.after, turns ++ [turn]) ∧
      I (turns ++ [turn]) b
  | .ok (.stop b) r => J r.2 b ∧ (r.2 = turns ∨ ∃ turn, d.HasTurn extension s turn ∧
      r.2 = turns ++ [turn])
  | .error halt r => ∃ turn, d.HasTurn extension s turn ∧ r.2 = turns ++ [turn] ∧
      E (turns ++ [turn]) halt

/-- Where an extension is invoked first, it has its one turn then. -/
theorem takes_bind {I J : List (Turn σ ι ν τ) → β → Prop} {E : List (Turn σ ι ν τ) → Halt → Prop}
    {extension : ι} {turns : List (Turn σ ι ν τ)} {call : HookCall ν τ}
    {k : call.Answer → Run (σ × List (Turn σ ι ν τ)) (Progress β)}
    (hgave : ∀ answer turn, d.HasTurn extension s turn → turn.Gave call answer →
      d.Takes I J E extension s turns (k answer (turn.after, turns ++ [turn])))
    (hfailed : ∀ halt turn, turn.Failed call halt → E (turns ++ [turn]) halt) :
    d.Takes I J E extension s turns ((d.overheard.invoke extension call >>= k) (s, turns)) := by
  rcases d.overheard_invoke_cases extension call s turns with
    ⟨answer, turn, hturn, hanswer, hinvoke⟩ | ⟨halt, turn, hturn, hhalt, hinvoke⟩
  · rw [bind_of_ok hinvoke]
    exact hgave answer turn hturn hanswer
  · rw [bind_of_error hinvoke]
    exact ⟨turn, hturn, rfl, hfailed halt turn hhalt⟩

/-- The turns of a traversal from a cursor on, whatever it is that it puts together. They are had one after
the other, by the first ones of those who are awaited. Unless the traversal is stopped, fails or is cut off,
these are all. -/
theorem consult_takes {I J : List (Turn σ ι ν τ) → β → Prop} {E : List (Turn σ ι ν τ) → Halt → Prop}
    {f : β → ι → Run (σ × List (Turn σ ι ν τ)) (Progress β)}
    (hf : ∀ b extension s turns, I turns b → d.Takes I J E extension s turns (f b extension (s, turns)))
    (limit : Nat) (cursor : Cursor κ) {b : β} {turns : List (Turn σ ι ν τ)} (hI : I turns b) :
    ∃ more, ((d.overheard.consult f limit cursor b).after (s, turns)).2 = turns ++ more ∧
      d.Succession s more ∧
      ((∀ turn ∈ more, turn.Appends d) → more.map (·.extension) <+: d.awaited cursor s more) ∧
      match d.overheard.consult f limit cursor b (s, turns) with
      | .ok b r => J (turns ++ more) b ∨ I (turns ++ more) b ∧ r.1 = leftBy s more ∧
          ((∀ turn ∈ more, turn.Appends d) → more.map (·.extension) = d.awaited cursor s more)
      | .error halt _ => E (turns ++ more) halt ∨
          halt = .exhausted ∧ more.length = limit ∧ ∃ b, I (turns ++ more) b := by
  induction limit generalizing cursor b s turns with
  | zero =>
      refine ⟨[], (List.append_nil _).symm, trivial, fun _ => List.nil_prefix, .inr ⟨rfl, rfl, b, ?_⟩⟩
      rwa [List.append_nil]
  | succ limit ih =>
      rcases hadvance : cursor.advance d.read (d.registry s) with ⟨_ | extension, next⟩
      · have hrun : d.overheard.consult f (limit + 1) cursor b (s, turns) = .ok b (s, turns) :=
          consult_of_none hadvance
        rw [after_of_ok hrun, hrun]
        refine ⟨[], (List.append_nil _).symm, trivial, fun _ => List.nil_prefix, .inr ⟨?_, rfl, fun _ => ?_⟩⟩
        · rwa [List.append_nil]
        · rw [awaited_of_advance_none hadvance, List.map_nil]
      · have hrun : d.overheard.consult f (limit + 1) cursor b (s, turns) = _ := consult_of_some hadvance
        have htakes := hf b extension s turns hI
        cases hprogress : f b extension (s, turns) with
        | error halt r =>
            rw [hprogress] at htakes
            obtain ⟨turn, hturn, hr, hE⟩ := htakes
            rw [bind_of_error hprogress] at hrun
            rw [after_of_error hrun, hrun]
            exact ⟨[turn], hr, ⟨hturn.before, hturn.isTurn, trivial⟩,
              prefix_awaited_cons hadvance hturn [] fun _ => List.nil_prefix, .inl hE⟩
        | ok progress r =>
            rw [hprogress] at htakes
            rw [bind_of_ok hprogress] at hrun
            cases progress with
            | stop b =>
                obtain ⟨hJ, hr⟩ := htakes
                replace hrun : d.overheard.consult f (limit + 1) cursor _ (s, turns) = .ok b r := hrun
                rw [after_of_ok hrun, hrun]
                rcases hr with hr | ⟨turn, hturn, hr⟩
                · refine ⟨[], hr.trans (List.append_nil _).symm, trivial, fun _ => List.nil_prefix,
                    .inl ?_⟩
                  rwa [List.append_nil, ← hr]
                · refine ⟨[turn], hr, ⟨hturn.before, hturn.isTurn, trivial⟩,
                    prefix_awaited_cons hadvance hturn [] fun _ => List.nil_prefix, .inl ?_⟩
                  rwa [← hr]
            | go b =>
                obtain ⟨turn, hturn, rfl, hI⟩ := htakes
                obtain ⟨more, hafter, hsuccession, hprefix, hends⟩ := ih (s := turn.after) next hI
                replace hrun : d.overheard.consult f (limit + 1) cursor _ (s, turns) =
                    d.overheard.consult f limit next b (turn.after, turns ++ [turn]) := hrun
                rw [List.append_assoc] at hafter hends
                rw [Run.after, hrun]
                refine ⟨turn :: more, hafter, ⟨hturn.before, hturn.isTurn, hsuccession⟩,
                  prefix_awaited_cons hadvance hturn more hprefix, ?_⟩
                cases hrest : d.overheard.consult f limit next b (turn.after, turns ++ [turn]) with
                | ok b r =>
                    rw [hrest] at hends
                    rcases hends with hJ | ⟨hI, hleft, hall⟩
                    · exact .inl hJ
                    · exact .inr ⟨hI, hleft, eq_awaited_cons hadvance hturn more hall⟩
                | error halt r =>
                    rw [hrest] at hends
                    rcases hends with hE | ⟨hexhausted, hlength, hI⟩
                    · exact .inl hE
                    · exact .inr ⟨hexhausted, congrArg (· + 1) hlength, hI⟩

/-- A whole traversal. As long as no slot is removed, those who have their turns are the first ones of the live
view, and unless it is stopped or somebody fails, all of them. It is cut off only if there are more of them
than it may consult. -/
theorem consultAll_takes {I J : List (Turn σ ι ν τ) → β → Prop} {E : List (Turn σ ι ν τ) → Halt → Prop}
    {f : β → ι → Run (σ × List (Turn σ ι ν τ)) (Progress β)} {start : β}
    {m : Run (σ × List (Turn σ ι ν τ)) β} {m' : Run σ β} (hm : m = d.overheard.consultAll start f)
    (hm' : Accompanies m m') {turns : List (Turn σ ι ν τ)} (hturns : (m.after (s, [])).2 = turns)
    (hf : ∀ b extension s turns, I turns b → d.Takes I J E extension s turns (f b extension (s, turns)))
    (hI : I [] start) (happends : ∀ turn ∈ turns, turn.Appends d) :
    d.Succession s turns ∧ turns.map (·.extension) <+: d.liveView s turns ∧
      match m' s with
      | .ok b t => J turns b ∨ I turns b ∧ turns.map (·.extension) = d.liveView s turns ∧ t = leftBy s turns
      | .error halt _ => E turns halt ∨
          halt = .exhausted ∧ d.limit < (d.liveView s turns).length ∧ ∃ b, I turns b := by
  obtain ⟨more, hafter, hsuccession, hprefix, hends⟩ :=
    consult_takes (s := s) hf (d.overheard.limit + 1) .unopened hI
  subst hm
  obtain rfl : turns = more := hturns.symm.trans hafter
  have hview := hprefix happends
  refine ⟨hsuccession, hview, ?_⟩
  rw [← hm' s []]
  unfold consultAll
  cases hrun : d.overheard.consult f (d.overheard.limit + 1) .unopened start (s, []) with
  | ok b r =>
      rw [hrun] at hends
      exact hends.imp_right fun ⟨hI, hleft, hall⟩ => ⟨hI, hall happends, hleft⟩
  | error halt r =>
      rw [hrun] at hends
      refine hends.imp_right fun ⟨hexhausted, hlength, hI⟩ => ⟨hexhausted, ?_, hI⟩
      have hle := hview.length_le
      rw [List.length_map, hlength] at hle
      exact hle

end Dispatcher

end ExtensibleCheck
