import ExtensibleCheck.Proofs.Dispatch.Questions

/-! News. They reach the global extensions, those that are brought along until the last of these had its turn,
and the extensions of the scope. Whoever is brought along by an extension of the scope comes too late: it is
a global extension in the end, but the news went past it. -/

namespace ExtensibleCheck

open Run

variable {σ ι κ ν τ : Type}

namespace Dispatcher

variable {d : Dispatcher σ ι κ ν τ} {notice : Notice ν τ} {s : σ}

/-- Nobody has a turn while the news are announced. -/
theorem turns_after_announce (count : Nat) (notice : Notice ν τ) (s : σ) (turns : List (Turn σ ι ν τ)) :
    ((d.overheard.announce count notice).after (s, turns)).2 = turns := by
  unfold announce
  cases summary? count notice with
  | none => rfl
  | some line =>
      simp only [Run.after, overheard_say]
      cases d.say line s <;> rfl

/-- The turns are those of the round. -/
theorem transcript_notify (d : Dispatcher σ ι κ ν τ) (notice : Notice ν τ) (s : σ) :
    d.transcript (.notify notice) s = ((d.overheard.round notice).after (s, [])).2 := by
  show ((d.overheard.notify notice).after (s, [])).2 = _
  rw [notify_eq_round]
  cases hround : d.overheard.round notice (s, []) with
  | error halt r => rw [after_of_error (bind_of_error hround), after_of_error hround]
  | ok count r =>
      rw [Run.after, bind_of_ok hround, after_of_ok hround]
      exact turns_after_announce count notice r.1 r.2

theorem Speaks.announce (h : d.Speaks) (count : Nat) (notice : Notice ν τ) (s : σ) :
    ∃ t, d.announce count notice s = .ok () t ∧ d.registry t = d.registry s := by
  unfold Dispatcher.announce
  cases summary? count notice with
  | some line => exact h line s
  | none => exact ⟨s, rfl, rfl⟩

/-- Whoever is told counts, and the next one is told. -/
theorem takes_round (notice : Notice ν τ) (count : Nat) (extension : ι) (s : σ) (turns : List (Turn σ ι ν τ))
    (hI : ∀ turn ∈ turns, turn.Gave (.notify notice) ()) :
    d.Takes (fun turns _ => ∀ turn ∈ turns, turn.Gave (.notify notice) ()) (fun _ _ => False)
      (fun turns halt => Culminates (·.Gave (.notify notice) ()) (·.Failed (.notify notice) halt) turns)
      extension s turns
      ((do
        d.overheard.invoke extension (.notify notice)
        return .go (count + 1) : Run _ (Progress Nat)) (s, turns)) := by
  refine takes_bind (fun _ turn hturn hgave => ?_) fun halt turn hfailed => .concat hI hfailed
  exact ⟨turn, hturn, rfl, List.forall_mem_append.mpr ⟨hI, List.forall_mem_singleton.mpr hgave⟩⟩

/-- Where there are turns enough, each of those who were ahead has one, and each who was added meanwhile. -/
theorem length_globalTurns {ahead : Nat} {turns : List (Turn σ ι ν τ)}
    (h : ahead + ((d.globalTurns ahead turns).flatMap (·.added d)).length ≤ turns.length) :
    (d.globalTurns ahead turns).length =
      ahead + ((d.globalTurns ahead turns).flatMap (·.added d)).length := by
  induction turns generalizing ahead with
  | nil =>
      cases ahead with
      | zero => rfl
      | succ ahead =>
          rw [List.length_nil] at h
          omega
  | cons turn turns ih =>
      cases ahead with
      | zero => rfl
      | succ ahead =>
          simp only [globalTurns, List.flatMap_cons, List.length_append, List.length_cons] at h ⊢
          have hrest : (d.globalTurns (ahead + (turn.added d).length) turns).length = _ := ih (by omega)
          omega

/-- The global members after some turns in which none was removed. -/
theorem Succession.globalMembers_leftBy {turns : List (Turn σ ι ν τ)} (h : d.Succession s turns)
    (happends : ∀ turn ∈ turns, turn.Appends d) :
    (d.registry (leftBy s turns)).globalMembers =
      (d.registry s).globalMembers ++ turns.flatMap (·.added d) := by
  induction turns generalizing s with
  | nil => exact (List.append_nil _).symm
  | cons turn turns ih =>
      obtain ⟨rfl, -, hrest⟩ := h
      obtain ⟨hfirst, happends⟩ := List.forall_mem_cons.mp happends
      rw [leftBy, ih hrest happends, hfirst.globalMembers_after, List.flatMap_cons, List.append_assoc]

/-- Once everybody in the live view had a turn, the first turns are those of the global members, each who was
added meanwhile included, and the others are those of the scope. -/
theorem exists_late {turns : List (Turn σ ι ν τ)} (hall : turns.map (·.extension) = d.liveView s turns) :
    let globals := (d.registry s).globalMembers
    let first := d.globalTurns globals.length turns
    ∃ late, turns = first ++ late ∧ first.map (·.extension) = globals ++ first.flatMap (·.added d) ∧
      late.map (·.extension) = (d.registry s).localMembers d.read := by
  intro globals first
  replace hall : turns.map (·.extension) =
      globals ++ first.flatMap (·.added d) ++ (d.registry s).localMembers d.read := hall
  have henough : globals.length + (first.flatMap (·.added d)).length ≤ turns.length := by
    have hcount := congrArg List.length hall
    simp only [List.length_map, List.length_append] at hcount
    omega
  have hlength : (first.map (·.extension)).length = (globals ++ first.flatMap (·.added d)).length := by
    rw [List.length_map, List.length_append]
    exact length_globalTurns henough
  obtain ⟨late, hlate⟩ : first <+: turns := d.globalTurns_prefix globals.length turns
  rw [← hlate, List.map_append] at hall
  exact ⟨late, hlate.symm, List.append_inj hall hlength⟩

/-- After such turns, everybody who was there at the start or was added has had one for each time, unless
somebody was added late. -/
theorem perm_view_iff {first late : List (Turn σ ι ν τ)}
    (hfirst : first.map (·.extension) = (d.registry s).globalMembers ++ first.flatMap (·.added d))
    (hscope : late.map (·.extension) = (d.registry s).localMembers d.read) :
    ((first ++ late).map (·.extension)).Perm
        ((d.registry s).view d.read ++ (first ++ late).flatMap (·.added d)) ↔
      late.flatMap (·.added d) = [] := by
  rw [List.map_append, hfirst, hscope, List.flatMap_append, Registry.view_eq_append]
  constructor
  · intro hperm
    have hcount := hperm.length_eq
    simp only [List.length_append] at hcount
    exact List.length_eq_zero_iff.mp (by omega)
  · intro hnobody
    rw [hnobody, List.append_nil, List.append_assoc, List.append_assoc]
    exact List.perm_append_comm.append_left _

/-- The news reach everybody who is there at the start, as often as it is in the view, and everybody who is
brought along by a global extension, as often as that happens, as long as no global slot is removed: these
have their turns first, and those of the scope after them. Whoever is brought along by one of the latter is
a global extension in the end as well. So everybody who is brought along gets the news if and only if nobody
in the scope brings anyone. If an extension fails, it is the last one that was told, and a dispatch is cut
off only if more are to be told than it may. -/
theorem notify_reaches (d : Dispatcher σ ι κ ν τ) (hspeaks : d.Speaks) (notice : Notice ν τ) (s : σ)
    (happends : ∀ turn ∈ d.transcript (.notify notice) s, turn.Appends d) :
    let turns := d.transcript (.notify notice) s
    let globals := (d.registry s).globalMembers
    let first := d.globalTurns globals.length turns
    d.Succession s turns ∧ turns.map (·.extension) <+: d.liveView s turns ∧
      match d.notify notice s with
      | .ok _ t => (∀ turn ∈ turns, turn.Gave (.notify notice) ()) ∧
          ∃ late, turns = first ++ late ∧
            first.map (·.extension) = globals ++ first.flatMap (·.added d) ∧
            late.map (·.extension) = (d.registry s).localMembers d.read ∧
            (d.registry t).globalMembers =
              globals ++ first.flatMap (·.added d) ++ late.flatMap (·.added d) ∧
            ((turns.map (·.extension)).Perm ((d.registry s).view d.read ++ turns.flatMap (·.added d)) ↔
              late.flatMap (·.added d) = [])
      | .error halt _ =>
        Culminates (·.Gave (.notify notice) ()) (·.Failed (.notify notice) halt) turns ∨
          halt = .exhausted ∧ d.limit < (d.liveView s turns).length := by
  intro turns globals first
  obtain ⟨hsuccession, hview, hends⟩ := consultAll_takes (m := d.overheard.round notice) rfl
    (d.overheard_round_accompanies notice) (show _ = turns from (d.transcript_notify notice s).symm)
    (takes_round notice) (List.forall_mem_nil _) happends
  refine ⟨hsuccession, hview, ?_⟩
  cases hround : d.round notice s with
  | error halt r =>
      rw [hround] at hends
      rw [notify_eq_round, bind_of_error hround]
      exact hends.imp_right fun ⟨hexhausted, hlimit, _⟩ => ⟨hexhausted, hlimit⟩
  | ok count r =>
      obtain ⟨t, hannounced, hregistry⟩ := hspeaks.announce count notice r
      rw [hround] at hends
      rw [notify_eq_round, bind_of_ok hround, hannounced]
      obtain ⟨hgave, hall, hleft⟩ := hends.resolve_left id
      obtain ⟨late, hlate, hfirst, hscope⟩ := exists_late hall
      have hadded : turns.flatMap (·.added d) = first.flatMap (·.added d) ++ late.flatMap (·.added d) := by
        rw [← List.flatMap_append, ← hlate]
      refine ⟨hgave, late, hlate, hfirst, hscope, ?_, ?_⟩
      · rw [hregistry, hleft, hsuccession.globalMembers_leftBy happends, hadded, List.append_assoc]
      · have htold := perm_view_iff hfirst hscope
        rwa [← hlate] at htold

open Network in
/-- Extension 1 is set up in front of the scope, since 0 brings it along. -/
theorem notify_reaches_recruiter :
    let turns := recruiter.transcript (.notify .setup) recruits
    recruiter.Speaks ∧ (∀ turn ∈ turns, turn.Appends recruiter) ∧
      ∃ t, recruiter.notify .setup recruits = .ok () t ∧ ∃ first late, turns = first ++ late ∧
        first.map (·.extension) = [.extension 0, .extension 1] ∧
        late.map (·.extension) = [.extension 2, .extension 4] ∧
        (recruiter.registry t).globalMembers =
          [.extension 0] ++ first.flatMap (·.added recruiter) ++ late.flatMap (·.added recruiter) := by
  intro turns
  have hspeaks : recruiter.Speaks := dispatcherAt_speaks _ _ _
  have happends : ∀ turn ∈ turns, turn.Appends recruiter := by decide +kernel
  have hfinishes : (recruiter.notify .setup).finishes recruits := by decide +kernel
  obtain ⟨⟨⟩, hrun⟩ := exists_of_finishes hfinishes
  obtain ⟨-, -, hends⟩ := recruiter.notify_reaches hspeaks .setup recruits happends
  rw [hrun] at hends
  obtain ⟨-, late, hlate, -, hscope, hend, -⟩ := hends
  have hglobals : (recruiter.globalTurns (recruiter.registry recruits).globalMembers.length turns).map
      (·.extension) = [.extension 0, .extension 1] := by decide +kernel
  have hlocals : (recruiter.registry recruits).localMembers recruiter.read =
      [.extension 2, .extension 4] := by decide +kernel
  exact ⟨hspeaks, happends, _, hrun, _, late, hlate, hglobals, hscope.trans hlocals, hend⟩

open Network in
/-- Extension 3 is never set up, since it is 2 in the scope that brings it along. -/
theorem setup_missesLatecomer :
    let turns := recruiter.transcript (.notify .setup) recruits
    let setup := recruiter.notify .setup
    (recruiter.registry recruits).depth = 1 ∧ setup.finishes recruits ∧
      (∀ turn ∈ turns, turn.Appends recruiter) ∧
      (recruiter.registry (setup.after recruits)).globalMembers =
        [.extension 0, .extension 1, .extension 3] ∧
      turns.map (·.extension) = [.extension 0, .extension 1, .extension 2, .extension 4] := by
  decide +kernel

end Dispatcher

end ExtensibleCheck
