import ExtensibleCheck.Proofs.Dispatch.Questions
import Mathlib.Data.List.Forall2

/-! Candidates. Those for an ambiguous call are handed from one extension to the next until there is no choice
left; those for a missing method are collected from everybody, and each of them gets an owner. -/

namespace ExtensibleCheck

open Run

variable {σ ι κ ν τ : Type}

namespace Candidate

theorem owned_of_owner {c : Candidate τ} (h : c.owner ≠ none) : c.owned = c := by
  obtain ⟨owner, howner⟩ := Option.ne_none_iff_exists'.mp h
  unfold owned
  rw [howner, Option.getD_some, ← howner]

theorem owned_of_none {c : Candidate τ} (h : c.owner = none) :
    c.owned = { c with owner := some .object } := by
  unfold owned
  rw [h, Option.getD_none]

/-- Who has an owner keeps it. -/
theorem owned_owned (c : Candidate τ) : c.owned.owned = c.owned :=
  owned_of_owner (Option.some_ne_none _)

end Candidate

namespace Turn

/-- The candidates that the extension was offered and those that it left, if there were any to be narrowed. -/
def narrowing? : Turn σ ι ν τ → Option (List (Candidate τ) × List (Candidate τ))
  | ⟨_, .narrow offered _, _, .ok left _⟩ => some (offered, left)
  | _ => none

theorem Gave.narrowing?_eq {turn : Turn σ ι ν τ} {offered left : List (Candidate τ)} {origin : ν}
    (h : turn.Gave (.narrow offered origin) left) : turn.narrowing? = some (offered, left) := by
  rw [h]
  rfl

end Turn

/-- Each turn was on the candidates that the one before it left, of which there were several. -/
inductive Narrows (origin : ν) :
    List (Candidate τ) → List (Turn σ ι ν τ) → List (Candidate τ) → Prop
  | nil (candidates : List (Candidate τ)) : Narrows origin candidates [] candidates
  | cons {offered left final : List (Candidate τ)} {turn : Turn σ ι ν τ} {turns : List (Turn σ ι ν τ)} :
    1 < offered.length → turn.Gave (.narrow offered origin) left → Narrows origin left turns final →
      Narrows origin offered (turn :: turns) final

namespace Narrows

variable {origin : ν} {candidates left final : List (Candidate τ)} {turns : List (Turn σ ι ν τ)}
  {turn : Turn σ ι ν τ}

theorem concat (h : Narrows origin candidates turns left) (hseveral : 1 < left.length)
    (hgave : turn.Gave (.narrow left origin) final) : Narrows origin candidates (turns ++ [turn]) final := by
  induction h with
  | nil candidates => exact .cons hseveral hgave (.nil final)
  | cons hoffered hfirst _ ih => exact .cons hoffered hfirst (ih hseveral hgave)

theorem turns_of_short (h : Narrows origin candidates turns left) (hshort : candidates.length ≤ 1) :
    turns = [] := by
  cases h with
  | nil => rfl
  | cons hseveral => omega

/-- If every extension leaves candidates out and keeps the rest in order, so do all together. -/
theorem sublist (h : Narrows origin candidates turns final)
    (hsublist : ∀ turn ∈ turns, ∀ offered left, turn.Gave (.narrow offered origin) left →
      left.Sublist offered) : final.Sublist candidates := by
  induction h with
  | nil candidates => exact List.Sublist.refl candidates
  | cons _ hgave _ ih =>
      obtain ⟨hfirst, hrest⟩ := List.forall_mem_cons.mp hsublist
      exact (ih hrest).trans (hfirst _ _ hgave)

/-- If every extension leaves out one candidate, one is left out in each turn, but never the last one. -/
theorem length_eq (h : Narrows origin candidates turns final)
    (hone : ∀ turn ∈ turns, ∀ offered left, turn.Gave (.narrow offered origin) left →
      left.length + 1 = offered.length) (hcandidates : 1 ≤ candidates.length) :
    final.length + turns.length = candidates.length ∧ 1 ≤ final.length := by
  induction h with
  | nil candidates => exact ⟨rfl, hcandidates⟩
  | @cons offered left final turn turns hseveral hgave _ ih =>
      obtain ⟨hfirst, hrest⟩ := List.forall_mem_cons.mp hone
      have hleft := hfirst _ _ hgave
      have hfinal := ih hrest (by omega)
      rw [List.length_cons]
      omega

end Narrows

namespace Dispatcher

variable {d : Dispatcher σ ι κ ν τ} {s : σ}

/-- Where there is a choice, the next extension has a turn on it. -/
theorem takes_narrow (candidates : List (Candidate τ)) (origin : ν) (left : List (Candidate τ))
    (extension : ι) (s : σ) (turns : List (Turn σ ι ν τ)) (hI : Narrows origin candidates turns left) :
    d.Takes (Narrows origin candidates)
      (fun turns left => Narrows origin candidates turns left ∧ left.length ≤ 1)
      (fun turns halt => ∃ front last offered, turns = front ++ [last] ∧
        Narrows origin candidates front offered ∧ 1 < offered.length ∧
        last.Failed (.narrow offered origin) halt)
      extension s turns
      ((if left.length ≤ 1 then return .stop left
        else return .go (← d.overheard.invoke extension (.narrow left origin)) :
          Run _ (Progress (List (Candidate τ)))) (s, turns)) := by
  by_cases hshort : left.length ≤ 1
  · rw [if_pos hshort]
    exact ⟨⟨hI, hshort⟩, .inl rfl⟩
  · have hseveral := Nat.lt_of_not_le hshort
    rw [if_neg hshort]
    refine takes_bind (fun answer turn hturn hgave => ?_) fun halt turn hfailed => ?_
    · exact ⟨turn, hturn, rfl, hI.concat hseveral hgave⟩
    · exact ⟨turns, turn, left, rfl, hI, hseveral, hfailed⟩

/-- The candidates are handed on: as long as the extensions leave the global slots alone, the first ones of the
view are asked, each for what the one before it left, until at most one candidate is left or everybody was
asked. If they only leave candidates out, so does the dispatch; and if each of them leaves out one, then one
is left out for each extension, up to the last candidate but one. If an extension fails, it is the last one
that was asked, and a dispatch is cut off only if the view is longer than it may be. -/
theorem narrow_threads (d : Dispatcher σ ι κ ν τ) (candidates : List (Candidate τ)) (origin : ν) (s : σ)
    (hcalm : ∀ turn ∈ d.transcript (.narrow candidates origin) s,
      (d.registry turn.after).globals = (d.registry turn.before).globals) :
    let turns := d.transcript (.narrow candidates origin) s
    let view := (d.registry s).view d.read
    d.Succession s turns ∧ turns.map (·.extension) = view.take turns.length ∧
      match d.narrow candidates origin s with
      | .ok final _ => Narrows origin candidates turns final ∧
          (final.length ≤ 1 ∨ turns.length = view.length) ∧
          (candidates.length ≤ 1 → turns = [] ∧ final = candidates) ∧
          ((∀ turn ∈ turns, ∀ offered left, turn.Gave (.narrow offered origin) left →
            left.Sublist offered) → final.Sublist candidates) ∧
          ((∀ turn ∈ turns, ∀ offered left, turn.Gave (.narrow offered origin) left →
            left.length + 1 = offered.length) → 1 ≤ candidates.length →
            final.length = max 1 (candidates.length - view.length) ∧
              turns.length = min view.length (candidates.length - 1))
      | .error halt _ =>
        (∃ front last offered, turns = front ++ [last] ∧ Narrows origin candidates front offered ∧
          1 < offered.length ∧ last.Failed (.narrow offered origin) halt) ∨
          halt = .exhausted ∧ d.limit < view.length := by
  intro turns view
  have hstays (turn) (hturn : turn ∈ turns) := Turn.appends_of_globals_eq (hcalm turn hturn)
  have hlive : d.liveView s turns = view := liveView_eq_view fun turn hturn => (hstays turn hturn).2
  have haccompanies : Accompanies (d.overheard.narrow candidates origin) (d.narrow candidates origin) :=
    d.overheard_dispatch_accompanies (.narrow candidates origin)
  obtain ⟨hsuccession, hview, hends⟩ := consultAll_takes rfl haccompanies (show _ = turns from rfl)
    (takes_narrow candidates origin) (.nil candidates) fun turn hturn => (hstays turn hturn).1
  rw [hlive] at hview hends
  have hasked : turns.map (·.extension) = view.take turns.length := by
    rw [List.prefix_iff_eq_take.mp hview, List.length_map]
  have hcount : turns.length ≤ view.length := by
    simpa using hview.length_le
  refine ⟨hsuccession, hasked, ?_⟩
  cases hrun : d.narrow candidates origin s with
  | ok final t =>
      rw [hrun] at hends
      obtain ⟨hnarrows, hend⟩ : Narrows origin candidates turns final ∧
          (final.length ≤ 1 ∨ turns.length = view.length) := by
        rcases hends with ⟨hnarrows, hshort⟩ | ⟨hnarrows, hall, -⟩
        · exact ⟨hnarrows, .inl hshort⟩
        · refine ⟨hnarrows, .inr ?_⟩
          simpa using congrArg List.length hall
      refine ⟨hnarrows, hend, fun hshort => ?_, hnarrows.sublist, fun hone hcandidates => ?_⟩
      · have hnone := hnarrows.turns_of_short hshort
        rw [hnone] at hnarrows
        cases hnarrows
        exact ⟨hnone, rfl⟩
      · obtain ⟨hlength, hsome⟩ := hnarrows.length_eq hone hcandidates
        omega
  | error halt t =>
      rw [hrun] at hends
      exact hends.imp_right fun ⟨hexhausted, hlimit, _⟩ => ⟨hexhausted, hlimit⟩

open Network in
/-- Three candidates before three extensions, each of which leaves out the first one: the third extension is
not asked any more. -/
theorem narrow_threads_recruiter :
    let candidates : List (Candidate Unit) := [{ name := "find" }, { name := "findAll" }, { name := "findAny" }]
    let turns := recruiter.transcript (.narrow candidates ()) recruits
    (∀ turn ∈ turns, (recruiter.registry turn.after).globals = (recruiter.registry turn.before).globals) ∧
      (recruiter.registry recruits).view recruiter.read = [.extension 0, .extension 2, .extension 4] ∧
      turns.map (·.extension) = [.extension 0, .extension 2] ∧
      (∀ turn ∈ turns, ∀ offered left, turn.Gave (.narrow offered ()) left →
        left.length + 1 = offered.length) ∧
      ∃ final t, recruiter.narrow candidates () recruits = .ok final t ∧
        Narrows () candidates turns final ∧ final.length = 1 := by
  intro candidates turns
  have hcalm : ∀ turn ∈ turns,
      (recruiter.registry turn.after).globals = (recruiter.registry turn.before).globals := by
    decide +kernel
  have hview : (recruiter.registry recruits).view recruiter.read =
      [.extension 0, .extension 2, .extension 4] := by decide +kernel
  have hone : ∀ turn ∈ turns, ∀ offered left, turn.Gave (.narrow offered ()) left →
      left.length + 1 = offered.length := by
    have hnarrowings : ∀ turn ∈ turns, ∀ narrowing ∈ turn.narrowing?,
        narrowing.2.length + 1 = narrowing.1.length := by decide +kernel
    intro turn hturn offered left hgave
    exact hnarrowings turn hturn (offered, left) hgave.narrowing?_eq
  have hfinishes : (recruiter.narrow candidates ()).finishes recruits := by decide +kernel
  obtain ⟨final, hrun⟩ := exists_of_finishes hfinishes
  obtain ⟨-, hasked, hends⟩ := recruiter.narrow_threads candidates () recruits hcalm
  rw [hrun] at hends
  obtain ⟨hnarrows, -, -, -, hcount⟩ := hends
  obtain ⟨hfinal, hturns⟩ := hcount hone (by decide)
  rw [hview] at hasked hfinal hturns
  refine ⟨hcalm, hview, ?_, hone, final, _, hrun, hnarrows, hfinal⟩
  rw [hasked, hturns]
  rfl

/-- The turns in which extensions contributed, with what they did. -/
abbrev Contributes (missing : MissingMethod ν τ) :
    List (Turn σ ι ν τ) → List (List (Candidate τ)) → Prop :=
  List.Forall₂ fun turn contributed => turn.Gave (.contribute missing) contributed

theorem Contributes.exists_gave {missing : MissingMethod ν τ} {turns : List (Turn σ ι ν τ)}
    {contributions : List (List (Candidate τ))} (h : Contributes missing turns contributions) :
    ∀ turn ∈ turns, ∃ contributed, turn.Gave (.contribute missing) contributed := by
  induction h with
  | nil => exact List.forall_mem_nil _
  | cons hgave _ ih => exact List.forall_mem_cons.mpr ⟨⟨_, hgave⟩, ih⟩

/-- Whoever is asked contributes, and the next one is asked. -/
theorem takes_contribute (missing : MissingMethod ν τ) (found : List (Candidate τ)) (extension : ι) (s : σ)
    (turns : List (Turn σ ι ν τ)) (hI : ∃ contributions, Contributes missing turns contributions ∧
      found = contributions.flatten.map Candidate.owned) :
    d.Takes (fun turns found => ∃ contributions, Contributes missing turns contributions ∧
        found = contributions.flatten.map Candidate.owned)
      (fun _ _ => False)
      (fun turns halt => Culminates (fun turn => ∃ contributed, turn.Gave (.contribute missing) contributed)
        (·.Failed (.contribute missing) halt) turns)
      extension s turns
      ((do
        let contributed ← d.overheard.invoke extension (.contribute missing)
        return .go (found ++ contributed.map Candidate.owned) :
          Run _ (Progress (List (Candidate τ)))) (s, turns)) := by
  obtain ⟨contributions, hcontributes, rfl⟩ := hI
  refine takes_bind (fun contributed turn hturn hgave => ?_) fun halt turn hfailed => ?_
  · refine ⟨turn, hturn, rfl, contributions ++ [contributed], ?_, ?_⟩
    · exact List.rel_append hcontributes (.cons hgave .nil)
    · simp
  · exact .concat hcontributes.exists_gave hfailed

/-- Everybody contributes: whatever extensions register meanwhile, as long as they remove none, all of the live
view are asked about the very method. The answer is what they contributed, in the order in which they were
asked. Who has an owner is left as it is, all others have `Object` for their owner and are otherwise as they
were; so all have an owner, and to see to it again changes nothing. The dispatch leaves the state as the last
extension did. If an extension fails, it is the last one that was asked, and a dispatch is cut off only if
more are to be asked than it may. -/
theorem contribute_collects (d : Dispatcher σ ι κ ν τ) (missing : MissingMethod ν τ) (s : σ)
    (happends : ∀ turn ∈ d.transcript (.contribute missing) s, turn.Appends d) :
    let turns := d.transcript (.contribute missing) s
    d.Succession s turns ∧ turns.map (·.extension) <+: d.liveView s turns ∧
      match d.contribute missing s with
      | .ok found t => turns.map (·.extension) = d.liveView s turns ∧ t = leftBy s turns ∧
          (∃ contributions, Contributes missing turns contributions ∧
            List.Forall₂ (fun c c' => (c.owner ≠ none → c' = c) ∧
              (c.owner = none → c' = { c with owner := some .object })) contributions.flatten found) ∧
          (∀ c ∈ found, c.owner ≠ none) ∧ found.map Candidate.owned = found
      | .error halt _ =>
        Culminates (fun turn => ∃ contributed, turn.Gave (.contribute missing) contributed)
          (·.Failed (.contribute missing) halt) turns ∨
          halt = .exhausted ∧ d.limit < (d.liveView s turns).length := by
  intro turns
  have haccompanies : Accompanies (d.overheard.contribute missing) (d.contribute missing) :=
    d.overheard_dispatch_accompanies (.contribute missing)
  obtain ⟨hsuccession, hview, hends⟩ := consultAll_takes rfl haccompanies rfl (takes_contribute missing)
    ⟨[], .nil, rfl⟩ happends
  refine ⟨hsuccession, hview, ?_⟩
  cases hrun : d.contribute missing s with
  | ok found t =>
      rw [hrun] at hends
      obtain ⟨⟨contributions, hcontributes, rfl⟩, hall, hleft⟩ := hends.resolve_left id
      refine ⟨hall, hleft, ⟨contributions, hcontributes, ?_⟩, fun c hc => ?_, ?_⟩
      · refine List.forall₂_map_right_iff.mpr (List.forall₂_same.mpr fun c _ => ?_)
        exact ⟨Candidate.owned_of_owner, Candidate.owned_of_none⟩
      · obtain ⟨c, -, rfl⟩ := List.mem_map.mp hc
        exact Option.some_ne_none _
      · rw [List.map_map]
        exact List.map_congr_left fun c _ => c.owned_owned
  | error halt t =>
      rw [hrun] at hends
      exact hends.imp_right fun ⟨hexhausted, hlimit, _⟩ => ⟨hexhausted, hlimit⟩

open Network in
/-- Extension 1 contributes too, which 0 brings along, and extension 3 does not, which 2 brings along. -/
theorem contribute_collects_recruiter :
    let missing : MissingMethod Unit Unit :=
      { receiver := (), name := "find", arguments := [], argumentTypes := [], call := () }
    let turns := recruiter.transcript (.contribute missing) recruits
    (∀ turn ∈ turns, turn.Appends recruiter) ∧
      turns.map (·.extension) = [.extension 0, .extension 1, .extension 2, .extension 4] ∧
      ∃ found t, recruiter.contribute missing recruits = .ok found t ∧
        (∃ contributions, Contributes missing turns contributions ∧
          contributions.flatten.length = found.length) ∧
        ∀ c ∈ found, c.owner ≠ none := by
  intro missing turns
  have happends : ∀ turn ∈ turns, turn.Appends recruiter := by decide +kernel
  have hlive : recruiter.liveView recruits turns =
      [.extension 0, .extension 1, .extension 2, .extension 4] := by decide +kernel
  have hfinishes : (recruiter.contribute missing).finishes recruits := by decide +kernel
  obtain ⟨found, hrun⟩ := exists_of_finishes hfinishes
  obtain ⟨-, -, hends⟩ := recruiter.contribute_collects missing recruits happends
  rw [hrun] at hends
  obtain ⟨hall, -, ⟨contributions, hcontributes, hfound⟩, howners, -⟩ := hends
  exact ⟨happends, hall.trans hlive, found, _, hrun, ⟨contributions, hcontributes, hfound.length_eq⟩,
    howners⟩

end Dispatcher

end ExtensibleCheck
