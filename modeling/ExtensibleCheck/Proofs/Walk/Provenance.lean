import ExtensibleCheck.Proofs.Walk.Reasons
import ExtensibleCheck.Proofs.Walk.Resolution
import ExtensibleCheck.Proofs.Walk.Typing

/-! Where methods come from that no declaration stands for. Extensions make them up: either one of them
contributes the method when it is missing, and then the method gets an owner if it has none, or one of
them names it when several are to be narrowed, and then the method is what that extension made of it. -/

namespace ExtensibleCheck

open Run Session SessionState

namespace Checker

variable {ι μ : Type} [DecidableEq ι]

/-- Where the method that an extension made up for a call comes from, as the journal tells. -/
inductive Provenance (c : Checker ι μ) (journal : List (Event ι)) (call : Occurrence)
    (target : Candidate CheckedType) : Prop
  /-- An extension contributed it, and it got `Object` for its owner if it came without one. -/
  | contributed {e missing contributed d} : missing.call = call →
      c.Gave journal e (.contribute missing) contributed → d ∈ contributed → target = d.owned →
      Provenance c journal call target
  /-- An extension left nothing else when there were several to choose from. -/
  | left {e found} : 1 < found.length → c.Gave journal e (.narrow found call) [target] →
      Provenance c journal call target

variable {c : Checker ι μ} {journal journal' : List (Event ι)} {call : Occurrence}
  {target : Candidate CheckedType}

theorem Provenance.mono (h : c.Provenance journal call target) (hlater : journal <+: journal') :
    c.Provenance journal' call target := by
  cases h with
  | contributed hcall hgave hd htarget => exact .contributed hcall (hgave.mono hlater) hd htarget
  | left hseveral hgave => exact .left hseveral (hgave.mono hlater)

/-- A method that came without an owner and was contributed has one. -/
theorem Provenance.owner (h : c.Provenance journal call target) (hnone : target.owner = none) :
    ∃ e found, 1 < found.length ∧ c.Gave journal e (.narrow found call) [target] := by
  cases h with
  | contributed _ _ _ htarget =>
      rw [htarget] at hnone
      cases hnone
  | left hseveral hgave => exact ⟨_, _, hseveral, hgave⟩

/-- Whoever was asked for candidates, or to narrow them, is where the method comes from. -/
theorem Chosen.provenance {past : List (Event ι)} (h : Chosen call target past)
    (hexplained : ∀ {before e rest}, past = before ++ e :: rest → c.Explains before e) :
    c.Provenance past call target := by
  cases h with
  | @supplied before missing hcall =>
      obtain ⟨s, t, hrun, rfl⟩ := hexplained rfl
      obtain ⟨e, contributed, d, hd, hgave, htarget⟩ :=
        contribute_gave hrun target (List.mem_singleton_self target)
      exact .contributed hcall (hgave.mono (List.prefix_append _ _)) hd htarget
  | @left before found hseveral =>
      obtain ⟨s, t, hrun, rfl⟩ := hexplained rfl
      rcases narrow_gave hrun with hsame | ⟨e, offered, hoffered, hgave⟩
      · rw [← hsame, List.length_singleton] at hseveral
        omega
      · exact .left hoffered (hgave.mono (List.prefix_append _ _))

variable (c)

/-- Of whatever method it is told that it is selected, if an extension made it up, its provenance is
known by then. -/
theorem provenance_of_told {p : Program} {memory : μ} {registry : Registry ι (List ι)}
    (hmem : .raised (.notify (.methodSelection call target)) registry ∈ journal)
    (hjournal : journal <+: ((c.check p).after { memory }).journal.toList) (h : target.synthetic) :
    c.Provenance journal call target := by
  obtain ⟨past, rest, hsplit⟩ := List.append_of_mem hmem
  obtain ⟨later, hlater⟩ := hjournal
  have hwhole : ((c.check p).after { memory }).journal.toList =
      past ++ .raised (.notify (.methodSelection call target)) registry :: (rest ++ later) := by
    rw [← hlater, hsplit, List.append_assoc, List.cons_append]
  obtain ⟨before, rfl⟩ := (c.typed_check p memory).follows hwhole
  rw [List.append_assoc, List.singleton_append] at hwhole
  have hchosen : Chosen call target before := c.explained_check p memory hwhole h
  refine (hchosen.provenance fun {first e since} hbefore => ?_).mono ?_
  · rw [hbefore, List.append_assoc, List.cons_append] at hwhole
    exact c.explained_check p memory hwhole
  · rw [hsplit, List.append_assoc]
    exact List.prefix_append _ _

/-- Whatever the program, the extensions and their answers: a method that an extension made up gets to
the extensions as selected, into the selections, or to whoever asks for the method of a call, only if an
extension contributed it for that call, and then it has an owner, which is `Object` if the extension
named none; or if an extension left it alone of several. Only then it may be without an owner. -/
theorem check_provenance (p : Program) (memory : μ) :
    let s := (c.check p).after { memory }
    let journal := s.journal.toList
    (∀ past e call target rest, target.synthetic →
      journal = past ++ .consulted e (.notify (.methodSelection call target)) :: rest →
      c.Provenance past call target) ∧
    (∀ id target, target.synthetic → s.targets.get? id = some target →
      ∃ call, call.id = id ∧ c.Provenance journal call target) ∧
    (∀ past asked target rest, target.synthetic →
      journal = past ++ .recalled asked (some target) :: rest →
      ∃ call, call.id = asked.id ∧ c.Provenance past call target) ∧
    ∀ past call target, c.Provenance past call target → target.owner = none →
      ∃ e found, 1 < found.length ∧ c.Gave past e (.narrow found call) [target] := by
  intro s journal
  have htyped := c.typed_check p memory
  refine ⟨fun past e call target rest hsynthetic hsplit => ?_, fun id target hsynthetic hget => ?_,
    fun past asked target rest hsynthetic hsplit => ?_, fun _ _ _ h => h.owner⟩
  · obtain ⟨use, registry, hbelongs, hraised⟩ := c.explained_check p memory hsplit
    obtain rfl : use = .notify (.methodSelection call target) := by
      cases use with
      | narrow candidates origin =>
          obtain ⟨_, hsame⟩ := hbelongs
          cases hsame
      | _ => exact hbelongs.symm
    exact c.provenance_of_told hraised ⟨_, hsplit.symm⟩ hsynthetic
  · rw [htyped.targets] at hget
    obtain ⟨call, registry, hid, hmem⟩ := exists_told_of_lastTarget hget
    exact ⟨call, hid, c.provenance_of_told hmem List.prefix_rfl hsynthetic⟩
  · obtain htarget : some target = lastTarget past asked.id := htyped.follows hsplit
    obtain ⟨call, registry, hid, hmem⟩ := exists_told_of_lastTarget htarget.symm
    exact ⟨call, hid, c.provenance_of_told hmem ⟨_, hsplit.symm⟩ hsynthetic⟩

end Checker

/-- An extension that comes up with two methods for every call, and then with another one instead. -/
def thinksAgain : Checker Unit Unit :=
  { prefersFirst with
    behaviour
      | (), .narrow _ _ => .done [{ name := "findAny" }]
      | (), call => prefersFirst.behaviour () call }

/-- The method that it comes up with at last is selected, and everybody is told of it, without an
owner. -/
theorem thinksAgain_selects_unowned :
    let s := (thinksAgain.check unknownMember).after { memory := () }
    (∃ id target, s.targets.get? id = some target ∧ target.synthetic ∧ target.owner = none) ∧
      s.journal.toList.any fun
        | .consulted _ (.notify (.methodSelection _ target)) => target.synthetic && target.owner.isNone
        | _ => false := by
  refine ⟨⟨⟨0, [0]⟩, { name := "findAny" }, ?_⟩, ?_⟩ <;> decide +kernel

end ExtensibleCheck
