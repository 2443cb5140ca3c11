import ExtensibleCheck.Proofs.Program.Creation
import ExtensibleCheck.Proofs.Walk.Verdict

/-! What becomes of the findings of the compiler. They are the outcome where an error is among them. Where
none is, there is a program to be checked, and the outcome of the check knows nothing of them, so that its
warnings and its messages are lost. -/

namespace ExtensibleCheck

open Run Session SessionState

/-- All that the compiler says and that is passed on, which is all but the suggestions, in its order. -/
def Compilation.passedOn (c : Compilation) : List Diagnostic :=
  (c.findings.filter (·.category ≠ .suggestion)).map CompilerDiagnostic.passedOn

/-- Whether the compiler finds an error. -/
def Compilation.IsFaulty (c : Compilation) : Prop := ∃ d ∈ c.findings, d.category = .error

theorem Compilation.isFaulty_iff {c : Compilation} : c.IsFaulty ↔ c.findings.any (·.category = .error) := by
  simp [IsFaulty]

theorem Compilation.not_isError_of_mem_passedOn {c : Compilation} (h : ¬c.IsFaulty) {d : Diagnostic}
    (hd : d ∈ c.passedOn) : ¬d.isError := by
  obtain ⟨finding, hfinding, rfl⟩ := List.mem_map.mp hd
  rw [CompilerDiagnostic.isError_passedOn]
  exact fun herror => h ⟨finding, (List.mem_filter.mp hfinding).1, herror⟩

namespace Checker

variable {ι μ : Type} [DecidableEq ι]

/-- A check that starts with the findings kept comes to an end with them kept, and its verdict has exactly
what was reported. -/
theorem check_kept (c : Checker ι μ) {p : Program} {s t : SessionState ι μ} {verdict : Verdict}
    (hs : s.Kept) (h : c.check p s = .ok verdict t) :
    verdict.findings.diagnostics = t.reports ∧ ∀ d ∈ verdict.findings.diagnostics, d.isError := by
  have hchanges : Changes s t := after_of_ok h ▸ (c.gradual_check p).state s
  have hkept : t.Kept := hchanges.keep Change.kept hs
  rw [c.eq_verdict_of_check h, findings_verdict]
  exact ⟨hkept.found, hkept.errors⟩

variable {α : Type} (c : Program → Checker ι μ) (verbose : Bool) (host : CompilerHost α)
  (paths : List String) (overrides : List (String × α))

/-- That there is a program does not count as a report, whether it is said or not. -/
theorem checkFiles_kept {program : Program} (hprogram : Program.ofFiles host paths overrides = .ok program)
    {memory : μ} {verdict : Verdict} {t : SessionState ι μ}
    (h : checkFiles c verbose host paths overrides { memory } = .ok verdict t) :
    verdict.findings.diagnostics = t.reports ∧ ∀ d ∈ verdict.findings.diagnostics, d.isError := by
  rw [checkFiles_of_ok c verbose host paths overrides hprogram] at h
  have hstart : ({ memory } : SessionState ι μ).Kept := ⟨rfl, rfl, List.forall_mem_nil _⟩
  cases verbose with
  | false => exact (c program).check_kept hstart h
  | true =>
      have hsaid : (({ memory } : SessionState ι μ).record (.printed program.announcement)).Kept :=
        ⟨rfl, rfl, List.forall_mem_nil _⟩
      exact (c program).check_kept hsaid h

/-- **What the compiler says is in the outcome of a check only if it finds an error.** The files exist, and
the check is not aborted. If the compiler finds an error, the outcome is all that it says and that is passed
on. Otherwise the outcome, be it positive or not, has exactly what was reported during the check and no
finding of the compiler. So nothing is lost if and only if there is an error or nothing to be lost. -/
theorem checkFiles_findings (hcomplete : host.missing paths = []) {memory : μ} {verdict : Verdict}
    {t : SessionState ι μ} (h : checkFiles c verbose host paths overrides { memory } = .ok verdict t) :
    let compiled := host.compiled paths overrides
    (compiled.IsFaulty → verdict = .error ⟨compiled.passedOn, true⟩) ∧
      (¬compiled.IsFaulty → verdict.findings.diagnostics = t.reports ∧
        ∀ d ∈ compiled.passedOn, d ∉ verdict.findings.diagnostics) ∧
      (compiled.passedOn.Sublist verdict.findings.diagnostics ↔
        compiled.IsFaulty ∨ compiled.passedOn = []) := by
  intro compiled
  have hfaulty (herror : compiled.IsFaulty) : verdict = .error ⟨compiled.passedOn, true⟩ := by
    have hfails : Program.ofFiles host paths overrides = .error ⟨compiled.passedOn, true⟩ :=
      (Program.ofFiles_of_complete hcomplete).trans (if_pos (Compilation.isFaulty_iff.mp herror))
    rw [checkFiles_of_error c verbose host paths overrides hfails] at h
    cases h
    rfl
  have hsound (hnone : ¬compiled.IsFaulty) : verdict.findings.diagnostics = t.reports ∧
      ∀ d ∈ compiled.passedOn, d ∉ verdict.findings.diagnostics := by
    have hany : ¬compiled.findings.any (·.category = .error) := (not_congr Compilation.isFaulty_iff).mp hnone
    obtain ⟨hreports, herrors⟩ := checkFiles_kept c verbose host paths overrides
      ((Program.ofFiles_of_complete hcomplete).trans (if_neg hany)) h
    exact ⟨hreports, fun d hd hfound => Compilation.not_isError_of_mem_passedOn hnone hd (herrors d hfound)⟩
  refine ⟨hfaulty, hsound, fun hsublist => ?_, ?_⟩
  · by_cases herror : compiled.IsFaulty
    · exact Or.inl herror
    · refine Or.inr (List.eq_nil_iff_forall_not_mem.mpr fun d hd => ?_)
      exact (hsound herror).2 d hd (hsublist.subset hd)
  · rintro (herror | hnothing)
    · rw [hfaulty herror]
      exact List.Sublist.refl _
    · rw [hnothing]
      exact List.nil_sublist _

end Checker

/-- A warning about the options stands before an error of the syntax. Without the error it is not found, but
the two names that nobody declared are. -/
theorem checkFiles_findings_troubledHost :
    let run faulty :=
      Checker.checkFiles (fun _ => unextended) false (troubledHost true faulty) ["a.ts"] []
    let s : SessionState Unit Unit := { memory := () }
    let warning : Diagnostic := ⟨.compilerFinding, .warning, "Old option.", none⟩
    (∃ verdict, run true s = .ok verdict ((run true).after s) ∧ warning ∈ verdict.findings.diagnostics) ∧
      ∃ verdict, run false s = .ok verdict ((run false).after s) ∧
        verdict.findings.diagnostics.map (·.code) = [.unresolvedVariable, .unresolvedVariable] ∧
        warning ∉ verdict.findings.diagnostics := by
  intro run s warning
  have hends (faulty : Bool) : ∃ verdict, run faulty s = .ok verdict ((run faulty).after s) :=
    exists_of_finishes (by cases faulty <;> decide +kernel)
  have hwarned (faulty : Bool) : warning ∈ ((troubledHost true faulty).compiled ["a.ts"] []).passedOn := by
    cases faulty <;> decide +kernel
  refine ⟨?_, ?_⟩
  · obtain ⟨verdict, hrun⟩ := hends true
    obtain ⟨hfaulty, -⟩ := Checker.checkFiles_findings _ _ _ _ _ (by decide) hrun
    exact ⟨verdict, hrun, by rw [hfaulty ⟨_, .tail _ (.tail _ (.head _)), rfl⟩]; exact hwarned true⟩
  · obtain ⟨verdict, hrun⟩ := hends false
    have hnone : ¬((troubledHost true false).compiled ["a.ts"] []).IsFaulty := by
      rintro ⟨d, hd, herror⟩
      cases List.mem_singleton.mp hd
      cases herror
    obtain ⟨-, hsound, -⟩ := Checker.checkFiles_findings _ _ _ _ _ (by decide) hrun
    obtain ⟨hreports, hlost⟩ := hsound hnone
    exact ⟨verdict, hrun, by rw [hreports]; decide +kernel, hlost _ (hwarned false)⟩

end ExtensibleCheck
