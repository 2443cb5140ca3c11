import ExtensibleCheck.Proofs.Walk.Mistakes

/-! The verdict on a program. Whatever is reported in a session, by the checker or by an extension, is
found in the order in which it was reported, and nothing is ever found that was not reported or taken
back afterwards. The mark that tells of errors is set from the first one on. As all that can be reported
are errors, a check succeeds if and only if nothing was. -/

namespace ExtensibleCheck

namespace Collector

/-- The mark says whether an error is among the findings. -/
def IsMarked (c : Collector) : Prop := c.hasErrors = c.diagnostics.any Diagnostic.isError

theorem IsMarked.add {c : Collector} (h : c.IsMarked) (d : Diagnostic) : (c.add d).IsMarked := by
  rw [IsMarked, diagnostics_add, hasErrors_add, List.any_append, h, List.any_cons, List.any_nil,
    Bool.or_false]

end Collector

open Run Session

namespace SessionState

variable {ι μ : Type} {s t : SessionState ι μ}

/-- The findings at some moment: all that was reported up to then, with the mark that says whether there
are errors. Nothing but errors is among them. -/
structure Kept (s : SessionState ι μ) : Prop where
  found : s.findings.diagnostics = s.reports
  marked : s.findings.IsMarked
  errors : ∀ d ∈ s.findings.diagnostics, d.isError

/-- Where only errors are reported, the verdict is positive if and only if there are none. -/
theorem Kept.isOk_verdict_iff (h : s.Kept) : s.verdict.isOk ↔ s.reports = [] := by
  have hmark : s.findings.hasErrors = !s.reports.isEmpty := by
    rw [h.marked, h.found]
    cases hreports : s.reports with
    | nil => rfl
    | cons d ds =>
        have herror : d.isError := h.errors d (by rw [h.found, hreports]; exact List.mem_cons_self)
        rw [List.any_cons, herror, Bool.true_or, List.isEmpty_cons, Bool.not_false]
  rw [verdict, hmark]
  cases s.reports <;> simp [Except.isOk, Except.toBool]

/-- Whatever the verdict is, it comes with all findings. -/
theorem findings_verdict (s : SessionState ι μ) : s.verdict.findings = s.findings := by
  rw [verdict]
  cases s.findings.hasErrors <;> rfl

variable [DecidableEq ι]

theorem Change.kept (h : Change s t) (hs : s.Kept) : t.Kept := by
  refine ⟨h.findings_eq hs.found, ?_, ?_⟩
  · cases h with
    | report d => exact hs.marked.add d
    | _ => exact hs.marked
  · cases h with
    | report d herror =>
        intro e he
        rcases List.mem_append.mp he with he | he
        · exact hs.errors e he
        · rwa [List.mem_singleton.mp he]
    | _ => exact hs.errors

theorem Changes.kept {memory : μ} (h : Changes ({ memory } : SessionState ι μ) t) : t.Kept :=
  h.keep Change.kept ⟨rfl, rfl, List.forall_mem_nil _⟩

/-- A single change adds findings at the end, if any. -/
theorem Change.prefix_findings (h : Change s t) :
    s.findings.diagnostics <+: t.findings.diagnostics := by
  cases h with
  | report d => exact List.prefix_append _ _
  | _ => exact List.prefix_rfl

theorem Changes.prefix_findings (h : Changes s t) : s.findings.diagnostics <+: t.findings.diagnostics :=
  h.keep (I := fun u => s.findings.diagnostics <+: u.findings.diagnostics)
    (fun hchange hu => hu.trans hchange.prefix_findings) List.prefix_rfl

end SessionState

open SessionState

namespace Checker

variable {ι μ : Type} [DecidableEq ι] (c : Checker ι μ)

/-- A check that is not aborted gets to its end by single changes, from the creation of the extensions
on. At every moment the findings are all that was reported so far, in order and each once, and the mark
says whether an error is among them; from one moment to a later one findings are only added at the end.
The check succeeds if and only if nothing was reported at all, and otherwise fails with every report. -/
theorem check_conserves_reports (p : Program) (memory : μ) (h : (c.check p).finishes { memory }) :
    let s := (c.check p).after { memory }
    c.check p { memory } = .ok s.verdict s ∧ Changes { memory } s ∧
      (∀ t : SessionState ι μ, Changes { memory } t →
        t.findings.diagnostics = t.reports ∧
          (t.findings.hasErrors ↔ ∃ d ∈ t.findings.diagnostics, d.isError) ∧
          ∀ u, Changes t u → t.findings.diagnostics <+: u.findings.diagnostics) ∧
      (s.verdict.isOk ↔ s.reports = []) ∧
      ∀ findings, s.verdict = .error findings → findings.diagnostics = s.reports := by
  intro s
  obtain ⟨outcome, hrun⟩ := exists_of_finishes h
  have hchanges : Changes { memory } s := (c.gradual_check p).state { memory }
  have hkept := hchanges.kept
  refine ⟨c.eq_verdict_of_check hrun ▸ hrun, hchanges, fun t ht => ?_, hkept.isOk_verdict_iff,
    fun findings hverdict => ?_⟩
  · refine ⟨ht.kept.found, ?_, fun u hu => hu.prefix_findings⟩
    rw [ht.kept.marked, List.any_eq_true]
  · calc findings.diagnostics
        = s.verdict.findings.diagnostics := by rw [hverdict, Verdict.findings]
      _ = s.findings.diagnostics := by rw [findings_verdict]
      _ = s.reports := hkept.found

end Checker

/-- All three reports are found, those of the extension and that of the checker, in this order. -/
theorem check_conserves_reports_strayNames :
    let run := caresForLeft.check strayNames
    let s := run.after { memory := () }
    run.finishes { memory := () } ∧ s.reports.map (·.code) =
        [.extensionError, .extensionError, .unresolvedVariable] ∧
      ∃ findings, s.verdict = .error findings ∧ findings.diagnostics = s.reports := by
  have hfinishes : (caresForLeft.check strayNames).finishes { memory := () } := by decide +kernel
  obtain ⟨-, -, -, -, herror⟩ := caresForLeft.check_conserves_reports strayNames () hfinishes
  have hverdict : ∃ findings,
      ((caresForLeft.check strayNames).after { memory := () }).verdict = .error findings := ⟨_, rfl⟩
  obtain ⟨findings, hfindings⟩ := hverdict
  exact ⟨hfinishes, by decide +kernel, findings, hfindings, herror findings hfindings⟩

end ExtensibleCheck
