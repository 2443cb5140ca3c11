import ExtensibleCheck.Program.Creation
import ExtensibleCheck.Proofs.Walk.Ownership
import ExtensibleCheck.Proofs.Walk.Verbosity

/-! From file names to the outcome of a check. Files that do not exist are found first, then errors that the
compiler finds in the options or in the syntax, and only a program without either is checked. Each stage
that fails gives the outcome, and none after it leaves a trace. -/

namespace ExtensibleCheck

theorem Collector.addAll_empty (ds : List Diagnostic) :
    Collector.empty.addAll ds = ⟨ds, ds.any Diagnostic.isError⟩ := by
  have hdiagnostics := diagnostics_addAll empty ds
  have herrors := hasErrors_addAll empty ds
  cases hall : empty.addAll ds
  rw [hall] at hdiagnostics herrors
  cases hdiagnostics
  cases herrors
  rfl

namespace CompilerDiagnostic

/-- A finding of the compiler, other than a suggestion, as it is passed on. It is located if both its file
and its position are known. -/
def passedOn (d : CompilerDiagnostic) : Diagnostic where
  code := .compilerFinding
  severity := match d.category with
    | .error => .error
    | .warning => .warning
    | .message | .suggestion => .info
  message := d.message.flatten
  location := do
    let (name, text) ← d.file
    let start ← d.start
    return .ofSpan name text start (d.length.getD 1)

theorem isError_passedOn (d : CompilerDiagnostic) : d.passedOn.isError ↔ d.category = .error := by
  rw [Diagnostic.isError, decide_eq_true_iff, passedOn]
  cases d.category <;> simp

theorem convert?_eq (d : CompilerDiagnostic) :
    d.convert? = if d.category = .suggestion then none else some d.passedOn := by
  have hlocation : d.location? = d.passedOn.location := by
    rw [location?, passedOn]
    cases d.file <;> cases d.start <;> rfl
  rw [convert?, hlocation]
  cases hcategory : d.category <;> simp [CompilerCategory.severity?, passedOn, hcategory]

variable {options syntactic : List CompilerDiagnostic}

/-- All but the suggestions is passed on, in order, and only what the compiler takes for an error counts
as one. -/
theorem collect_eq : collect options syntactic =
    ⟨((options ++ syntactic).filter (·.category ≠ .suggestion)).map passedOn,
      (options ++ syntactic).any (·.category = .error)⟩ := by
  have hconvert (ds : List CompilerDiagnostic) :
      ds.filterMap convert? = (ds.filter (·.category ≠ .suggestion)).map passedOn := by
    rw [← List.filterMap_eq_map, List.filterMap_filter]
    refine List.filterMap_congr fun d _ => ?_
    rw [convert?_eq]
    by_cases h : d.category = .suggestion <;> simp [h]
  have herror (d : CompilerDiagnostic) :
      (decide (d.category ≠ .suggestion) && d.passedOn.isError) = decide (d.category = .error) := by
    rw [Bool.eq_iff_iff, Bool.and_eq_true, isError_passedOn, decide_eq_true_iff, decide_eq_true_iff]
    exact and_iff_right_of_imp fun h => by simp [h]
  rw [collect, Collector.addAll_empty, hconvert, List.any_map, List.any_filter]
  simp only [Function.comp_apply, herror]

end CompilerDiagnostic

section

variable {α : Type} (host : CompilerHost α) (paths : List String) (overrides : List (String × α))

/-- The files that are asked for, in their order. -/
def CompilerHost.resolved : List String := paths.map (Path.resolve host.directory)

/-- The files that are asked for but do not exist, in their order. -/
def CompilerHost.missing : List String := (host.resolved paths).filter (!host.fileExists ·)

/-- What the compiler makes of the files that are asked for. -/
def CompilerHost.compiled : Compilation := host.compile (host.resolved paths) (.overridden overrides)

/-- All that the compiler says about the options and then about the syntax. -/
def Compilation.findings (c : Compilation) : List CompilerDiagnostic := c.optionFindings ++ c.syntaxFindings

variable {host paths overrides}

/-- Where no file is missing, it depends on what the compiler says whether there is a program. -/
theorem Program.ofFiles_of_complete (h : host.missing paths = []) :
    let compiled := host.compiled paths overrides
    ofFiles host paths overrides =
      if compiled.findings.any (·.category = .error) then
        .error ⟨(compiled.findings.filter (·.category ≠ .suggestion)).map CompilerDiagnostic.passedOn, true⟩
      else .ok ⟨(host.resolved paths).filterMap compiled.sourceFile?⟩ := by
  intro compiled
  rw [ofFiles, ← CompilerHost.resolved, ← CompilerHost.missing, h]
  show compiled.program (host.resolved paths) = _
  rw [Compilation.program, CompilerDiagnostic.collect_eq, ← Compilation.findings]
  cases compiled.findings.any (·.category = .error) <;> rfl

end

open Run Session SessionState

namespace Checker

variable {ι μ : Type} [DecidableEq ι]

variable {α : Type} (c : Program → Checker ι μ) (verbose : Bool) (host : CompilerHost α)
  (paths : List String) (overrides : List (String × α))

/-- Where there is no program, nothing happens. -/
theorem checkFiles_of_error {findings : Collector}
    (h : Program.ofFiles host paths overrides = .error findings) (s : SessionState ι μ) :
    checkFiles c verbose host paths overrides s = .ok (.error findings) s := by
  rw [checkFiles, h]
  rfl

theorem checkFiles_of_ok {program : Program} (h : Program.ofFiles host paths overrides = .ok program) :
    checkFiles c verbose host paths overrides = (do
      if verbose then Session.print program.announcement
      (c program).check program) := by
  rw [checkFiles, h]

end Checker

/-- A compiler that warns of the options, and may find something to improve and an error in every program.
Either all files exist or none. -/
def troubledHost (complete faulty : Bool) : CompilerHost Empty where
  directory := "/src"
  fileExists _ := complete
  compile _ _ :=
    { optionFindings := [{ category := .warning, message := .mk "Old option." [] }]
      syntaxFindings := if faulty then
          [{ category := .suggestion, message := .mk "Too long." [] },
            { category := .error, message := .mk "Expected." [.mk "Unclear." []], file := ("a.ts", "a;"),
              start := some 1 }]
        else []
      sourceFile? _ := strayNames.files.head? }

end ExtensibleCheck
