import ExtensibleCheck.Session.Visit

/-! Checking a whole program: the extensions are created and set up, every source file is visited,
and the extensions finish. -/

namespace ExtensibleCheck

/-- What a check without errors leaves behind. -/
structure CheckResult where
  findings : Collector
  /-- What was stored for nodes, the types of selected methods included. -/
  inferredTypes : OrderedMap NodeId (Option CheckedType)
  selectedMethods : OrderedMap NodeId (Candidate CheckedType)

/-- The outcome of a check: a result, or the findings that stand against it. -/
abbrev Verdict := Except Collector CheckResult

/-- The outcome as it follows from the state at the end of a session. -/
def SessionState.verdict {ι μ : Type} (s : SessionState ι μ) : Verdict :=
  if s.findings.hasErrors then .error s.findings else .ok ⟨s.findings, s.stored, s.targets⟩

namespace Checker

variable {ι μ : Type} [DecidableEq ι]

/-- Checks the files of a program in one session. What an extension raises aborts it. -/
def check (c : Checker ι μ) (p : Program) : Session ι μ Verdict := do
  c.start
  c.raise (.notify .setup)
  p.files.forM c.visitFile
  c.raise (.notify .finish)
  return (← get).verdict

end Checker

end ExtensibleCheck
