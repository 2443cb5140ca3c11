/-! Chains of stages that may fail. Each stage works on what the one before it made, and the first
failure is the outcome of all stages after it. -/

namespace ExtensibleCheck

/-- How a chain went: the outcome at the start and after every stage, and how many stages were
actually run. -/
structure StageTrace (ε α : Type) where
  outcomes : List (Except ε α)
  runs : Nat

def traceStages {ε α : Type} : Except ε α → List (α → Except ε α) → StageTrace ε α
  | outcome, [] => ⟨[outcome], 0⟩
  | outcome, stage :: stages =>
    let rest := traceStages (outcome >>= stage) stages
    ⟨outcome :: rest.outcomes, rest.runs + (if outcome.isOk then 1 else 0)⟩

end ExtensibleCheck
