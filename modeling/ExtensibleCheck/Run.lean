/-! Runs of the checker: computations over a state that either finish or halt. The state reached
is kept in both cases, because what was reported, stored and logged before a failure can still be
seen after it. -/

namespace ExtensibleCheck

/-- The classes of error that the code of an extension can raise. -/
inductive ErrorClass where
  | general
  | type
  | range
  deriving DecidableEq

/-- Why a run was aborted: a scope was closed that nobody had opened, dispatchers and extensions
called each other more deeply than can be followed, a place was sought before the beginning of its
file, or an extension raised an error of its own, which nobody on its way out may alter. -/
inductive Failure where
  | noActiveScope
  | nestedTooDeeply
  | beforeFile
  | raised (kind : ErrorClass) (message : String)
  deriving DecidableEq

namespace Failure

def kind : Failure → ErrorClass
  | noActiveScope | beforeFile => .general
  | nestedTooDeeply => .range
  | raised kind _ => kind

def message : Failure → String
  | noActiveScope => "ICE: popLocal called with no active local scope"
  | nestedTooDeeply => "Maximum call stack size exceeded"
  | beforeFile =>
    "Debug Failure. False expression: position cannot precede the beginning of the file"
  | raised _ message => message

end Failure

/-- How a run ends without a result. A run whose extensions keep registering further extensions has
no end of its own; `exhausted` is where such a run is cut off. -/
inductive Halt where
  | thrown (failure : Failure)
  | exhausted
  deriving DecidableEq

abbrev Run (σ : Type) := EStateM Halt σ

namespace Run

def fail {σ α : Type} (failure : Failure) : Run σ α := throw (.thrown failure)

/-- Runs `body` and then `release`, however `body` ends. A failure of `release` takes the place of
the one that `body` ended with. -/
def ensuring {σ α : Type} (body : Run σ α) (release : Run σ Unit) : Run σ α := fun s =>
  match body s with
  | .ok a s => (do release; pure a) s
  | .error halt s => (do release; throw halt) s

end Run

end ExtensibleCheck
