import CacheAside.Failure

namespace CacheAside

inductive Outcome where
  | applied
  | unchanged
  | rebuilt
  deriving DecidableEq, Repr

structure Report where
  outcomes : List (String × Except Failure Outcome)

namespace Report

def failures (report : Report) : List (String × Failure) :=
  report.outcomes.filterMap fun
    | (owner, .error failure) => some (owner, failure)
    | (_, .ok _) => none

def allSucceeded (report : Report) : Bool := report.failures.isEmpty

def find? (report : Report) (owner : String) : Option (Except Failure Outcome) :=
  report.outcomes.lookup owner

def verdict (report : Report) : Except Failure Unit :=
  if report.allSucceeded then .ok ()
  else .error (.patchFailed report.failures.length report.outcomes.length)

end Report

structure SweepSummary where
  rebuilt : Nat
  skipped : List String
  deriving DecidableEq, Repr

end CacheAside
