import CacheAside.Cache.Derivation
import CacheAside.Cache.Entry
import CacheAside.Report

namespace CacheAside

namespace Cache

open Program

def rebuild (c : Config) (key : Key) : Program Json := do
  check key
  save c key (← derive c key)

def rebuildState (c : Config) : Program Json := rebuild c (.only .state)

def request (c : Config) (job : Rebuild) : Program Unit := do
  unless ← offerRebuild job do fail (.queueClosed c.rebuilds.name)

def requestRebuild (c : Config) (key : Key) : Program Unit := do
  check key
  request c (.ofKey key)

def requestSweep (c : Config) (ns : Namespace) : Program Unit := request c (.sweep ns)

def requestEach (c : Config) : List Key → Program Unit
  | [] => pure ()
  | key :: keys => do
    request c (.ofKey key)
    requestEach c keys

def requestAll (c : Config) (ns : Namespace) : Program Nat := do
  let keys ← expectedKeys ns
  requestEach c keys
  return keys.length

/-- Rebuilds the keys one by one. A key that fails is skipped, but a store that is out of reach ends
it all. -/
def rebuildEach (c : Config) : List Key → SweepSummary → Program SweepSummary
  | [], summary => pure summary
  | key :: keys, summary => do
    match ← attempt (rebuild c key) with
    | .ok _ => rebuildEach c keys { summary with rebuilt := summary.rebuilt + 1 }
    | .error (.storeUnavailable reason) => fail (.storeUnavailable reason)
    | .error _ => rebuildEach c keys { summary with skipped := summary.skipped ++ [key.text] }

/-- Rebuilds every entry of a namespace. Auto-collect listings embed collections, so their sweep
follows one of the collections, if the queue takes it. -/
def sweep (c : Config) (ns : Namespace) : Program SweepSummary := do
  let summary ← rebuildEach c (← expectedKeys ns) ⟨0, []⟩
  if ns = .collections then
    let _ ← offerRebuild (.sweep .autoCollects)
  return summary

def carryOut (c : Config) (job : Rebuild) : Program Unit :=
  match job.target? with
  | some key => do
    let _ ← rebuild c key
    return ()
  | none => do
    let _ ← sweep c job.ns
    return ()

end Cache

end CacheAside
