import CacheAside.Cache.Derivation
import CacheAside.Cache.Entry

namespace CacheAside

/-- Where a value came from: the store, the source on a miss, or the source while the store could
not be read. -/
inductive Provenance where
  | stored
  | derived
  | bypassed
  deriving DecidableEq, Repr

structure Reading where
  value : Json
  provenance : Provenance
  deriving Repr

namespace Cache

open Program

/-- A reader meets no failure of the store or of the queue: on a miss the source answers and a
rebuild is queued, and while the store is out of reach the source answers alone. -/
def read (c : Config) (key : Key) : Program Reading := do
  check key
  match ← attempt (load key) with
  | .ok (some value) => return ⟨value, .stored⟩
  | .ok none =>
    let _ ← offerRebuild (.ofKey key)
    return ⟨← derive c key, .derived⟩
  | .error _ => return ⟨← derive c key, .bypassed⟩

def readEntity (c : Config) (key : Key) (id : String) : Program (Option Json) := do
  match (← read c key).value with
  | .array entities => return Entity.find? id entities
  | _ => fail (.notAList key.text)

end Cache

end CacheAside
