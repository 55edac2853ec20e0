import CacheAside.Store.Calls

namespace CacheAside

def StoreCall.name : StoreCall → String
  | get _ => "get"
  | set .. => "set"
  | erase _ => "delete"
  | erasePrefix _ => "delete_prefix"

def StoreCall.key : StoreCall → String
  | get key => key
  | set key _ _ => key
  | erase key => key
  | erasePrefix start => start

namespace Simulation

structure Faults where
  down : Bool
  budget : Option Nat
  rejected : List (String × String)
  deriving Repr

def Faults.none : Faults := ⟨false, Option.none, []⟩

structure Store where
  entries : Entries
  faults : Faults

namespace Store

/-- Entries are kept by a clock that stands still here; only one that lasts for no time ends. -/
def instant : Nat := 0

/-- Why a call fails, if it does. A store that is down does not use up its budget. -/
def fault? (faults : Faults) (call : StoreCall) : Option String × Faults :=
  if faults.down then (some "connection refused", faults)
  else if faults.budget = some 0 then (some "connection lost", faults)
  else
    let faults := { faults with budget := faults.budget.map (· - 1) }
    if faults.rejected.contains (call.name, call.key) then
      (some (call.name ++ " " ++ call.key ++ " rejected"), faults)
    else (none, faults)

def call (store : Store) (call : StoreCall) : Except String call.Answer × Store :=
  match fault? store.faults call with
  | (some reason, faults) => (.error reason, { store with faults })
  | (none, faults) =>
    let (answer, entries) := store.entries.serve instant call
    (.ok answer, ⟨entries, faults⟩)

end Store

end Simulation

end CacheAside
