import CacheAside.Cache.Editing
import CacheAside.Cache.Purge
import CacheAside.Cache.Reading

namespace CacheAside

namespace Simulation

inductive Operation where
  | read (key : Key)
  | readEntity (key : Key) (id : String)
  | rebuild (key : Key)
  | rebuildState
  | requestRebuild (key : Key)
  | requestSweep (ns : Namespace)
  | requestAll (ns : Namespace)
  | sweep (ns : Namespace)
  | carryOut (job : Rebuild)
  | editAll (job : Patch)
  | submit (job : Patch)
  | withdraw (id : String) (users : List String)
  | settleApproval (user id approval : String)
  | redistribute (id : String)
  | purge (key : Key)
  | purgeAll (ns : Namespace)
  | purgeWithin (ns : Namespace) (id : Option String)
  | derive (key : Key)
  | expectedKeys (ns : Namespace)
  deriving Repr

inductive Answer where
  | done
  | reading (reading : Reading)
  | value (value : Json)
  | entity (entity : Option Json)
  | count (n : Nat)
  | swept (summary : SweepSummary)
  | edited (report : Report)
  | keys (keys : List Key)

def Operation.program (c : Config) : Operation → Program Answer
  | read key => return .reading (← Cache.read c key)
  | readEntity key id => return .entity (← Cache.readEntity c key id)
  | rebuild key => return .value (← Cache.rebuild c key)
  | rebuildState => return .value (← Cache.rebuildState c)
  | requestRebuild key => do Cache.requestRebuild c key; return .done
  | requestSweep ns => do Cache.requestSweep c ns; return .done
  | requestAll ns => return .count (← Cache.requestAll c ns)
  | sweep ns => return .swept (← Cache.sweep c ns)
  | carryOut job => do Cache.carryOut c job; return .done
  | editAll job => return .edited (← Cache.editAll c job)
  | submit job => do Cache.submit c job; return .done
  | withdraw id users => do Cache.withdraw c id users; return .done
  | settleApproval user id approval => do Cache.settleApproval c user id approval; return .done
  | redistribute id => return .count (← Cache.redistribute c id)
  | purge key => do Cache.purge key; return .done
  | purgeAll ns => return .count (← Cache.purgeAll ns)
  | purgeWithin ns id => return .count (← Cache.purgeWithin ns id)
  | derive key => return .value (← Cache.derive c key)
  | expectedKeys ns => return .keys (← Cache.expectedKeys ns)

end Simulation

end CacheAside
