import CacheAside.Program

namespace CacheAside

namespace Cache

open Program

def purge (key : Key) : Program Unit := do
  check key
  store (.erase key.text)

/-- Erases all entries of a namespace and answers how many there were; a single entry counts whether
or not it was there. -/
def purgeAll (ns : Namespace) : Program Nat := do
  if ns.isSingle then
    store (.erase ns.name)
    return 1
  else store (.erasePrefix ns.keyStart)

def purgeWithin (ns : Namespace) : Option String → Program Nat
  | some id => do
    purge (.of ns id)
    return 1
  | none => purgeAll ns

end Cache

end CacheAside
