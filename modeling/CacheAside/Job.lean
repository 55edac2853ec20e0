import CacheAside.Edit
import CacheAside.Key

namespace CacheAside

/-- Rebuilds one entry or, without an identifier, all entries of a namespace that has several. -/
structure Rebuild where
  ns : Namespace
  id : Option String
  deriving DecidableEq, Repr

namespace Rebuild

def ofKey (key : Key) : Rebuild := ⟨key.ns, key.id⟩

def sweep (ns : Namespace) : Rebuild := ⟨ns, none⟩

def isSweep (job : Rebuild) : Bool := job.id.isNone && !job.ns.isSingle

def target? (job : Rebuild) : Option Key := if job.isSweep then none else some ⟨job.ns, job.id⟩

end Rebuild

structure Patch where
  ns : Namespace
  owners : List String
  entity : String
  edit : Edit
  deriving Repr

/-- The entries that a patch touches, each under the name it is reported by. A namespace with a
single entry has no other one to touch, whoever the owners are. -/
def Patch.targets (job : Patch) : List (String × Key) :=
  if job.ns.isSingle then [((Key.only job.ns).text, .only job.ns)]
  else job.owners.map fun owner => (owner, .of job.ns owner)

end CacheAside
