import CacheAside.Decimal
import CacheAside.Namespace

namespace CacheAside

inductive KeyFault where
  | unknownNamespace (name : String)
  | unexpectedIdentifier (ns : Namespace)
  | missingIdentifier (ns : Namespace)
  | other (reason : String)
  deriving DecidableEq, Repr

def KeyFault.message : KeyFault → String
  | unknownNamespace name => "unknown namespace '" ++ name ++ "'"
  | unexpectedIdentifier ns => "namespace '" ++ ns.name ++ "' takes no identifier"
  | missingIdentifier ns => "namespace '" ++ ns.name ++ "' requires an identifier"
  | other reason => reason

inductive SourceFault where
  | notFound
  | backend (reason : String)
  deriving DecidableEq, Repr

def SourceFault.message : SourceFault → String
  | notFound => "Not found"
  | backend reason => "Backend error: " ++ reason

inductive Failure where
  | source (key : String) (fault : SourceFault)
  | storeUnavailable (reason : String)
  | invalidKey (fault : KeyFault)
  | notAList (key : String)
  | patchFailed (failed total : Nat)
  | queueClosed (queue : String)
  deriving DecidableEq, Repr

namespace Failure

/-- What a user is told. A store out of reach is worded as every store but one that runs on Redis
words it; that one says `Redis error` the second time. -/
def message : Failure → String
  | source key fault => "Source fetch failed for " ++ key ++ ": " ++ fault.message
  | storeUnavailable reason => "Store unavailable: Store unavailable: " ++ reason
  | invalidKey fault => "Invalid cache key: " ++ fault.message
  | notAList key => "Entry at " ++ key ++ " is not a list"
  | patchFailed failed total =>
    "Patch failed for " ++ Decimal.text failed ++ " of " ++ Decimal.text total ++ " owners"
  | queueClosed queue => "Job queue " ++ queue ++ " is closed"

def isNotFound : Failure → Bool
  | source _ .notFound => true
  | _ => false

end Failure

end CacheAside
