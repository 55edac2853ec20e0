import CacheAside.Json.Fields

namespace CacheAside

structure Permissions where
  read : Bool
  write : Bool
  configure : Bool
  deriving DecidableEq, Repr

def Permissions.owner : Permissions := ⟨true, true, true⟩

def Permissions.document (p : Permissions) : Json :=
  .ofObject [("read", .bool p.read), ("write", .bool p.write), ("configure", .bool p.configure)]

structure Member where
  user : String
  permissions : Permissions
  deriving DecidableEq, Repr

structure SharedCollection where
  collection : Json
  owner : String
  members : List Member
  deriving Repr

namespace SharedCollection

/-- Everyone who sees the collection. The owner comes last, and a membership of the owner's own
gives way to the owner's permissions. -/
def audience (shared : SharedCollection) : List Member :=
  shared.members.filter (·.user ≠ shared.owner) ++ [⟨shared.owner, .owner⟩]

def permissionsField : String := "permissionsMetadata"

def copyFor (shared : SharedCollection) (member : Member) : Json :=
  match shared.collection with
  | .object fields =>
    .object (Json.Fields.insert permissionsField member.permissions.document fields)
  | collection => collection

end SharedCollection

end CacheAside
