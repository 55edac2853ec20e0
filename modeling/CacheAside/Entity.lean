import CacheAside.Json.Fields
import CacheAside.Json.Printer

namespace CacheAside

namespace Entity

def idField : String := "id"

/-- A number counts as its text, so that the string `"5"` and the number `5` name the same
entity. -/
def id? (entity : Json) : Option String :=
  match entity.field? idField with
  | some (.string s) => some s
  | some (.number n) => some n.text
  | _ => none

def hasId (id : String) (entity : Json) : Bool := id? entity = some id

def find? (id : String) (entities : List Json) : Option Json := entities.find? (hasId id)

end Entity

end CacheAside
