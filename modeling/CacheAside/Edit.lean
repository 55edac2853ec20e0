import CacheAside.Entity

namespace CacheAside

inductive Edit where
  | upsert (entity : Json)
  | remove
  | replace (entry : Json)
  | removeChild (field child : String)
  deriving Repr

namespace Edit

def name : Edit → String
  | upsert _ => "upsert"
  | remove => "remove"
  | replace _ => "replace"
  | removeChild .. => "remove-child"

/-- The first entity with the identifier gives way to what `f` says: nothing when `f` leaves it as
it is, no entity when `f` drops it. The answer is nothing also if no entity has the identifier. -/
def editFirst (target : String) (f : Json → Option (Option Json)) : List Json → Option (List Json)
  | [] => none
  | e :: es =>
    if Entity.hasId target e then (f e).map fun
      | some e => e :: es
      | none => es
    else (editFirst target f es).map (e :: ·)

def survivors? (field child : String) (entity : Json) : Option (List Json) :=
  match entity.field? field with
  | some (.array children) =>
    let kept := children.filter fun c => !Entity.hasId child c
    if kept.length = children.length then none else some kept
  | _ => none

def dropChild (field child : String) (entity : Json) : Option (Option Json) :=
  match entity, survivors? field child entity with
  | .object _, some [] => some none
  | .object fields, some kept =>
    some (some (.object (Json.Fields.insert field (.array kept) fields)))
  | _, _ => none

/-- The list after an edit of the entity `target`; nothing when the edit changes nothing. -/
def editList (target : String) (entities : List Json) : Edit → Option (List Json)
  | upsert entity =>
    if entities.any (Entity.hasId target) then
      editFirst target (fun e => if e.same entity then none else some (some entity)) entities
    else some (entities ++ [entity])
  | remove => editFirst target (fun _ => some none) entities
  | removeChild field child => editFirst target (dropChild field child) entities
  | replace _ => none

/-- Edits an entry, and says whether that changed it. Only a list has entities to edit, but any
entry can be replaced as a whole. -/
def apply (edit : Edit) (target : String) (entry : Json) : Option (Bool × Json) :=
  match edit, entry with
  | replace value, entry => some (if entry.same value then (false, entry) else (true, value))
  | edit, .array entities =>
    match edit.editList target entities with
    | some edited => some (true, .array edited)
    | none => some (false, entry)
  | _, _ => none

end Edit

end CacheAside
