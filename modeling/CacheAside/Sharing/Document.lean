import CacheAside.Json.Printer
import CacheAside.Json.Reader
import CacheAside.Sharing

namespace CacheAside

inductive View (α : Type) where
  | flag (value : Bool)
  | text (value : String)
  | list (items : List α)
  | record (members : List (String × α))
  | other

/-- A value, or a text whose numbers and strings are looked into only where a part is taken from
them. -/
class Document (α : Type) where
  view? : α → Option (View α)
  value? : α → Option Json

instance : Document Json where
  view?
    | .bool b => some (.flag b)
    | .string s => some (.text s)
    | .array items => some (.list items)
    | .object fields => some (.record fields)
    | .null | .number _ => some .other
  value? := some

/-- A value inside the record of a text has one container less to open. -/
instance : Document Json.Raw where
  view?
    | .bool b => some (.flag b)
    | .string body => (Json.Quoted.string? body).map .text
    | .array items => some (.list items)
    | .object members =>
      (members.mapM fun m => (Json.Quoted.string? m.1).map fun name => (name, m.2)).map .record
    | .null | .number _ => some .other
  value? raw := raw.value? (Json.nestingLimit - 1)

namespace Document

variable {α : Type} [Document α]

/-- The parts of these names. Two members of one of the names are refused, and so is a list with
more items than names; parts may be missing. -/
def parts? (names : List String) (document : α) : Option (List (Option α)) :=
  match view? document with
  | some (.list items) =>
    if items.length ≤ names.length then some (names.mapIdx fun i _ => items[i]?) else none
  | some (.record members) =>
    names.mapM fun name =>
      match members.filter (·.1 = name) with
      | [] => some none
      | [(_, part)] => some (some part)
      | _ => none
  | _ => none

def flag? (document : α) : Option Bool :=
  match view? document with
  | some (.flag b) => some b
  | _ => none

def text? (document : α) : Option String :=
  match view? document with
  | some (.text s) => some s
  | _ => none

def permissions? (document : α) : Option Permissions := do
  match ← parts? ["read", "write", "configure"] document with
  | [some read, some write, some configure] =>
    return ⟨← flag? read, ← flag? write, ← flag? configure⟩
  | _ => none

def member? (document : α) : Option Member := do
  match ← parts? ["user_id", "permissions"] document with
  | [some user, some permissions] => return ⟨← text? user, ← permissions? permissions⟩
  | _ => none

def members? (document : α) : Option (List Member) :=
  match view? document with
  | some (.list items) => items.mapM member?
  | _ => none

def shared? (document : α) : Option SharedCollection := do
  match ← parts? ["collection", "owner_id", "members"] document with
  | [some collection, some owner, members] =>
    return ⟨← value? collection, ← text? owner, ← (members.map members?).getD (some [])⟩
  | _ => none

end Document

namespace SharedCollection

def ofJson? (value : Json) : Option SharedCollection := Document.shared? value

def ofText? (text : String) : Option SharedCollection := Json.Raw.ofText? text >>= Document.shared?

def memberRecord (m : Member) : Json :=
  .object [("user_id", .string m.user), ("permissions", .object
    [("read", .bool m.permissions.read), ("write", .bool m.permissions.write),
      ("configure", .bool m.permissions.configure)])]

def text (shared : SharedCollection) : String :=
  Json.text <| .object
    [("collection", shared.collection), ("owner_id", .string shared.owner),
      ("members", .array (shared.members.map memberRecord))]

end SharedCollection

end CacheAside
