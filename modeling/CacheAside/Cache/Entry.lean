import CacheAside.Config
import CacheAside.Json.Printer
import CacheAside.Json.Reader
import CacheAside.Program

namespace CacheAside

namespace Cache

open Program

/-- The value stored at a key. A text that cannot be read is erased and counts as missing, whether
or not it could be erased. -/
def load (key : Key) : Program (Option Json) := do
  match ← store (.get key.text) with
  | none => return none
  | some text =>
    match Json.ofText? text with
    | some value => return some value
    | none =>
      let _ ← attempt (store (.erase key.text))
      return none

def unchanged? (stampField : String) (payload : Json.Fields) (text : String) : Option Json :=
  match Json.ofText? text with
  | some (.object stored) =>
    if (Json.Fields.find? stored stampField).isSome ∧
        Json.sameFields (Json.Fields.erase stampField stored) payload then
      some (.object stored)
    else none
  | _ => none

/-- Stores the payload with the present time, unless the same payload is there already. If entries
expire, one that stays is written again as it is, to last longer. -/
def saveStamped (c : Config) (key : Key) (stampField : String) (payload : Json.Fields) :
    Program Json := do
  let text ← store (.get key.text)
  match text, text.bind (unchanged? stampField payload) with
  | some text, some stored =>
    if c.lifetime.isSome then store (.set key.text text c.lifetime)
    return stored
  | _, _ =>
    let value := .object (payload.insert stampField (.string (← timestamp)))
    store (.set key.text value.text c.lifetime)
    return value

def save (c : Config) (key : Key) (value : Json) : Program Json :=
  match c.stampField, value with
  | some stampField, .object fields =>
    saveStamped c key stampField (Json.Fields.erase stampField fields)
  | _, value => do
    store (.set key.text value.text c.lifetime)
    return value

end Cache

end CacheAside
