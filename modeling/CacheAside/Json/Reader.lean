import CacheAside.Json.Fields
import CacheAside.Json.Literal

namespace CacheAside

namespace Json

/-- A text that follows the grammar. Numbers and strings are kept as written, and looked into only
when a value is made of it. -/
inductive Raw where
  | null
  | bool (value : Bool)
  | number (literal : Literal)
  | string (body : List Char)
  | array (items : List Raw)
  | object (members : List (List Char × Raw))
  deriving Repr, Inhabited

namespace Raw

def name? : List Char → Option (List Char × List Char)
  | '"' :: rest => Quoted.body? rest
  | _ => none

mutual

def value : Nat → List Char → Option (Raw × List Char)
  | 0, _ => none
  | fuel + 1, cs =>
    match cs.dropWhile isBlank with
    | 'n' :: 'u' :: 'l' :: 'l' :: rest => some (null, rest)
    | 't' :: 'r' :: 'u' :: 'e' :: rest => some (bool true, rest)
    | 'f' :: 'a' :: 'l' :: 's' :: 'e' :: rest => some (bool false, rest)
    | '"' :: rest => (Quoted.body? rest).map fun (body, rest) => (string body, rest)
    | '[' :: rest =>
      match rest.dropWhile isBlank with
      | ']' :: rest => some (array [], rest)
      | rest => (items fuel rest).map fun (vs, rest) => (array vs, rest)
    | '{' :: rest =>
      match rest.dropWhile isBlank with
      | '}' :: rest => some (object [], rest)
      | rest => (members fuel rest).map fun (vs, rest) => (object vs, rest)
    | rest => (Literal.read? rest).map fun (literal, rest) => (number literal, rest)

def items : Nat → List Char → Option (List Raw × List Char)
  | 0, _ => none
  | fuel + 1, cs =>
    match value fuel cs with
    | none => none
    | some (v, rest) =>
      match rest.dropWhile isBlank with
      | ']' :: rest => some ([v], rest)
      | ',' :: rest => (items fuel rest).map fun (vs, rest) => (v :: vs, rest)
      | _ => none

def members : Nat → List Char → Option (List (List Char × Raw) × List Char)
  | 0, _ => none
  | fuel + 1, cs =>
    match name? (cs.dropWhile isBlank) with
    | none => none
    | some (name, rest) =>
      match rest.dropWhile isBlank with
      | ':' :: rest =>
        match value fuel rest with
        | none => none
        | some (v, rest) =>
          match rest.dropWhile isBlank with
          | '}' :: rest => some ([(name, v)], rest)
          | ',' :: rest => (members fuel rest).map fun (vs, rest) => ((name, v) :: vs, rest)
          | _ => none
      | _ => none

end

def ofChars? (cs : List Char) : Option Raw :=
  match value (2 * cs.length + 2) cs with
  | some (v, rest) => if rest.all isBlank then some v else none
  | none => none

def ofText? (text : String) : Option Raw := ofChars? text.toList

mutual

def value? : Raw → Nat → Option Json
  | null, _ => some .null
  | bool b, _ => some (.bool b)
  | number literal, _ => literal.number?.map .number
  | string body, _ => (Quoted.string? body).map .string
  | array _, 0 => none
  | array vs, room + 1 => (values? vs room).map .array
  | object _, 0 => none
  | object vs, room + 1 => (fields? vs room).map fun members => .object (Fields.ofList members)
termination_by structural raw => raw

def values? : List Raw → Nat → Option (List Json)
  | [], _ => some []
  | v :: vs, room => do return (← value? v room) :: (← values? vs room)
termination_by structural raws => raws

def fields? : List (List Char × Raw) → Nat → Option (List (String × Json))
  | [], _ => some []
  | (name, v) :: vs, room => do
    return (← Quoted.string? name, ← value? v room) :: (← fields? vs room)
termination_by structural members => members

end

end Raw

def nestingLimit : Nat := 127

def ofText? (text : String) : Option Json := do (← Raw.ofText? text).value? nestingLimit

end Json

end CacheAside
