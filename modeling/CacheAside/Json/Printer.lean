import CacheAside.Binary64.Shortest
import CacheAside.Json.Basic

namespace CacheAside

namespace Json

def doubleLayout : Decimal.Layout := ⟨-5, 15⟩

def writeDouble (d : Binary64) : List Char :=
  (if d.negative then ['-'] else []) ++
    if d.significand = 0 then ['0', '.', '0'] else d.shortest.write doubleLayout

end Json

def Number.chars : Number → List Char
  | integer value => Decimal.integer value
  | double value => Json.writeDouble value

def Number.text (n : Number) : String := String.ofList n.chars

namespace Json

def hexDigit (n : Nat) : Char := Nat.digitChar n

def escape (c : Char) : List Char :=
  if c = '"' then ['\\', '"']
  else if c = '\\' then ['\\', '\\']
  else if c = '\x08' then ['\\', 'b']
  else if c = '\x0c' then ['\\', 'f']
  else if c = '\n' then ['\\', 'n']
  else if c = '\r' then ['\\', 'r']
  else if c = '\t' then ['\\', 't']
  else if c.toNat < 32 then
    ['\\', 'u', '0', '0', hexDigit (c.toNat / 16), hexDigit (c.toNat % 16)]
  else [c]

def writeString (s : String) : List Char := '"' :: s.toList.flatMap escape ++ ['"']

mutual

def chars : Json → List Char
  | null => ['n', 'u', 'l', 'l']
  | bool true => ['t', 'r', 'u', 'e']
  | bool false => ['f', 'a', 'l', 's', 'e']
  | number n => n.chars
  | string s => writeString s
  | array items => '[' :: writeItems items ++ [']']
  | object fields => '{' :: writeFields fields ++ ['}']
termination_by structural value => value

def writeItems : List Json → List Char
  | [] => []
  | [v] => chars v
  | v :: vs => chars v ++ ',' :: writeItems vs
termination_by structural items => items

def writeFields : List (String × Json) → List Char
  | [] => []
  | [(name, v)] => writeString name ++ ':' :: chars v
  | (name, v) :: vs => writeString name ++ ':' :: chars v ++ ',' :: writeFields vs
termination_by structural fields => fields

end

def text (value : Json) : String := String.ofList value.chars

end Json

end CacheAside
