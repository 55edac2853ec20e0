import CacheAside.Json.Basic

namespace CacheAside

namespace Json

def isBlank (c : Char) : Bool := c = ' ' || c = '\t' || c = '\n' || c = '\r'

structure Literal where
  negative : Bool
  whole : List Char
  fraction : Option (List Char)
  exponent : Option Int
  deriving DecidableEq, Repr

namespace Literal

def digitOf (c : Char) : Nat := c.toNat - '0'.toNat

def take : Nat → List Char → Nat × List Char
  | n, [] => (n, [])
  | n, c :: cs =>
    if n * 10 + digitOf c < 0x1_0000_0000_0000_0000 then take (n * 10 + digitOf c) cs
    else (n, c :: cs)

def decimal (l : Literal) : Nat × Int :=
  let (n, dropped) := take 0 l.whole
  let places := (dropped.length : Int) + l.exponent.getD 0
  match l.fraction with
  | none => (n, places)
  | some digits =>
    let (n, dropped) := take n digits
    (n, places - (digits.length - dropped.length))

def double? (l : Literal) : Option Binary64 :=
  let (n, places) := l.decimal
  (Binary64.ofDecimal n places).map fun d => if l.negative then d.negate else d

def natural (l : Literal) : Nat := Nat.ofDigitChars 10 l.whole 0

/-- A literal without fraction and exponent is an integer if it fits; `-0` is a double. -/
def number? (l : Literal) : Option Number :=
  let value : Int := if l.negative then -l.natural else l.natural
  if l.fraction = none ∧ l.exponent = none ∧ Number.Fits value ∧ ¬(l.negative ∧ value = 0) then
    some (.integer value)
  else l.double?.map .double

def digits? (cs : List Char) : Option (List Char × List Char) :=
  match cs.takeWhile Char.isDigit with
  | [] => none
  | digits => some (digits, cs.dropWhile Char.isDigit)

def whole? (cs : List Char) : Option (List Char × List Char) :=
  match digits? cs with
  | some ('0' :: _ :: _, _) => none
  | part => part

def fraction? : List Char → Option (Option (List Char) × List Char)
  | '.' :: cs => (digits? cs).map fun (digits, rest) => (some digits, rest)
  | cs => some (none, cs)

def power? (sign : Int) (cs : List Char) : Option (Option Int × List Char) :=
  (digits? cs).map fun (digits, rest) => (some (sign * Nat.ofDigitChars 10 digits 0), rest)

def exponent? : List Char → Option (Option Int × List Char)
  | [] => some (none, [])
  | c :: cs =>
    if c = 'e' ∨ c = 'E' then
      match cs with
      | '+' :: cs => power? 1 cs
      | '-' :: cs => power? (-1) cs
      | cs => power? 1 cs
    else some (none, c :: cs)

def unsigned? (negative : Bool) (cs : List Char) : Option (Literal × List Char) := do
  let (whole, cs) ← whole? cs
  let (fraction, cs) ← fraction? cs
  let (exponent, cs) ← exponent? cs
  return (⟨negative, whole, fraction, exponent⟩, cs)

def read? : List Char → Option (Literal × List Char)
  | '-' :: cs => unsigned? true cs
  | cs => unsigned? false cs

end Literal

namespace Quoted

def hexValue? (c : Char) : Option Nat :=
  if '0' ≤ c ∧ c ≤ '9' then some (c.toNat - '0'.toNat)
  else if 'a' ≤ c ∧ c ≤ 'f' then some (c.toNat - 'a'.toNat + 10)
  else if 'A' ≤ c ∧ c ≤ 'F' then some (c.toNat - 'A'.toNat + 10)
  else none

def unit? (a b c d : Char) : Option Nat := do
  return (← hexValue? a) * 4096 + (← hexValue? b) * 256 + (← hexValue? c) * 16 + (← hexValue? d)

def named? (c : Char) : Option Char :=
  if c = '"' ∨ c = '\\' ∨ c = '/' then some c
  else if c = 'b' then some '\x08'
  else if c = 'f' then some '\x0c'
  else if c = 'n' then some '\n'
  else if c = 'r' then some '\r'
  else if c = 't' then some '\t'
  else none

/-- The body of a string up to its closing quote, and what follows. Control characters are refused
and so is a backslash without a letter or four digits that it knows. -/
def body? : List Char → Option (List Char × List Char)
  | [] => none
  | '"' :: rest => some ([], rest)
  | '\\' :: 'u' :: a :: b :: c :: d :: rest =>
    match unit? a b c d, body? rest with
    | some _, some (body, rest) => some ('\\' :: 'u' :: a :: b :: c :: d :: body, rest)
    | _, _ => none
  | '\\' :: c :: rest =>
    match named? c, body? rest with
    | some _, some (body, rest) => some ('\\' :: c :: body, rest)
    | _, _ => none
  | c :: rest =>
    if c.toNat < 32 then none else (body? rest).map fun (body, rest) => (c :: body, rest)

def chars? : List Char → Option (List Char)
  | [] => some []
  | '\\' :: 'u' :: a :: b :: c :: d :: rest =>
    match unit? a b c d with
    | none => none
    | some unit =>
      if 0xDC00 ≤ unit ∧ unit < 0xE000 then none
      else if 0xD800 ≤ unit ∧ unit < 0xDC00 then
        match rest with
        | '\\' :: 'u' :: a :: b :: c :: d :: rest =>
          match unit? a b c d with
          | none => none
          | some low =>
            if 0xDC00 ≤ low ∧ low < 0xE000 then
              (chars? rest).map
                (Char.ofNat (0x10000 + (unit - 0xD800) * 0x400 + (low - 0xDC00)) :: ·)
            else none
        | _ => none
      else (chars? rest).map (Char.ofNat unit :: ·)
  | '\\' :: c :: rest =>
    match named? c with
    | none => none
    | some c => (chars? rest).map (c :: ·)
  | c :: rest => (chars? rest).map (c :: ·)

def string? (body : List Char) : Option String := (chars? body).map String.ofList

end Quoted

end Json

end CacheAside
