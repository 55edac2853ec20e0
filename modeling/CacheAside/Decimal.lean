namespace CacheAside

structure Decimal where
  digits : Nat
  exponent : Int
  deriving DecidableEq, Repr

namespace Decimal

def digitsOf (n : Nat) : List Char := Nat.toDigits 10 n

def text (n : Nat) : String := String.ofList (digitsOf n)

def integer : Int → List Char
  | .ofNat n => digitsOf n
  | .negSucc n => '-' :: digitsOf (n + 1)

/-- The powers of ten of a leading digit between which a number is written positionally. -/
structure Layout where
  lowest : Int
  highest : Int

def trim : Nat → Decimal → Decimal
  | 0, d => d
  | count + 1, d =>
    if d.digits % 10 = 0 ∧ d.digits ≠ 0 then trim count ⟨d.digits / 10, d.exponent + 1⟩ else d

def write (layout : Layout) (d : Decimal) : List Char :=
  let digits := digitsOf d.digits
  let places := digits.length
  let leading := d.exponent + places - 1
  if layout.lowest ≤ leading ∧ leading ≤ layout.highest then
    if 0 ≤ d.exponent then digits ++ List.replicate d.exponent.toNat '0' ++ ['.', '0']
    else if 0 ≤ leading then
      digits.take (leading.toNat + 1) ++ '.' :: digits.drop (leading.toNat + 1)
    else ['0', '.'] ++ List.replicate (-leading - 1).toNat '0' ++ digits
  else
    let power := (if 0 ≤ leading then '+' else '-') :: digitsOf leading.natAbs
    match digits with
    | [digit] => digit :: 'e' :: power
    | digit :: rest => digit :: '.' :: rest ++ 'e' :: power
    | [] => []

end Decimal

end CacheAside
