namespace CacheAside

/-- The number `significand * 2 ^ exponent * 2 ^ -1074`, below zero when `negative`. -/
structure Binary64 where
  negative : Bool
  significand : Nat
  exponent : Nat
  deriving DecidableEq, Repr, Inhabited

namespace Binary64

def magnitude (d : Binary64) : Nat := d.significand * Nat.pow 2 d.exponent

def scaled (d : Binary64) : Int := if d.negative then -d.magnitude else d.magnitude

def same (a b : Binary64) : Bool := a.scaled == b.scaled

def zero (negative : Bool) : Binary64 := ⟨negative, 0, 0⟩

def negate (d : Binary64) : Binary64 := { d with negative := !d.negative }

def roundDiv (a d : Nat) : Nat :=
  let q := a / d
  let r := a % d
  if 2 * r < d then q
  else if d < 2 * r then q + 1
  else if q % 2 = 0 then q else q + 1

def exponentOf (units : Nat) : Nat := units.log2 + 1 - 53

/-- The double nearest to `num / den`, of two equally near ones the one with the even significand;
nothing beyond the largest one. -/
def ofRatio (num den : Nat) : Option Binary64 :=
  let scaled := num * Nat.pow 2 1074
  let e := exponentOf (scaled / den)
  let m := roundDiv scaled (den * Nat.pow 2 e)
  let d : Binary64 := if m = Nat.pow 2 53 then ⟨false, Nat.pow 2 52, e + 1⟩ else ⟨false, m, e⟩
  if d.exponent ≤ 2045 then some d else none

def mul (a b : Binary64) : Option Binary64 :=
  ofRatio (a.magnitude * b.magnitude) (Nat.pow 2 1074 * Nat.pow 2 1074)

def div (a b : Binary64) : Option Binary64 := ofRatio a.magnitude b.magnitude

def tenPow (n : Nat) : Option Binary64 := ofRatio (Nat.pow 10 n) 1

/-- `significand * 10 ^ exponent` in double arithmetic: the significand, the power of ten and their
product or quotient are rounded one after the other. Below `10 ^ -308` the division is made in two
steps, and what lies below `10 ^ -616` is zero. Nothing when the result is too large. -/
def ofDecimal (significand : Nat) (exponent : Int) : Option Binary64 := do
  let d ← ofRatio significand 1
  if 0 ≤ exponent then
    if significand = 0 then some d
    else if 308 < exponent then none
    else d.mul (← tenPow exponent.toNat)
  else
    let places := (-exponent).toNat
    if places ≤ 308 then d.div (← tenPow places)
    else
      let d ← d.div (← tenPow 308)
      if places ≤ 616 then d.div (← tenPow (places - 308)) else some (zero false)

end Binary64

end CacheAside
