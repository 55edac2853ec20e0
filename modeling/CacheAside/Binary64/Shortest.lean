import CacheAside.Binary64
import CacheAside.Decimal

namespace CacheAside

namespace Binary64

/-- The real numbers that round to a double, in quarters of `2 ^ -1074`; the ends belong to it when
the significand is even. -/
structure Interval where
  low : Nat
  high : Nat
  closed : Bool

def interval (d : Binary64) : Interval :=
  let unit := Nat.pow 2 d.exponent
  let below := if d.significand = Nat.pow 2 52 ∧ 0 < d.exponent then unit else 2 * unit
  { low := 4 * d.magnitude - below
    high := 4 * d.magnitude + 2 * unit
    closed := d.significand % 2 = 0 }

def tenRatio (exponent : Int) : Nat × Nat :=
  (Nat.pow 10 exponent.toNat, Nat.pow 10 (-exponent).toNat)

def Interval.holds (i : Interval) (digits : Nat) (exponent : Int) : Bool :=
  let (up, down) := tenRatio exponent
  let value := digits * up * (4 * Nat.pow 2 1074)
  let low := i.low * down
  let high := i.high * down
  if i.closed then low ≤ value && value ≤ high else low < value && value < high

def leading (d : Binary64) : Int :=
  ((Nat.toDigits 10 (d.magnitude * Nat.pow 10 342 / Nat.pow 2 1074)).length : Int) - 343

def gridPoint? (d : Binary64) (exponent : Int) : Option Nat :=
  let (up, down) := tenRatio exponent
  let num := d.magnitude * down
  let den := Nat.pow 2 1074 * up
  let floor := num / den
  let nearest := roundDiv num den
  let other := if nearest = floor then floor + 1 else floor
  if d.interval.holds nearest exponent then some nearest
  else if d.interval.holds other exponent then some other
  else none

/-- Tries one digit more at a time; seventeen always suffice. -/
def shortestFrom (d : Binary64) : Nat → Int → Decimal
  | 0, exponent => ⟨roundDiv (d.magnitude * (tenRatio exponent).2)
      (Nat.pow 2 1074 * (tenRatio exponent).1), exponent⟩
  | more + 1, exponent =>
    match d.gridPoint? exponent with
    | some digits => ⟨digits, exponent⟩
    | none => shortestFrom d more (exponent - 1)

/-- The fewest digits that are read as the same double, and of those the nearest to it. -/
def shortest (d : Binary64) : Decimal := .trim 17 (shortestFrom d 16 d.leading)

end Binary64

end CacheAside
