import CacheAside.Decimal

namespace CacheAside

structure Span where
  seconds : Nat
  nanos : Nat
  seconds_lt : seconds < 0x1_0000_0000_0000_0000 := by decide
  nanos_lt : nanos < 1_000_000_000 := by decide
  deriving DecidableEq, Repr

namespace Span

def zero : Span := { seconds := 0, nanos := 0 }

instance : Inhabited Span := ⟨zero⟩

def longest : Span := { seconds := 0xffff_ffff_ffff_ffff, nanos := 999_999_999 }

def ofSeconds (n : Nat) : Span :=
  if h : n < 0x1_0000_0000_0000_0000 then { seconds := n, nanos := 0, seconds_lt := h } else longest

/-- Nanoseconds beyond a second count as seconds; what does not fit is the longest span. -/
def ofParts (seconds nanos : Nat) : Span :=
  if h : seconds + nanos / 1_000_000_000 < 0x1_0000_0000_0000_0000 then
    { seconds := seconds + nanos / 1_000_000_000
      nanos := nanos % 1_000_000_000
      seconds_lt := h
      nanos_lt := Nat.mod_lt _ (by decide) }
  else longest

def ofMillis (n : Nat) : Span := ofParts (n / 1000) (n % 1000 * 1_000_000)

def toNanos (s : Span) : Nat := s.seconds * 1_000_000_000 + s.nanos

theorem toNanos_ofParts (seconds nanos : Nat) :
    (ofParts seconds nanos).toNanos = min (seconds * 1_000_000_000 + nanos) longest.toNanos := by
  unfold ofParts
  split <;> simp only [toNanos, longest] <;> omega

theorem toNanos_injective {a b : Span} (h : a.toNanos = b.toNanos) : a = b := by
  rcases a with ⟨aSeconds, aNanos, _, aLt⟩
  rcases b with ⟨bSeconds, bNanos, _, bLt⟩
  simp only [toNanos] at h
  obtain rfl : aSeconds = bSeconds := by omega
  obtain rfl : aNanos = bNanos := by omega
  rfl

def toMillis (s : Span) : Nat := s.toNanos / 1_000_000

def ceilMillis (s : Span) : Nat := (s.toNanos + 999_999) / 1_000_000

def scale (s : Span) (factor : Nat) : Span := ofParts (s.seconds * factor) (s.nanos * factor)

theorem toNanos_scale (s : Span) (factor : Nat) :
    (s.scale factor).toNanos = min (s.toNanos * factor) longest.toNanos := by
  have product : s.toNanos * factor = s.seconds * factor * 1_000_000_000 + s.nanos * factor := by
    rw [toNanos, Nat.add_mul, Nat.mul_right_comm]
  rw [scale, toNanos_ofParts, product]

def fraction (places n : Nat) : List Char :=
  let digits := Decimal.digitsOf n
  let padded := List.replicate (places - digits.length) '0' ++ digits
  (padded.reverse.dropWhile (· = '0')).reverse

def withUnit (whole places rest : Nat) (unit : List Char) : List Char :=
  match fraction places rest with
  | [] => Decimal.digitsOf whole ++ unit
  | digits => Decimal.digitsOf whole ++ '.' :: digits ++ unit

def text (s : Span) : String :=
  String.ofList <|
    if 0 < s.seconds then withUnit s.seconds 9 s.nanos ['s']
    else if 1_000_000 ≤ s.nanos then
      withUnit (s.nanos / 1_000_000) 6 (s.nanos % 1_000_000) ['m', 's']
    else if 1_000 ≤ s.nanos then withUnit (s.nanos / 1_000) 3 (s.nanos % 1_000) ['µ', 's']
    else withUnit s.nanos 0 0 ['n', 's']

end Span

end CacheAside
