import CacheAside.Namespace
import CacheAside.Span

namespace CacheAside

structure Cadence where
  ns : Namespace
  every : Span
  deriving DecidableEq, Repr

structure Timetable where
  cadences : List Cadence
  tickAtStart : Bool
  deriving DecidableEq, Repr

namespace Timetable

def standard : Timetable where
  cadences :=
    [⟨.state, .ofSeconds 600⟩, ⟨.userStats, .ofSeconds 1800⟩, ⟨.collections, .ofSeconds 3600⟩,
      ⟨.shareLinks, .ofSeconds 3600⟩, ⟨.insights, .ofSeconds 14400⟩]
  tickAtStart := true

end Timetable

/-- A timer: what it sweeps, how often, and when it ticks next, in nanoseconds from the start. -/
structure Timer where
  ns : Namespace
  every : Span
  deadline : Nat
  deriving DecidableEq, Repr

namespace Timer

def due (timer : Timer) : Nat := (timer.deadline + 999_999) / 1_000_000

/-- The timer after a tick. The next deadline counts from the last one and not from when it was
served. -/
def next (timer : Timer) : Timer := { timer with deadline := timer.deadline + timer.every.toNanos }

def ticksBy (instant : Nat) (timer : Timer) : Nat := instant * 1_000_000 / timer.every.toNanos + 1

end Timer

def Timetable.timers (table : Timetable) : List Timer :=
  (table.cadences.filter (·.every ≠ .zero)).map fun c =>
    ⟨c.ns, c.every, if table.tickAtStart then 0 else c.every.toNanos⟩

end CacheAside
