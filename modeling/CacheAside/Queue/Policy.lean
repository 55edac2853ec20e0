import CacheAside.Span

namespace CacheAside

structure QueuePolicy where
  name : String
  concurrency : Nat
  attempts : Nat
  /-- The pause before the second run; every later one is twice as long. -/
  firstPause : Span
  timeLimit : Span
  deadLetterLimit : Nat
  deriving DecidableEq, Repr

namespace QueuePolicy

def rebuilds : QueuePolicy where
  name := "cache:rebuild"
  concurrency := 3
  attempts := 3
  firstPause := .ofSeconds 1
  timeLimit := .ofSeconds 600
  deadLetterLimit := 100

def patches : QueuePolicy where
  name := "cache:patch"
  concurrency := 3
  attempts := 1
  firstPause := .ofSeconds 1
  timeLimit := .ofSeconds 60
  deadLetterLimit := 0

def workers (policy : QueuePolicy) : Nat := max policy.concurrency 1

/-- How many times the first pause comes after the run of this number: a power of two, as long as
that is a word of 32 bits, and the largest such word from then on. -/
def pauseFactor (attempt : Nat) : Nat :=
  if attempt - 1 < 32 then Nat.pow 2 (attempt - 1) else 0xffff_ffff

def pauseAfter (policy : QueuePolicy) (attempt : Nat) : Span :=
  policy.firstPause.scale (pauseFactor attempt)

end QueuePolicy

end CacheAside
