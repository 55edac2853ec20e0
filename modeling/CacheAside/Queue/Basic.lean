import CacheAside.Queue.Policy

namespace CacheAside

/-- An accepted job. Its number says how many were accepted before it; `attempt` is the number of
the run that it is in or waits for. -/
structure Ticket (J : Type) where
  number : Nat
  job : J
  attempt : Nat
  deriving Repr

structure Retry (J : Type) where
  due : Nat
  ticket : Ticket J
  deriving Repr

/-- A job that was given up after its last run had failed, and how that failed. The date of it is
left out: nothing here depends on it. -/
structure DeadLetter (J : Type) where
  job : J
  attempts : Nat
  error : String
  deriving Repr

/-- How a run ends. Nobody but the queue can cancel a run, and the queue does so at the time limit
alone, so there is no ending for any other cancellation. -/
inductive Ending where
  | success
  | failure (message : String)
  | panic
  | timeout
  deriving DecidableEq, Repr

def Ending.error? (policy : QueuePolicy) : Ending → Option String
  | success => none
  | failure message => some message
  | panic => some "job panicked"
  | timeout => some ("job timed out after " ++ policy.timeLimit.text)

/-- A queue with its workers. Instants are counted in whole milliseconds. -/
structure Queue (J : Type) where
  policy : QueuePolicy
  workers : Nat
  stopping : Bool
  isOpen : Bool
  channel : List (Ticket J)
  running : List (Ticket J)
  waiting : List (Retry J)
  enqueued : Nat
  completed : Nat
  failed : Nat
  retried : Nat
  /-- How many accepted jobs have not come to an end, as far as the queue has counted. -/
  outstanding : Nat
  deadLetters : List (DeadLetter J)
  deriving Repr

namespace Queue

variable {J : Type}

def create (policy : QueuePolicy) : Queue J where
  policy := policy
  workers := 0
  stopping := false
  isOpen := true
  channel := []
  running := []
  waiting := []
  enqueued := 0
  completed := 0
  failed := 0
  retried := 0
  outstanding := 0
  deadLetters := []

def start (q : Queue J) : Queue J := { q with workers := q.policy.workers }

def enqueue (job : J) (q : Queue J) : Bool × Queue J :=
  if q.isOpen then
    (true, { q with
      channel := q.channel ++ [⟨q.enqueued, job, 1⟩]
      enqueued := q.enqueued + 1
      outstanding := q.outstanding + 1 })
  else (false, q)

def hasFreeWorker (q : Queue J) : Bool := q.running.length < q.workers

def take? (q : Queue J) : Option (Ticket J × Queue J) :=
  if q.hasFreeWorker ∧ !q.stopping then
    match q.channel with
    | [] => none
    | t :: channel => some (t, { q with channel, running := q.running ++ [t] })
  else none

def run? (q : Queue J) (number attempt : Nat) : Option (Ticket J) :=
  q.running.find? fun t => t.number = number ∧ t.attempt = attempt

def keep (limit : Nat) (letters : List (DeadLetter J)) (letter : DeadLetter J) :
    List (DeadLetter J) :=
  if limit = 0 then letters
  else (if letters.length = limit then letters.drop 1 else letters) ++ [letter]

def release (q : Queue J) : Queue J := { q with outstanding := q.outstanding - 1 }

/-- The run of `t` ends at the instant `now`. A job that has runs left waits for the next one; the
instant at which it will be put back is answered. -/
def finish (now : Nat) (t : Ticket J) (ending : Ending) (q : Queue J) : Option Nat × Queue J :=
  let q := { q with
    running := q.running.filter fun r => !(r.number = t.number && r.attempt = t.attempt) }
  match ending.error? q.policy with
  | none => (none, { q.release with completed := q.completed + 1 })
  | some error =>
    if t.attempt < q.policy.attempts then
      let due := now + (q.policy.pauseAfter t.attempt).ceilMillis
      (some due, { q with
        retried := q.retried + 1
        waiting := q.waiting ++ [⟨due, { t with attempt := t.attempt + 1 }⟩] })
    else
      (none, { q.release with
        failed := q.failed + 1
        deadLetters := keep q.policy.deadLetterLimit q.deadLetters ⟨t.job, t.attempt, error⟩ })

def retry (number : Nat) (q : Queue J) : Queue J :=
  match q.waiting.find? (·.ticket.number = number) with
  | none => q
  | some r =>
    let q := { q with waiting := q.waiting.filter (·.ticket.number ≠ number) }
    if q.isOpen then { q with channel := q.channel ++ [r.ticket] } else q.release

/-- The workers are told to stop; the runs that are going on are not broken off. -/
def stop (q : Queue J) : Queue J := { q with stopping := true }

/-- A worker that has stopped closes the channel and drops what is in it. -/
def close (q : Queue J) : Queue J :=
  if q.stopping ∧ q.hasFreeWorker then
    { q with isOpen := false, channel := [], outstanding := q.outstanding - q.channel.length }
  else q

/-- The receiving end of a queue that was never started goes away. The jobs in the channel are lost
without coming to an end. -/
def abandon (q : Queue J) : Queue J := { q with isOpen := false, channel := [] }

end Queue

end CacheAside
