import CacheAside.Simulation.Agenda

namespace CacheAside

namespace Simulation

structure Action where
  wait : Nat
  ending : Ending
  deriving Repr

namespace Workers

inductive Event where
  | begin (t : Ticket String)
  | finish (t : Ticket String) (ending : Ending)
  | timeout (t : Ticket String)
  | retry (number : Nat)
  deriving Repr

end Workers

inductive Phase where
  | unstarted
  | started
  | gone
  deriving DecidableEq, Repr

structure Workers where
  now : Nat
  queue : Queue String
  phase : Phase
  script : List (String × List Action)
  agenda : Agenda Workers.Event
  runs : List (Nat × String × Nat)
  active : List Nat
  peak : Nat

namespace Workers

def create (policy : QueuePolicy) (script : List (String × List Action)) : Workers where
  now := 0
  queue := .create policy
  phase := .unstarted
  script := script
  agenda := []
  runs := []
  active := []
  peak := 0

def plan (w : Workers) (instant : Nat) (event : Event) : Workers :=
  { w with agenda := w.agenda.plan instant event }

def planRun (w : Workers) (t : Ticket String) : Workers :=
  (w.plan (w.now + w.queue.policy.timeLimit.ceilMillis) (.timeout t)).plan w.now (.begin t)

def serve (w : Workers) : Workers :=
  let (taken, queue) := serveAll w.queue
  taken.foldl planRun { w with queue }

/-- The run number `n` of a name: the last action is repeated, and without any a run succeeds. -/
def action (script : List (String × List Action)) (job : String) (n : Nat) : Action :=
  let actions := (script.lookup job).getD []
  (actions[n - 1]?.or actions.getLast?).getD ⟨0, .success⟩

def finish (w : Workers) (t : Ticket String) (ending : Ending) : Workers :=
  let (due, queue) := w.queue.finish w.now t ending
  let w := { w with queue, active := w.active.filter (· ≠ t.number) }
  match due with
  | some instant => w.plan instant (.retry t.number)
  | none => w

def begin (w : Workers) (t : Ticket String) : Workers :=
  let n := (w.runs.filter fun (_, job, _) => job = t.job).length + 1
  let active := t.number :: w.active
  let w := { w with
    runs := w.runs ++ [(w.now, t.job, n)]
    active := active
    peak := max w.peak active.length }
  let a := action w.script t.job n
  if a.wait = 0 then w.finish t a.ending else w.plan (w.now + a.wait) (.finish t a.ending)

def onRun (w : Workers) (t : Ticket String) (f : Workers → Workers) : Workers :=
  if (w.queue.run? t.number t.attempt).isSome then f w else w

def handle (w : Workers) : Event → Workers
  | .begin t => w.onRun t (·.begin t)
  | .finish t ending => w.onRun t (·.finish t ending)
  | .timeout t => w.onRun t (·.finish t .timeout)
  | .retry number => { w with queue := w.queue.retry number }

def next (w : Workers) : Workers :=
  match w.agenda with
  | [] => w
  | (instant, event) :: agenda => (handle { w with now := max w.now instant, agenda } event).serve

def runUntil (instant : Nat) : Nat → Workers → Workers
  | 0, w => w
  | limit + 1, w =>
    match w.agenda with
    | (due, _) :: _ =>
      if due ≤ instant then runUntil instant limit w.next else { w with now := max w.now instant }
    | [] => { w with now := max w.now instant }

def waitFor (done : Workers → Bool) : Nat → Workers → Workers
  | 0, w => w
  | limit + 1, w =>
    match w.agenda with
    | (due, _) :: _ => if w.now < due ∧ done w then w else waitFor done limit w.next
    | [] => w

def settle (w : Workers) : Workers := runUntil w.now eventLimit w.serve

def start (w : Workers) : Option Nat × Workers :=
  match w.phase with
  | .unstarted =>
    let w := settle { w with queue := w.queue.start, phase := .started }
    (some w.queue.workers, w)
  | _ => (none, w)

def enqueueAll : List String → Workers → List Bool × Workers
  | [], w => ([], w)
  | job :: jobs, w =>
    let (taken, queue) := w.queue.enqueue job
    let (rest, w) := enqueueAll jobs { w with queue }
    (taken :: rest, w)

def enqueue (w : Workers) (jobs : List String) : List Bool × Workers :=
  let (taken, w) := enqueueAll jobs w
  (taken, w.settle)

def sleep (w : Workers) (ms : Nat) : Workers := runUntil (w.now + ms) eventLimit w.settle

def awaitIdle (w : Workers) : Workers := waitFor (·.queue.outstanding = 0) eventLimit w.settle

def shutdown (w : Workers) : Option Workers :=
  match w.phase with
  | .started =>
    some (waitFor (·.queue.running.isEmpty) eventLimit
      (settle { w with queue := w.queue.stop, phase := .gone }))
  | _ => none

def dismiss (w : Workers) : Bool × Workers :=
  match w.phase with
  | .started => (true, settle { w with queue := w.queue.stop, phase := .gone })
  | _ => (false, w)

def abandon (w : Workers) : Bool × Workers :=
  match w.phase with
  | .unstarted => (true, { w with queue := w.queue.abandon, phase := .gone })
  | _ => (false, w)

end Workers

end Simulation

end CacheAside
