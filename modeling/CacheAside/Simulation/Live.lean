import CacheAside.Simulation.Agenda
import CacheAside.Simulation.Operation
import CacheAside.Simulation.Scene
import CacheAside.Simulation.Timers

namespace CacheAside

namespace Simulation

inductive Thread (α : Type) where
  | ready (program : Program α)
  | waiting (instant : Nat) (question : Question)
      (next : Except String question.Answer → Program α)
  | ended (result : Except Failure α)

inductive Work where
  | one (thread : Thread Answer)
  | edits (threads : List (String × Thread Outcome))

inductive Lane where
  | rebuilds
  | patches
  deriving DecidableEq, Repr

inductive Party where
  | caller
  | run (lane : Lane) (number attempt : Nat)
  deriving DecidableEq, Repr

namespace Live

inductive Event where
  | go (party : Party) (work : Work)
  | timeout (lane : Lane) (number attempt : Nat)
  | retry (lane : Lane) (number : Nat)
  | tick (timer : Timer)

end Live

structure Live where
  config : Config
  now : Nat
  scene : Scene
  rebuilds : Queue Rebuild
  patches : Queue Patch
  agenda : Agenda Live.Event
  result : Option (Option (Except Failure Answer))
  isUp : Bool

inductive Progress where
  | waiting (instant : Nat) (work : Work)
  | ended (result : Except Failure Answer)
  | broken

namespace Live

def plan (l : Live) (instant : Nat) (event : Event) : Live :=
  { l with agenda := l.agenda.plan instant event }

def advance {α : Type} : Program α → Live → Option (Thread α) × Live
  | .done result, l => (some (.ended result), l)
  | .ask (.source question) next, l =>
    let l := { l with scene := l.scene.ask question }
    match l.scene.source.delay question with
    | 0 =>
      match l.scene.answer question with
      | (none, scene) => (none, { l with scene })
      | (some answer, scene) => advance (next answer) { l with scene }
    | wait => (some (.waiting (l.now + wait) question next), l)
  | .ask (.store call) next, l =>
    let (answer, scene) := l.scene.call call
    advance (next answer) { l with scene }
  | .ask (.offerRebuild job) next, l =>
    let (taken, rebuilds) := l.rebuilds.enqueue job
    advance (next taken) { l with rebuilds }
  | .ask (.offerPatch job) next, l =>
    let (taken, patches) := l.patches.enqueue job
    advance (next taken) { l with patches }
  | .ask .timestamp next, l => advance (next l.scene.time) l

def resume {α : Type} (l : Live) : Thread α → Option (Thread α) × Live
  | .ready program => advance program l
  | .waiting instant question next =>
    if instant ≤ l.now then
      match l.scene.answer question with
      | (none, scene) => (none, { l with scene })
      | (some answer, scene) => advance (next answer) { l with scene }
    else (some (.waiting instant question next), l)
  | .ended result => (some (.ended result), l)

def resumeAll : List (String × Thread Outcome) → Live →
    Option (List (String × Thread Outcome)) × Live
  | [], l => (some [], l)
  | (owner, thread) :: threads, l =>
    match l.resume thread with
    | (none, l) => (none, l)
    | (some thread, l) =>
      match resumeAll threads l with
      | (none, l) => (none, l)
      | (some threads, l) => (some ((owner, thread) :: threads), l)

def instant? {α : Type} : Thread α → Option Nat
  | .waiting instant _ _ => some instant
  | _ => none

def outcomes? (threads : List (String × Thread Outcome)) :
    Option (List (String × Except Failure Outcome)) :=
  threads.mapM fun
    | (owner, .ended outcome) => some (owner, outcome)
    | _ => none

def work (l : Live) : Work → Progress × Live
  | .one thread =>
    match l.resume thread with
    | (none, l) => (.broken, l)
    | (some (.ended result), l) => (.ended result, l)
    | (some thread, l) => (.waiting ((instant? thread).getD l.now) (.one thread), l)
  | .edits threads =>
    match resumeAll threads l with
    | (none, l) => (.broken, l)
    | (some threads, l) =>
      match outcomes? threads with
      | some outcomes => (.ended (.ok (.edited ⟨outcomes⟩)), l)
      | none =>
        let instants := threads.filterMap fun (_, thread) => instant? thread
        (.waiting (instants.min?.getD l.now) (.edits threads), l)

def onLane {α : Type} (l : Live) (lane : Lane) (f : ∀ {J : Type}, Queue J → α × Queue J) :
    α × Live :=
  match lane with
  | .rebuilds =>
    let (a, rebuilds) := f l.rebuilds
    (a, { l with rebuilds })
  | .patches =>
    let (a, patches) := f l.patches
    (a, { l with patches })

def edits (c : Config) (job : Patch) : Work :=
  .edits ((Cache.parts c job).map fun (owner, part) => (owner, .ready part))

def operationWork (c : Config) : Operation → Work
  | .editAll job => edits c job
  | operation => .one (.ready (operation.program c))

def planRun (lane : Lane) (limit : Span) (l : Live) (number attempt : Nat) (work : Work) : Live :=
  (l.plan (l.now + limit.ceilMillis) (.timeout lane number attempt)).plan l.now
    (.go (.run lane number attempt) work)

def serveRebuilds (l : Live) : Live :=
  let (taken, rebuilds) := serveAll l.rebuilds
  taken.foldl (fun l t => planRun .rebuilds l.rebuilds.policy.timeLimit l t.number t.attempt
    (operationWork l.config (.carryOut t.job))) { l with rebuilds }

def servePatches (l : Live) : Live :=
  let (taken, patches) := serveAll l.patches
  taken.foldl (fun l t => planRun .patches l.patches.policy.timeLimit l t.number t.attempt
    (edits l.config t.job)) { l with patches }

def serve (l : Live) : Live := l.serveRebuilds.servePatches

def ending : Except Failure Answer → Ending
  | .ok (.edited report) =>
    match report.verdict with
    | .ok () => .success
    | .error failure => .failure failure.message
  | .ok _ => .success
  | .error failure => .failure failure.message

def finish (l : Live) (lane : Lane) (number attempt : Nat) (ending : Ending) : Live :=
  let now := l.now
  let (due, l) := l.onLane lane fun q =>
    match q.run? number attempt with
    | some t => q.finish now t ending
    | none => (none, q)
  match due with
  | some instant => l.plan instant (.retry lane number)
  | none => l

def isRunning (l : Live) : Party → Bool
  | .caller => true
  | .run .rebuilds number attempt => (l.rebuilds.run? number attempt).isSome
  | .run .patches number attempt => (l.patches.run? number attempt).isSome

def conclude (l : Live) (party : Party) (result : Option (Except Failure Answer)) : Live :=
  match party with
  | .caller => { l with result := some result }
  | .run lane number attempt => l.finish lane number attempt ((result.map ending).getD .panic)

def go (l : Live) (party : Party) (work : Work) : Live :=
  if l.isRunning party then
    match l.work work with
    | (.waiting instant work, l) => l.plan instant (.go party work)
    | (.ended result, l) => l.conclude party (some result)
    | (.broken, l) => l.conclude party none
  else l

def tick (l : Live) (timer : Timer) : Live :=
  plan { l with rebuilds := (l.rebuilds.enqueue (.sweep timer.ns)).2 } timer.next.due
    (.tick timer.next)

def handle (l : Live) : Event → Live
  | .go party work => l.go party work
  | .timeout lane number attempt => l.finish lane number attempt .timeout
  | .retry lane number => (l.onLane lane fun q => ((), q.retry number)).2
  | .tick timer => l.tick timer

def next (l : Live) : Live :=
  match l.agenda with
  | [] => l
  | (instant, event) :: agenda => (handle { l with now := max l.now instant, agenda } event).serve

def runUntil (instant : Nat) : Nat → Live → Live
  | 0, l => l
  | limit + 1, l =>
    match l.agenda with
    | (due, _) :: _ =>
      if due ≤ instant then runUntil instant limit l.next else { l with now := max l.now instant }
    | [] => { l with now := max l.now instant }

def waitFor (done : Live → Bool) : Nat → Live → Live
  | 0, l => l
  | limit + 1, l =>
    match l.agenda with
    | (due, _) :: _ => if l.now < due ∧ done l then l else waitFor done limit l.next
    | [] => l

def settle (l : Live) : Live := runUntil l.now eventLimit l.serve

def start (config : Config) (scene : Scene) : Live :=
  let l : Live := {
    config := config
    now := 0
    scene := scene
    rebuilds := (Queue.create config.rebuilds).start
    patches := (Queue.create config.patches).start
    agenda := []
    result := none
    isUp := true }
  settle (config.timetable.timers.foldl (fun l timer => l.plan timer.due (.tick timer)) l)

def perform (l : Live) (operation : Operation) : Option (Except Failure Answer) × Live :=
  let l := plan { l with result := none } l.now (.go .caller (operationWork l.config operation))
  let l := waitFor (·.result.isSome) eventLimit l
  (l.result.getD none, l)

def sleep (l : Live) (ms : Nat) : Live := runUntil (l.now + ms) eventLimit l.settle

def awaitIdle (l : Live) : Live :=
  waitFor (fun l => l.rebuilds.outstanding = 0 ∧ l.patches.outstanding = 0) eventLimit l.settle

def stopTimers (l : Live) : Live :=
  { l with
    isUp := false
    agenda := l.agenda.filter fun
      | (_, .tick _) => false
      | _ => true }

def stopRebuilds (l : Live) : Live := settle { l with rebuilds := l.rebuilds.stop }

def stopPatches (l : Live) : Live := settle { l with patches := l.patches.stop }

/-- Stops the timers, then the workers of the rebuild queue, then those of the patch queue, and
waits each time for the runs that are going on. -/
def shutdown (l : Live) : Live :=
  let l := waitFor (·.rebuilds.running.isEmpty) eventLimit l.stopTimers.stopRebuilds
  waitFor (·.patches.running.isEmpty) eventLimit l.stopPatches

def halt (l : Live) : Live := l.stopTimers.stopRebuilds.stopPatches

def change (l : Live) (change : Change) : Live := settle { l with scene := l.scene.change change }

end Live

end Simulation

end CacheAside
