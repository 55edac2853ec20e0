import CacheAside.Job
import CacheAside.Simulation.Agenda
import CacheAside.Timetable

namespace CacheAside

namespace Simulation

structure Timers where
  now : Nat
  queue : Queue Rebuild
  agenda : Agenda Timer
  seen : List (Nat × Rebuild)

namespace Timers

def see (t : Timers) (ticket : Ticket Rebuild) : Timers :=
  { t with
    queue := (t.queue.finish t.now ticket .success).2
    seen := t.seen ++ [(t.now, ticket.job)] }

def serve (t : Timers) : Timers :=
  let (taken, queue) := serveAll t.queue
  taken.foldl see { t with queue }

def tick (t : Timers) (timer : Timer) : Timers :=
  serve { t with
    queue := (t.queue.enqueue (.sweep timer.ns)).2
    agenda := t.agenda.plan timer.next.due timer.next }

def runUntil (instant : Nat) : Nat → Timers → Timers
  | 0, t => { t with now := instant }
  | limit + 1, t =>
    match t.agenda with
    | [] => { t with now := instant }
    | (due, timer) :: agenda =>
      if due ≤ instant then runUntil instant limit (tick { t with now := due, agenda } timer)
      else { t with now := instant }

def advance (instant : Nat) (t : Timers) : Timers :=
  runUntil instant (t.agenda.foldl (fun count (_, timer) => count + timer.ticksBy instant) 0) t

def start (table : Timetable) : Timers :=
  advance 0 {
    now := 0
    queue := (Queue.create { QueuePolicy.rebuilds with concurrency := 1 }).start
    agenda := table.timers.foldl (fun agenda timer => agenda.plan timer.due timer) []
    seen := [] }

def sleep (t : Timers) (ms : Nat) : Timers := advance (t.now + ms) t

def shutdown (t : Timers) : Timers := { t with agenda := [] }

def closeQueue (t : Timers) : Timers := serve { t with queue := t.queue.stop }

end Timers

end Simulation

end CacheAside
