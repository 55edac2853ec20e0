import CacheAside.Queue.Basic

namespace CacheAside

namespace Simulation

abbrev Agenda (E : Type) := List (Nat × E)

def Agenda.plan {E : Type} (agenda : Agenda E) (instant : Nat) (e : E) : Agenda E :=
  match agenda with
  | [] => [(instant, e)]
  | (instant', e') :: rest =>
    if instant < instant' then (instant, e) :: (instant', e') :: rest
    else (instant', e') :: Agenda.plan rest instant e

def eventLimit : Nat := 100_000_000

/-- Free workers take jobs as long as there are any; answers the jobs that were taken, in order. If
the workers have been told to stop, a free one closes the channel instead. `limit` bounds how many
jobs are taken. -/
def serve {J : Type} : Nat → Queue J → List (Ticket J) × Queue J
  | 0, q => ([], q)
  | limit + 1, q =>
    if q.stopping then ([], q.close)
    else
      match q.take? with
      | none => ([], q)
      | some (t, q) =>
        let (taken, q) := serve limit q
        (t :: taken, q)

def serveAll {J : Type} (q : Queue J) : List (Ticket J) × Queue J := serve (q.channel.length + 1) q

end Simulation

end CacheAside
