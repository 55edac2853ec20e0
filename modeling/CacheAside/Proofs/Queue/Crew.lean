import CacheAside.Proofs.Program.Runs
import CacheAside.Proofs.Queue.Accounting

namespace CacheAside

/-- How the jobs of a queue are carried out: what a run begins with, how it goes on, and how it may
end when nothing is left of it. -/
structure Trade (J β : Type) where
  begin : J → β
  turn : β → Exchange → β → Prop
  ends : β → Ending → Prop

structure Duty (J β : Type) where
  ticket : Ticket J
  work : β

structure Crew (J β : Type) where
  queue : Queue J
  duties : List (Duty J β)

namespace Queue

variable {J : Type}

def Event.concernsRun : Event J → Bool
  | taken _ => true
  | ended .. => true
  | _ => false

def Event.isTaken : Event J → Bool
  | taken _ => true
  | _ => false

def Event.accepted? : Event J → Option J
  | offered job true => some job
  | _ => none

theorem Event.accepted?_eq_some {event : Event J} {job : J} :
    event.accepted? = some job ↔ event = .offered job true := by
  constructor
  · intro accepted
    cases event with
    | offered _ taken =>
      cases taken with
      | false => cases accepted
      | true =>
        cases accepted
        rfl
    | _ => cases accepted
  · rintro rfl
    rfl

def tickets (q : Queue J) : List (Ticket J) :=
  q.channel ++ q.running ++ q.waiting.map (·.ticket)

structure Known (jobs : List J) (q : Queue J) : Prop where
  enqueued : jobs.length = q.enqueued
  tickets : ∀ t ∈ q.tickets, jobs[t.number]? = some t.job

theorem mem_tickets {q : Queue J} {t : Ticket J} :
    t ∈ q.tickets ↔ t ∈ q.channel ∨ t ∈ q.running ∨ ∃ r ∈ q.waiting, r.ticket = t := by
  simp [tickets]

theorem mem_tickets_of_running {q : Queue J} {t : Ticket J} (running : t ∈ q.running) :
    t ∈ q.tickets :=
  mem_tickets.mpr (.inr (.inl running))

theorem Effect.tickets {q q' : Queue J} {event : Event J} (effect : Effect q event q') :
    ∀ t ∈ q'.tickets, (∃ u ∈ q.tickets, u.number = t.number ∧ u.job = t.job) ∨
      ∃ job, event = .offered job true ∧ t = ⟨q.enqueued, job, 1⟩ := by
  intro t there
  have left : ∀ u, t ∈ q.others u → t ∈ q.running := fun _ => List.mem_of_mem_filter
  cases effect <;> simp only [mem_tickets] at there ⊢ <;> grind

theorem known_of_run {policy : QueuePolicy} {events : List (Event J)} {q : Queue J}
    (run : Run (create policy).start events q) : Known (events.filterMap Event.accepted?) q := by
  induction run with
  | nil => exact ⟨rfl, nofun⟩
  | @snoc events event q q' before step ih =>
    obtain ⟨enqueued, tickets⟩ := ih
    have effect := (accounts_of_run before).effect step
    have counted : (events.filterMap Event.accepted? ++ event.accepted?.toList).length =
        q'.enqueued := by
      rw [List.length_append, enqueued]
      cases effect <;> rfl
    have grown := filterMap_snoc Event.accepted? events event
    refine ⟨grown ▸ counted, fun t there => ?_⟩
    rw [grown]
    rcases effect.tickets t there with ⟨u, was, number, job⟩ | ⟨job, rfl, rfl⟩
    · rw [← number, ← job]
      have known := tickets u was
      rw [List.getElem?_append_left (List.getElem?_eq_some_iff.mp known).1, known]
    · simp [Event.accepted?, ← enqueued]

end Queue

namespace Crew

variable {J β : Type} {trade : Trade J β} {crew crew' : Crew J β} {event : Queue.Event J}
  {t : Ticket J} {x : Exchange}

def start (policy : QueuePolicy) : Crew J β := ⟨(Queue.create policy).start, []⟩

def others (crew : Crew J β) (t : Ticket J) : List (Duty J β) :=
  crew.duties.filter fun duty =>
    !(duty.ticket.number = t.number && duty.ticket.attempt = t.attempt)

inductive Works (trade : Trade J β) (crew : Crew J β) : Queue.Event J → Crew J β → Prop
  | beside {event : Queue.Event J} {q : Queue J} (step : Queue.Step crew.queue event q)
    (apart : event.concernsRun = false) : Works trade crew event ⟨q, crew.duties⟩
  | begins {t : Ticket J} {q : Queue J} (step : Queue.Step crew.queue (.taken t) q) :
    Works trade crew (.taken t) ⟨q, crew.duties ++ [⟨t, trade.begin t.job⟩]⟩
  | ends {duty : Duty J β} {now : Nat} {ending : Ending} {q : Queue J} (there : duty ∈ crew.duties)
    (ended : trade.ends duty.work ending ∨ ending = .panic ∨ ending = .timeout)
    (step : Queue.Step crew.queue (.ended now duty.ticket ending) q) :
    Works trade crew (.ended now duty.ticket ending) ⟨q, crew.others duty.ticket⟩

inductive Turns (trade : Trade J β) (crew : Crew J β) (t : Ticket J) (x : Exchange) :
    Crew J β → Prop
  | turn {before after : List (Duty J β)} {work work' : β}
    (place : crew.duties = before ++ ⟨t, work⟩ :: after) (turn : trade.turn work x work') :
    Turns trade crew t x ⟨crew.queue, before ++ ⟨t, work'⟩ :: after⟩

theorem Works.step (works : crew.Works trade event crew') :
    Queue.Step crew.queue event crew'.queue := by
  cases works with
  | beside step => exact step
  | begins step => exact step
  | ends _ _ step => exact step

theorem Turns.alone {work work' : β} (alone : crew.duties = [⟨t, work⟩])
    (turn : trade.turn work x work') : crew.Turns trade t x ⟨crew.queue, [⟨t, work'⟩]⟩ :=
  have place : crew.duties = [] ++ ⟨t, work⟩ :: [] := alone
  .turn place turn

theorem Turns.queue (turns : crew.Turns trade t x crew') : crew'.queue = crew.queue := by
  cases turns
  rfl

def Manned (crew : Crew J β) : Prop := crew.duties.map (·.ticket) = crew.queue.running

theorem map_others (manned : crew.Manned) (t : Ticket J) :
    (crew.others t).map (·.ticket) = crew.queue.others t := by
  rw [Queue.others, ← manned, List.filter_map]
  rfl

theorem running_of_apart {q q' : Queue J} (effect : Queue.Effect q event q')
    (apart : event.concernsRun = false) : q'.running = q.running := by
  cases effect with
  | taken | completed | retried | failed => cases apart
  | _ => rfl

theorem Works.manned (works : crew.Works trade event crew')
    (effect : Queue.Effect crew.queue event crew'.queue) (manned : crew.Manned) :
    crew'.Manned := by
  cases works with
  | beside step apart => exact manned.trans (running_of_apart effect apart).symm
  | begins =>
    cases effect with
    | taken =>
      simp only [Manned, List.map_append, List.map_cons, List.map_nil]
      rw [manned]
  | ends =>
    cases effect with
    | completed | retried | failed => exact map_others manned _

theorem Turns.manned (turns : crew.Turns trade t x crew') (manned : crew.Manned) :
    crew'.Manned := by
  cases turns with
  | turn place => simpa [Manned, place] using manned

variable {policy : QueuePolicy} {events : List (Queue.Event J)}

theorem distinct_duties (accounts : Queue.Accounts policy events crew.queue)
    (manned : crew.Manned) : (crew.duties.map (·.ticket.number)).Nodup := by
  have distinct := accounts.distinct_running
  rwa [← manned, List.map_map] at distinct

theorem perm_duties (accounts : Queue.Accounts policy events crew.queue) (manned : crew.Manned)
    {duty : Duty J β} (there : duty ∈ crew.duties) :
    crew.duties.Perm (duty :: crew.others duty.ticket) := by
  have distinct := distinct_duties accounts manned
  refine Queue.perm_filter distinct there fun other member => ?_
  constructor
  · intro stays same
    obtain rfl : other = duty := List.inj_on_of_nodup_map distinct member there same
    simp at stays
  · intro different
    simp [different]

end Crew

end CacheAside
