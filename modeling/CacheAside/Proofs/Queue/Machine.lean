import CacheAside.Queue.Basic

namespace CacheAside

namespace Queue

variable {J : Type}

inductive Event (J : Type) where
  | offered (job : J) (accepted : Bool)
  | taken (t : Ticket J)
  | ended (now : Nat) (t : Ticket J) (ending : Ending)
  | returned (r : Retry J) (sent : Bool)
  | stopped
  | closed (dropped : List (Ticket J))

inductive Step : Queue J → Event J → Queue J → Prop
  | offered (q : Queue J) (job : J) : Step q (.offered job (q.enqueue job).1) (q.enqueue job).2
  | taken {q q' : Queue J} {t : Ticket J} (next : q.take? = some (t, q')) : Step q (.taken t) q'
  | ended {q : Queue J} {t : Ticket J} (running : t ∈ q.running) (now : Nat) (ending : Ending) :
    Step q (.ended now t ending) (q.finish now t ending).2
  | returned {q : Queue J} {r : Retry J} (waits : r ∈ q.waiting) :
    Step q (.returned r q.isOpen) (q.retry r.ticket.number)
  | stopped (q : Queue J) : Step q .stopped q.stop
  | closed {q : Queue J} (stopping : q.stopping = true) (free : q.hasFreeWorker = true) :
    Step q (.closed q.channel) q.close

inductive Run (start : Queue J) : List (Event J) → Queue J → Prop
  | nil : Run start [] start
  | snoc {events : List (Event J)} {event : Event J} {q q' : Queue J}
    (before : Run start events q) (step : Step q event q') : Run start (events ++ [event]) q'

def numbers (q : Queue J) : List Nat :=
  q.channel.map (·.number) ++ q.running.map (·.number) ++ q.waiting.map (·.ticket.number)

theorem length_numbers (q : Queue J) :
    q.numbers.length = q.channel.length + q.running.length + q.waiting.length := by
  simp only [numbers, List.length_append, List.length_map]

theorem count_numbers (q : Queue J) (n : Nat) :
    q.numbers.count n = (q.channel.map (·.number)).count n + (q.running.map (·.number)).count n +
      (q.waiting.map (·.ticket.number)).count n := by
  simp only [numbers, List.count_append]

theorem enqueue_eq (job : J) (q : Queue J) :
    q.isOpen = true ∧ q.enqueue job = (true, { q with
      channel := q.channel ++ [⟨q.enqueued, job, 1⟩]
      enqueued := q.enqueued + 1
      outstanding := q.outstanding + 1 }) ∨ q.isOpen = false ∧ q.enqueue job = (false, q) := by
  cases opened : q.isOpen <;> simp [enqueue, opened]

theorem take?_eq_some {q q' : Queue J} {t : Ticket J} :
    q.take? = some (t, q') ↔ q.hasFreeWorker = true ∧ q.stopping = false ∧ ∃ channel,
      q.channel = t :: channel ∧ q' = { q with channel, running := q.running ++ [t] } := by
  unfold take?
  constructor
  · intro next
    split at next
    · rename_i ready
      split at next
      · cases next
      · rename_i first channel same
        cases next
        exact ⟨ready.1, by simpa using ready.2, channel, same, rfl⟩
    · cases next
  · intro h
    obtain ⟨free, going, channel, same, rfl⟩ := h
    simp [free, going, same]

def others (q : Queue J) (t : Ticket J) : List (Ticket J) :=
  q.running.filter fun r => !(r.number = t.number && r.attempt = t.attempt)

inductive Verdict where
  | completed
  | retried
  | failed
  deriving DecidableEq, Repr

def verdict (policy : QueuePolicy) (t : Ticket J) (ending : Ending) : Verdict :=
  if (ending.error? policy).isNone then .completed
  else if t.attempt < policy.attempts then .retried
  else .failed

theorem verdict_eq_completed {policy : QueuePolicy} {t : Ticket J} {ending : Ending} :
    verdict policy t ending = .completed ↔ ending = .success := by
  cases ending <;> simp [verdict, Ending.error?] <;> split <;> simp

theorem verdict_eq_retried {policy : QueuePolicy} {t : Ticket J} {ending : Ending} :
    verdict policy t ending = .retried ↔ ending ≠ .success ∧ t.attempt < policy.attempts := by
  cases ending <;> simp [verdict, Ending.error?]

theorem verdict_eq_failed {policy : QueuePolicy} {t : Ticket J} {ending : Ending} :
    verdict policy t ending = .failed ↔ ending ≠ .success ∧ policy.attempts ≤ t.attempt := by
  cases ending <;> simp [verdict, Ending.error?]

theorem finish_of_completed {q : Queue J} {t : Ticket J} {ending : Ending}
    (completed : verdict q.policy t ending = .completed) (now : Nat) :
    q.finish now t ending = (none, { q with
      running := q.others t
      outstanding := q.outstanding - 1
      completed := q.completed + 1 }) := by
  cases error : ending.error? q.policy with
  | none =>
    simp only [finish, error]
    rfl
  | some message =>
    by_cases left : t.attempt < q.policy.attempts <;> simp [verdict, error, left] at completed

theorem finish_of_retried {q : Queue J} {t : Ticket J} {ending : Ending}
    (retried : verdict q.policy t ending = .retried) (now : Nat) :
    let due := now + (q.policy.pauseAfter t.attempt).ceilMillis
    q.finish now t ending = (some due, { q with
      running := q.others t
      retried := q.retried + 1
      waiting := q.waiting ++ [⟨due, { t with attempt := t.attempt + 1 }⟩] }) := by
  cases error : ending.error? q.policy with
  | none => simp [verdict, error] at retried
  | some message =>
    by_cases left : t.attempt < q.policy.attempts
    · simp only [finish, error, if_pos left]
      rfl
    · simp [verdict, error, left] at retried

theorem finish_of_failed {q : Queue J} {t : Ticket J} {ending : Ending}
    (failed : verdict q.policy t ending = .failed) (now : Nat) :
    ∃ message, ending.error? q.policy = some message ∧ q.finish now t ending = (none, { q with
      running := q.others t
      outstanding := q.outstanding - 1
      failed := q.failed + 1
      deadLetters :=
        keep q.policy.deadLetterLimit q.deadLetters ⟨t.job, t.attempt, message⟩ }) := by
  cases error : ending.error? q.policy with
  | none => simp [verdict, error] at failed
  | some message =>
    by_cases left : t.attempt < q.policy.attempts
    · simp [verdict, error, left] at failed
    · refine ⟨message, rfl, ?_⟩
      simp only [finish, error, if_neg left]
      rfl

theorem Step.of_closed {q q' : Queue J} {event : Event J} (step : Step q event q')
    (closed : q.isOpen = false) : q'.isOpen = false ∧ q'.enqueued = q.enqueued := by
  cases step with
  | offered job =>
    rcases enqueue_eq job q with ⟨opened, -⟩ | ⟨-, refused⟩
    · cases closed.symm.trans opened
    · rw [refused]
      exact ⟨closed, rfl⟩
  | taken next =>
    obtain ⟨-, -, channel, -, rfl⟩ := take?_eq_some.mp next
    exact ⟨closed, rfl⟩
  | ended =>
    unfold finish
    dsimp only
    split
    · exact ⟨closed, rfl⟩
    · split <;> exact ⟨closed, rfl⟩
  | returned =>
    unfold retry
    split
    · exact ⟨closed, rfl⟩
    · dsimp only
      split <;> exact ⟨closed, rfl⟩
  | stopped => exact ⟨closed, rfl⟩
  | closed =>
    unfold close
    split
    · exact ⟨rfl, rfl⟩
    · exact ⟨closed, rfl⟩

theorem filterMap_snoc {α β : Type} (f : α → Option β) (as : List α) (a : α) :
    (as ++ [a]).filterMap f = as.filterMap f ++ (f a).toList := by
  cases seen : f a <;> simp [seen]

theorem perm_filter {α : Type} {number : α → Nat} {jobs : List α} {job : α} {p : α → Bool}
    (unique : (jobs.map number).Nodup) (there : job ∈ jobs)
    (spares : ∀ other ∈ jobs, p other = true ↔ number other ≠ number job) :
    jobs.Perm (job :: jobs.filter p) := by
  induction jobs with
  | nil => cases there
  | cons first rest ih =>
    obtain ⟨absent, distinct⟩ := List.nodup_cons.mp unique
    obtain ⟨first_spared, spared⟩ := List.forall_mem_cons.mp spares
    rcases List.mem_cons.mp there with rfl | there
    · have gone : p job = false := by
        simpa using fun stayed => first_spared.mp stayed rfl
      have all : rest.filter p = rest := by
        refine List.filter_eq_self.mpr fun other member => (spared other member).mpr fun same => ?_
        exact absent (same ▸ List.mem_map_of_mem member)
      rw [List.filter_cons_of_neg (by simp [gone]), all]
    · have stayed : p first = true :=
        first_spared.mpr fun same => absent (same ▸ List.mem_map_of_mem there)
      rw [List.filter_cons_of_pos stayed]
      exact ((ih distinct there spared).cons _).trans (.swap ..)

end Queue

end CacheAside
