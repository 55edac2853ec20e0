import CacheAside.Proofs.Queue.Machine
import Mathlib.Data.List.Nodup

namespace CacheAside

namespace Queue

variable {J : Type}

/-- The cases of a step, each with the queue that it leaves. -/
inductive Effect (q : Queue J) : Event J → Queue J → Prop
  | accepted (job : J) (opened : q.isOpen = true) : Effect q (.offered job true)
    { q with
      channel := q.channel ++ [⟨q.enqueued, job, 1⟩]
      enqueued := q.enqueued + 1
      outstanding := q.outstanding + 1 }
  | refused (job : J) (closed : q.isOpen = false) : Effect q (.offered job false) q
  | taken {t : Ticket J} {channel : List (Ticket J)} (free : q.hasFreeWorker = true)
    (going : q.stopping = false) (next : q.channel = t :: channel) :
    Effect q (.taken t) { q with channel, running := q.running ++ [t] }
  | completed {t : Ticket J} {ending : Ending} (running : t ∈ q.running) (now : Nat)
    (decided : verdict q.policy t ending = .completed) : Effect q (.ended now t ending)
    { q with
      running := q.others t
      outstanding := q.outstanding - 1
      completed := q.completed + 1 }
  | retried {t : Ticket J} {ending : Ending} (running : t ∈ q.running) (now : Nat)
    (decided : verdict q.policy t ending = .retried) : Effect q (.ended now t ending)
    { q with
      running := q.others t
      retried := q.retried + 1
      waiting := q.waiting ++ [⟨now + (q.policy.pauseAfter t.attempt).ceilMillis,
        { t with attempt := t.attempt + 1 }⟩] }
  | failed {t : Ticket J} {ending : Ending} {message : String} (running : t ∈ q.running)
    (now : Nat) (decided : verdict q.policy t ending = .failed)
    (error : ending.error? q.policy = some message) : Effect q (.ended now t ending)
    { q with
      running := q.others t
      outstanding := q.outstanding - 1
      failed := q.failed + 1
      deadLetters := keep q.policy.deadLetterLimit q.deadLetters ⟨t.job, t.attempt, message⟩ }
  | sent {r : Retry J} (waits : r ∈ q.waiting) (opened : q.isOpen = true) :
    Effect q (.returned r true)
    { q with
      waiting := q.waiting.filter (·.ticket.number ≠ r.ticket.number)
      channel := q.channel ++ [r.ticket] }
  | dropped {r : Retry J} (waits : r ∈ q.waiting) (closed : q.isOpen = false) :
    Effect q (.returned r false)
    { q with
      waiting := q.waiting.filter (·.ticket.number ≠ r.ticket.number)
      outstanding := q.outstanding - 1 }
  | stopped : Effect q .stopped { q with stopping := true }
  | closed (stopping : q.stopping = true) (free : q.hasFreeWorker = true) :
    Effect q (.closed q.channel)
    { q with isOpen := false, channel := [], outstanding := q.outstanding - q.channel.length }

variable {q q' : Queue J} {event : Event J}

theorem retry_eq (distinct : (q.waiting.map (·.ticket.number)).Nodup) {r : Retry J}
    (waits : r ∈ q.waiting) :
    q.retry r.ticket.number =
      let rest := { q with waiting := q.waiting.filter (·.ticket.number ≠ r.ticket.number) }
      if q.isOpen then { rest with channel := q.channel ++ [r.ticket] } else rest.release := by
  cases found : q.waiting.find? (·.ticket.number = r.ticket.number) with
  | none => simpa using List.find?_eq_none.mp found r waits
  | some s =>
    have there := List.mem_of_find?_eq_some found
    have same : s.ticket.number = r.ticket.number := by simpa using List.find?_some found
    obtain rfl : s = r := List.inj_on_of_nodup_map distinct there waits same
    simp only [retry, found]

theorem Step.effect (step : Step q event q')
    (distinct : (q.waiting.map (·.ticket.number)).Nodup) : Effect q event q' := by
  cases step with
  | offered job =>
    rcases enqueue_eq job q with ⟨opened, accepted⟩ | ⟨closed, refused⟩
    · rw [accepted]
      exact .accepted job opened
    · rw [refused]
      exact .refused job closed
  | taken next =>
    obtain ⟨free, going, channel, same, rfl⟩ := take?_eq_some.mp next
    exact .taken free going same
  | @ended t running now ending =>
    cases decided : verdict q.policy t ending with
    | completed =>
      rw [finish_of_completed decided]
      exact .completed running now decided
    | retried =>
      have finished := finish_of_retried decided now
      simp only at finished
      rw [finished]
      exact .retried running now decided
    | failed =>
      obtain ⟨message, error, finished⟩ := finish_of_failed decided now
      rw [finished]
      exact .failed running now decided error
  | returned waits =>
    rw [retry_eq distinct waits]
    cases opened : q.isOpen with
    | true =>
      have sent := Effect.sent waits opened
      rwa [opened] at sent
    | false =>
      have dropped := Effect.dropped waits opened
      rwa [opened] at dropped
  | stopped => exact .stopped
  | closed stopping free =>
    have closed : q.close = { q with
        isOpen := false
        channel := []
        outstanding := q.outstanding - q.channel.length } := if_pos ⟨stopping, free⟩
    rw [closed]
    exact .closed stopping free

end Queue

end CacheAside
