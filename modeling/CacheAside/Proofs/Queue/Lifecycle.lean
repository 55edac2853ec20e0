import CacheAside.Proofs.Queue.Channel
import CacheAside.Proofs.Queue.Clock

namespace CacheAside

namespace Queue

variable {J : Type} {policy : QueuePolicy} {history : List (Nat × Event J)} {c : Clocked J}
  {q : Queue J} {event : Event J}

theorem Accounts.numbers_places (accounts : Accounts policy (history.map (·.2)) c.queue) :
    ((c.places history).map (·.1)).Perm (List.range c.queue.enqueued) := by
  rw [Clocked.places, numbers_placed, accounts.samePolicy]
  exact accounts.places

/-- Every job has the log that leads to its place, the clock agrees with all places, and nothing has
happened to jobs that were not accepted. -/
structure Chronicle (policy : QueuePolicy) (history : List (Nat × Event J)) (c : Clocked J) :
    Prop where
  leads : ∀ number place, (number, place) ∈ c.places history →
    Leads policy (story number history) place
  punctual : c.Punctual history
  unheard : ∀ number, c.queue.enqueued ≤ number → story number history = []

theorem Chronicle.wait (chronicle : Chronicle policy history c) {instant : Nat}
    (free : c.MayWait instant) : Chronicle policy history { c with now := instant } := by
  refine ⟨chronicle.leads, fun number place there => ?_, chronicle.unheard⟩
  have before := chronicle.punctual number place there
  simp only [Clocked.places, placed, List.mem_append, List.mem_map] at there
  rcases there with ((⟨t, _, same⟩ | ⟨t, running, same⟩) | ⟨r, waits, same⟩) | ⟨e, _, same⟩ <;>
    cases same
  · trivial
  · exact ⟨Nat.le_trans before.1 free.later, free.limits t running⟩
  · exact free.pauses r waits
  · trivial

theorem Chronicle.step (chronicle : Chronicle policy history c)
    (accounts : Accounts policy (history.map (·.2)) c.queue) (step : Step c.queue event q)
    (timely : c.Timely event) :
    Chronicle policy (history ++ [(c.now, event)]) (c.after event q) := by
  obtain ⟨moved, rest, shift⟩ := accounts.shift chronicle.punctual timely (accounts.effect step)
  have balances := accounts.balances step
  have numbered := (shift.before.map (·.1)).symm.trans accounts.numbers_places
  rw [List.map_append, List.map_map] at numbered
  have distinct := numbered.nodup_iff.mpr List.nodup_range
  -- a job that the step does not move, or that is not known yet, has nothing to add to its log
  have silent : ∀ number, number ∉ moved.map (·.1) →
      story number (history ++ [(c.now, event)]) = story number history := by
    intro number stays
    rw [story_snoc]
    cases happens : event.happening? number with
    | none => exact List.append_nil _
    | some happening => exact absurd (shift.all number happening happens) stays
  have unknown : ∀ number, c.queue.enqueued ≤ number → number ∉ moved.map (·.1) := by
    intro number later there
    have known := numbered.mem_iff.mp (List.mem_append_left _ there)
    rw [List.mem_range] at known
    omega
  have lives : ∀ number place, (number, place) ∈ (c.after event q).places
      (history ++ [(c.now, event)]) →
      Leads policy (story number (history ++ [(c.now, event)])) place ∧
        place.Punctual policy c.now := by
    intro number place there
    have there := shift.after.mem_iff.mp there
    rw [List.mem_append, List.mem_append, List.mem_map] at there
    rcases there with (⟨⟨n, left, right⟩, member, same⟩ | stayed) | fresh
    · cases same
      obtain ⟨happening, happens, moves⟩ := shift.moves _ member
      have before : (n, left) ∈ c.places history :=
        shift.before.mem_iff.mpr (List.mem_append_left _ (List.mem_map_of_mem member))
      refine ⟨?_, moves.punctual⟩
      rw [story_snoc, happens]
      exact (chronicle.leads n left before).goesOn moves
    · have before := shift.before.mem_iff.mpr (List.mem_append_right _ stayed)
      have stays : number ∉ moved.map (·.1) := fun there =>
        (List.nodup_append.mp distinct).2.2 _ there _ (List.mem_map_of_mem stayed) rfl
      rw [silent number stays]
      refine ⟨chronicle.leads number place before, ?_⟩
      rw [← accounts.samePolicy]
      exact chronicle.punctual number place before
    · split at fresh
      · cases List.mem_singleton.mp fresh
        rw [silent _ (unknown _ (Nat.le_refl _)), chronicle.unheard _ (Nat.le_refl _)]
        exact ⟨.accepted, trivial⟩
      · cases fresh
  refine ⟨fun number place there => (lives number place there).1, fun number place there => ?_, ?_⟩
  · have same : (c.after event q).queue.policy = policy :=
      balances.samePolicy.trans accounts.samePolicy
    rw [same]
    exact (lives number place there).2
  · intro number later
    have earlier : c.queue.enqueued ≤ number := by
      have more := balances.enqueued
      have here : q.enqueued ≤ number := later
      omega
    rw [silent number (unknown number earlier), chronicle.unheard number earlier]

theorem Timed.chronicle (timed : Timed policy history c) : Chronicle policy history c := by
  induction timed with
  | start => exact ⟨nofun, nofun, fun _ _ => rfl⟩
  | wait _ _ free ih => exact ih.wait free
  | step before step timely ih => exact ih.step (accounts_of_run before.run) step timely

/-- At any time every accepted job is in one place, and its log is that of a job there: no two runs
of it overlap, it comes back when the pause after a failed run is over, and what its runs came to
decides how it ends. No more jobs run than there are workers, jobs leave the channel in the order in
which they came, and a run that is over, however it ended, leaves its worker free. -/
theorem job_lifecycle (timed : Timed policy history c) :
    ((c.places history).map (·.1)).Perm (List.range c.queue.enqueued) ∧
    (∀ number place, (number, place) ∈ c.places history →
      Biography policy (story number history) place) ∧
    (∀ number, (number, .settled .dropped) ∈ c.places history → .stopped ∈ history.map (·.2)) ∧
    (∀ r ∈ c.queue.waiting, c.now ≤ r.due) ∧
    c.queue.running.length ≤ max policy.concurrency 1 ∧
    arrivals 0 (history.map (·.2)) =
      (history.map (·.2)).flatMap Event.departures ++ c.queue.channel ∧
    ∀ now t ending q, Step c.queue (.ended now t ending) q →
      q.workers = max policy.concurrency 1 ∧ q.running.length + 1 = c.queue.running.length ∧
      ∀ next rest, q.stopping = false → q.channel = next :: rest →
        ∃ q', Step q (.taken next) q' := by
  have run := timed.run
  have accounts := accounts_of_run run
  have chronicle := timed.chronicle
  obtain ⟨workers, enough⟩ := workers_of_run run
  obtain ⟨told, _, lost⟩ := stopped_of_run run
  refine ⟨accounts.numbers_places, ?_, ?_, ?_, Nat.le_trans enough (Nat.le_of_eq workers),
    first_in_first_out run, ?_⟩
  · intro number place there
    exact (chronicle.leads number place there).biography
  · intro number there
    have settled : (number, .dropped) ∈ fates policy (history.map (·.2)) := by
      simpa [Clocked.places, placed, accounts.samePolicy] using there
    exact told (lost number settled)
  · intro r waits
    refine chronicle.punctual r.ticket.number (.waiting r.ticket.attempt r.due) ?_
    simp only [Clocked.places, placed, List.mem_append, List.mem_map]
    exact .inl (.inr ⟨r, waits, rfl⟩)
  · intro now t ending q step
    obtain ⟨same, fewer, next⟩ := accounts.next_after enough step
    exact ⟨same.trans workers, fewer, next⟩

/-- A job fails, comes back after a second, and succeeds. -/
theorem job_lifecycle_rebuilds : ∃ (history : List (Nat × Event Nat)) (c : Clocked Nat),
    Timed .rebuilds history c ∧ c.queue.outstanding = 0 ∧
      Biography .rebuilds (story 0 history) (.settled .completed) ∧
      (story 0 history).comebacks = [(1000, 2)] := by
  have idle : Timed .rebuilds [] ⟨(create .rebuilds : Queue Nat).start, 0, fun _ => 0⟩ := .start 0
  have offered := idle.step (.offered _ 7) trivial
  have taken := offered.step (.taken (t := ⟨0, 7, 1⟩) rfl) trivial
  have failed := taken.step (.ended (t := ⟨0, 7, 1⟩) List.mem_cons_self 0 .panic) ⟨rfl, nofun⟩
  have waited := failed.wait 1000 ⟨by decide, by decide, nofun⟩
  have returned := waited.step (.returned (r := ⟨1000, ⟨0, 7, 2⟩⟩) List.mem_cons_self) rfl
  have again := returned.step (.taken (t := ⟨0, 7, 2⟩) rfl) trivial
  have completed := again.step (.ended (t := ⟨0, 7, 2⟩) List.mem_cons_self 1000 .success)
    ⟨rfl, nofun⟩
  obtain ⟨_, biography, _⟩ := job_lifecycle completed
  exact ⟨_, _, completed, rfl, biography 0 (.settled .completed) List.mem_cons_self, rfl⟩

def unevenPauses : QueuePolicy :=
  { QueuePolicy.rebuilds with firstPause := .ofParts 0 1_500_000 }

/-- After a pause of one and a half milliseconds a job comes back when two are over. -/
theorem pause_not_exact : ¬ ∀ (policy : QueuePolicy) (history : List (Nat × Event Nat))
    (c : Clocked Nat), Timed policy history c →
    ∀ number now attempt, (now, attempt + 1) ∈ (story number history).comebacks →
      ∃ failed ending, (failed, attempt, ending) ∈ (story number history).endings ∧
        now * 1_000_000 = failed * 1_000_000 + (policy.pauseAfter attempt).toNanos := by
  intro exact_pause
  have idle : Timed unevenPauses [] ⟨(create unevenPauses : Queue Nat).start, 0, fun _ => 0⟩ :=
    .start 0
  have offered := idle.step (.offered _ 7) trivial
  have taken := offered.step (.taken (t := ⟨0, 7, 1⟩) rfl) trivial
  have failed := taken.step (.ended (t := ⟨0, 7, 1⟩) List.mem_cons_self 0 .panic) ⟨rfl, nofun⟩
  have waited := failed.wait 2 ⟨by decide, by decide, nofun⟩
  have returned := waited.step (.returned (r := ⟨2, ⟨0, 7, 2⟩⟩) List.mem_cons_self) rfl
  obtain ⟨instant, ending, there, same⟩ := exact_pause _ _ _ returned 0 2 1 List.mem_cons_self
  obtain ⟨rfl, _⟩ := Prod.mk.inj (List.mem_singleton.mp there)
  exact absurd same (by decide)

end Queue

end CacheAside
