import CacheAside.Proofs.Queue.Effects

namespace CacheAside

namespace Queue

variable {J : Type}

/-- How a job that was accepted came to its end; it is dropped when the queue is closed to it. -/
inductive Fate where
  | completed
  | failed
  | dropped
  deriving DecidableEq, Repr

namespace Event

def fates (policy : QueuePolicy) : Event J → List (Nat × Fate)
  | ended _ t ending =>
    match verdict policy t ending with
    | .completed => [(t.number, .completed)]
    | .retried => []
    | .failed => [(t.number, .failed)]
  | returned r sent => if sent then [] else [(r.ticket.number, .dropped)]
  | closed dropped => dropped.map fun t => (t.number, .dropped)
  | _ => []

def accepts : Event J → Bool
  | offered _ accepted => accepted
  | _ => false

def endsRun : Event J → Bool
  | ended .. => true
  | _ => false

end Event

def fates (policy : QueuePolicy) (events : List (Event J)) : List (Nat × Fate) :=
  events.flatMap (Event.fates policy)

/-- What the counters of a queue say of the steps that led to it. -/
structure Accounts (policy : QueuePolicy) (events : List (Event J)) (q : Queue J) : Prop where
  samePolicy : q.policy = policy
  places : (q.numbers ++ (fates policy events).map (·.1)).Perm (List.range q.enqueued)
  outstanding : q.outstanding = q.numbers.length
  enqueued : q.enqueued = events.countP Event.accepts
  completed : q.completed = (fates policy events).countP (·.2 = .completed)
  failed : q.failed = (fates policy events).countP (·.2 = .failed)
  runs : events.countP Event.endsRun = q.completed + q.failed + q.retried

/-- What a step does to the counters and to the places of jobs; what leaves the one is found in the
other. Nothing is taken from a counter that it does not have. -/
structure Balances (q : Queue J) (event : Event J) (q' : Queue J) : Prop where
  samePolicy : q'.policy = q.policy
  places : (q'.numbers ++ (event.fates q.policy).map (·.1)).Perm
    (q.numbers ++ if event.accepts then [q.enqueued] else [])
  outstanding : q'.outstanding + (event.fates q.policy).length =
    q.outstanding + event.accepts.toNat
  enqueued : q'.enqueued = q.enqueued + event.accepts.toNat
  completed : q'.completed = q.completed + (event.fates q.policy).countP (·.2 = .completed)
  failed : q'.failed = q.failed + (event.fates q.policy).countP (·.2 = .failed)
  runs : q'.completed + q'.failed + q'.retried =
    q.completed + q.failed + q.retried + event.endsRun.toNat

variable {policy : QueuePolicy} {events : List (Event J)} {event : Event J} {q q' : Queue J}

theorem fates_snoc (policy : QueuePolicy) (events : List (Event J)) (event : Event J) :
    fates policy (events ++ [event]) = fates policy events ++ event.fates policy := by
  simp [fates]

theorem countP_snoc {α : Type} (p : α → Bool) (as : List α) (a : α) :
    (as ++ [a]).countP p = as.countP p + (p a).toNat := by
  cases holds : p a <;> simp [holds]

theorem accounts_start (policy : QueuePolicy) :
    Accounts policy [] (create policy : Queue J).start := by
  constructor <;> simp [start, create, numbers, fates]

theorem Balances.length_numbers (balances : Balances q event q') :
    q'.numbers.length + (event.fates q.policy).length =
      q.numbers.length + event.accepts.toNat := by
  have same := balances.places.length_eq
  rw [List.length_append, List.length_map, List.length_append] at same
  rw [same]
  cases event.accepts <;> rfl

theorem Accounts.snoc (accounts : Accounts policy events q) (balances : Balances q event q') :
    Accounts policy (events ++ [event]) q' := by
  obtain ⟨rfl, places, outstanding, enqueued, completed, failed, runs⟩ := accounts
  refine ⟨balances.samePolicy, ?_, ?_, ?_, ?_, ?_, ?_⟩
  · refine List.perm_iff_count.mpr fun n => ?_
    have before := places.count_eq n
    have change := balances.places.count_eq n
    rw [fates_snoc, List.map_append, balances.enqueued]
    simp only [List.count_append] at before change ⊢
    cases accepted : event.accepts <;>
      simp only [accepted, if_true, Bool.toNat_true, Bool.toNat_false, List.range_succ,
        List.count_append, Bool.false_eq_true, if_false, List.count_nil,
        Nat.add_zero] at change ⊢ <;>
      omega
  · have change := balances.outstanding
    have moved := balances.length_numbers
    omega
  · rw [countP_snoc, balances.enqueued, enqueued]
  · rw [fates_snoc, List.countP_append, balances.completed, completed]
  · rw [fates_snoc, List.countP_append, balances.failed, failed]
  · rw [countP_snoc, balances.runs, runs]

theorem Accounts.nodup_places (accounts : Accounts policy events q) :
    (q.numbers ++ (fates policy events).map (·.1)).Nodup :=
  accounts.places.nodup_iff.mpr List.nodup_range

theorem Accounts.distinct (accounts : Accounts policy events q) : q.numbers.Nodup :=
  accounts.nodup_places.sublist (List.sublist_append_left _ _)

theorem Accounts.distinct_running (accounts : Accounts policy events q) :
    (q.running.map (·.number)).Nodup :=
  accounts.distinct.sublist
    ((List.sublist_append_right _ _).trans (List.sublist_append_left _ _))

theorem Accounts.distinct_waiting (accounts : Accounts policy events q) :
    (q.waiting.map (·.ticket.number)).Nodup :=
  accounts.distinct.sublist (List.sublist_append_right _ _)

theorem Accounts.effect (accounts : Accounts policy events q) (step : Step q event q') :
    Effect q event q' :=
  step.effect accounts.distinct_waiting

theorem Accounts.perm_running (accounts : Accounts policy events q) {t : Ticket J}
    (running : t ∈ q.running) : q.running.Perm (t :: q.others t) := by
  refine perm_filter accounts.distinct_running running fun other there => ?_
  constructor
  · intro stays same
    have equal : other = t := List.inj_on_of_nodup_map accounts.distinct_running there running same
    simp [equal] at stays
  · intro different
    simp [different]

theorem Accounts.perm_waiting (accounts : Accounts policy events q) {r : Retry J}
    (waits : r ∈ q.waiting) :
    q.waiting.Perm (r :: q.waiting.filter (·.ticket.number ≠ r.ticket.number)) :=
  perm_filter accounts.distinct_waiting waits fun _ _ => by simp

theorem Accounts.numbers_running (accounts : Accounts policy events q) {t : Ticket J}
    (running : t ∈ q.running) :
    (numbers { q with running := q.others t } ++ [t.number]).Perm q.numbers := by
  have left := (accounts.perm_running running).map (·.number)
  refine List.perm_iff_count.mpr fun n => ?_
  have moved := left.count_eq n
  simp only [List.count_append, count_numbers, List.map_cons, List.count_cons,
    List.count_nil] at moved ⊢
  omega

theorem Accounts.numbers_waiting (accounts : Accounts policy events q) {r : Retry J}
    (waits : r ∈ q.waiting) :
    (numbers { q with waiting := q.waiting.filter (·.ticket.number ≠ r.ticket.number) } ++
      [r.ticket.number]).Perm q.numbers := by
  have left := (accounts.perm_waiting waits).map (·.ticket.number)
  refine List.perm_iff_count.mpr fun n => ?_
  have moved := left.count_eq n
  simp only [List.count_append, count_numbers, List.map_cons, List.count_cons,
    List.count_nil] at moved ⊢
  omega

theorem Accounts.positive (accounts : Accounts policy events q) {rest : List Nat} {n : Nat}
    (moved : (rest ++ [n]).Perm q.numbers) : 0 < q.outstanding := by
  rw [accounts.outstanding, ← moved.length_eq, List.length_append, List.length_singleton]
  omega

theorem countP_fates_closed (policy : QueuePolicy) (dropped : List (Ticket J)) {fate : Fate}
    (other : fate ≠ .dropped) :
    ((Event.closed dropped).fates policy).countP (·.2 = fate) = 0 := by
  refine List.countP_eq_zero.mpr fun settled there => ?_
  obtain ⟨t, _, rfl⟩ := List.mem_map.mp there
  simpa using Ne.symm other

-- The unchanged counters close by definition; what has to be shown is where the job went.
theorem Accounts.balances (accounts : Accounts policy events q) (step : Step q event q') :
    Balances q event q' := by
  cases accounts.effect step with
  | accepted =>
    refine ⟨rfl, List.perm_iff_count.mpr fun n => ?_, rfl, rfl, rfl, rfl, rfl⟩
    simp only [List.count_append, count_numbers, List.map_append, Event.fates, Event.accepts]
    simp
    omega
  | refused | stopped =>
    exact ⟨rfl, by simp [numbers, Event.fates, Event.accepts], rfl, rfl, rfl, rfl, rfl⟩
  | taken _ _ next =>
    refine ⟨rfl, List.perm_iff_count.mpr fun n => ?_, rfl, rfl, rfl, rfl, rfl⟩
    simp only [List.count_append, count_numbers, next, List.map_cons, List.map_append,
      List.count_cons, List.map_nil, List.count_nil, Event.fates, Event.accepts, Bool.false_eq_true,
      if_false]
    omega
  | completed running _ decided | failed running _ decided _ =>
    have moved := accounts.numbers_running running
    refine ⟨rfl, ?_, ?_, rfl, by simp [Event.fates, decided], by simp [Event.fates, decided], ?_⟩
    · simpa [Event.fates, decided, Event.accepts, numbers] using moved
    · simpa [Event.fates, decided, Event.accepts] using
        Nat.sub_add_cancel (accounts.positive moved)
    · simp only [Event.endsRun, Bool.toNat_true]
      omega
  | retried running _ decided =>
    have moved := accounts.numbers_running running
    refine ⟨rfl, ?_, by simp [Event.fates, decided, Event.accepts], rfl,
      by simp [Event.fates, decided], by simp [Event.fates, decided], rfl⟩
    simpa [Event.fates, decided, Event.accepts, numbers] using moved
  | sent waits =>
    refine ⟨rfl, List.perm_iff_count.mpr fun n => ?_, rfl, rfl, rfl, rfl, rfl⟩
    have counted := (accounts.numbers_waiting waits).count_eq n
    simp only [if_true, List.count_append, count_numbers, List.map_append, List.map_cons,
      List.map_nil, List.count_nil, Event.fates, Event.accepts, Bool.false_eq_true,
      if_false] at counted ⊢
    omega
  | dropped waits =>
    have moved := accounts.numbers_waiting waits
    refine ⟨rfl, ?_, ?_, rfl, rfl, rfl, rfl⟩
    · simpa [Event.fates, Event.accepts, numbers] using moved
    · simpa [Event.fates, Event.accepts] using Nat.sub_add_cancel (accounts.positive moved)
  | closed =>
    have enough := accounts.outstanding
    rw [length_numbers] at enough
    refine ⟨rfl, List.perm_iff_count.mpr fun n => ?_, ?_, rfl, ?_, ?_, rfl⟩
    · have numbered : ((Event.closed q.channel).fates q.policy).map (·.1) =
          q.channel.map (·.number) := by simp [Event.fates]
      simp only [numbered, List.count_append, count_numbers, List.map_nil, List.count_nil,
        Event.accepts, Bool.false_eq_true, if_false]
      omega
    · simp only [Event.fates, List.length_map, Event.accepts, Bool.toNat_false]
      omega
    · rw [countP_fates_closed _ _ (by decide)]
      rfl
    · rw [countP_fates_closed _ _ (by decide)]
      rfl

theorem accounts_of_run (run : Run (create policy).start events q) : Accounts policy events q := by
  induction run with
  | nil => exact accounts_start policy
  | snoc _ step ih => exact ih.snoc (ih.balances step)

theorem Accounts.settled (accounts : Accounts policy events q) :
    q.enqueued = q.completed + q.failed +
      (fates policy events).countP (·.2 = .dropped) + q.outstanding := by
  have total := accounts.places.length_eq
  have parts : ∀ settled : List (Nat × Fate), settled.length = settled.countP (·.2 = .completed) +
      settled.countP (·.2 = .failed) + settled.countP (·.2 = .dropped) := by
    intro settled
    induction settled with
    | nil => rfl
    | cons first rest ih =>
      rcases first with ⟨n, _ | _ | _⟩ <;> simp [ih] <;> omega
  have ends := parts (fates policy events)
  rw [List.length_append, List.length_map, List.length_range, ← accounts.outstanding] at total
  rw [accounts.completed, accounts.failed]
  omega

theorem Accounts.ended_once (accounts : Accounts policy events q) (idle : q.outstanding = 0)
    {n : Nat} (accepted : n < q.enqueued) :
    ∃ fate, (fates policy events).filter (·.1 = n) = [(n, fate)] := by
  have nowhere : q.numbers = [] := List.eq_nil_of_length_eq_zero (accounts.outstanding ▸ idle)
  have places := accounts.places
  rw [nowhere, List.nil_append] at places
  have counted : ((fates policy events).filter (·.1 = n)).length = 1 := by
    rw [← List.countP_eq_length_filter]
    have once := places.count_eq n
    rw [List.count_eq_one_of_mem List.nodup_range (List.mem_range.mpr accepted), List.count,
      List.countP_map] at once
    exact once
  obtain ⟨⟨m, fate⟩, alone⟩ := List.length_eq_one_iff.mp counted
  have there : (m, fate) ∈ (fates policy events).filter (·.1 = n) := alone ▸ List.mem_cons_self
  obtain rfl : m = n := by simpa using (List.mem_filter.mp there).2
  exact ⟨fate, alone⟩

/-- After any steps in any order the counters agree with the places and the ends of the accepted
jobs: each of these jobs is in one place or has come to one end, no step takes from the outstanding
jobs more than there are, and an offer that is turned away changes nothing. -/
theorem jobs_conserved (run : Run (create policy).start events q) :
    q.outstanding = q.channel.length + q.running.length + q.waiting.length ∧
    q.enqueued = q.completed + q.failed +
      (fates policy events).countP (·.2 = .dropped) + q.outstanding ∧
    events.countP Event.endsRun = q.completed + q.failed + q.retried ∧
    q.enqueued = events.countP Event.accepts ∧
    q.completed = (fates policy events).countP (·.2 = .completed) ∧
    q.failed = (fates policy events).countP (·.2 = .failed) ∧
    (∀ event q', Step q event q' →
      q'.outstanding + (event.fates policy).length = q.outstanding + event.accepts.toNat) ∧
    (∀ job q', Step q (.offered job false) q' → q' = q) ∧
    (∀ n < q.enqueued, (q.numbers ++ (fates policy events).map (·.1)).count n = 1) ∧
    (q.outstanding = 0 →
      ∀ n < q.enqueued, ∃ fate, (fates policy events).filter (·.1 = n) = [(n, fate)]) := by
  have accounts := accounts_of_run run
  refine ⟨accounts.outstanding.trans (length_numbers q), accounts.settled, accounts.runs,
    accounts.enqueued, accounts.completed, accounts.failed, fun event q' step => ?_,
    fun job q' step => ?_, fun n accepted => ?_, fun idle n => accounts.ended_once idle⟩
  · have balances := (accounts.balances step).outstanding
    rwa [accounts.samePolicy] at balances
  · generalize offer : (Event.offered job false : Event J) = event at step
    cases step with
    | offered job' =>
      rcases enqueue_eq job' q with ⟨_, accepted⟩ | ⟨_, rejected⟩
      · rw [accepted] at offer
        cases offer
      · rw [rejected]
    | _ => cases offer
  · rw [accounts.places.count_eq,
      List.count_eq_one_of_mem List.nodup_range (List.mem_range.mpr accepted)]

/-- Of two jobs one fails and waits, and the other is in the channel; both are dropped when the
workers stop. -/
theorem jobs_conserved_through_stop :
    let first : Ticket Nat := ⟨0, 7, 1⟩
    let second : Ticket Nat := ⟨1, 8, 1⟩
    let again : Retry Nat := ⟨1000, { first with attempt := 2 }⟩
    let events : List (Event Nat) := [.offered 7 true, .offered 8 true, .taken first,
      .ended 0 first .panic, .stopped, .closed [second], .returned again false, .offered 9 false]
    ∃ q, Run (create .rebuilds).start events q ∧ q.outstanding = 0 ∧ q.enqueued = 2 ∧
      ∃ fate, (fates .rebuilds events).filter (·.1 = 1) = [(1, fate)] := by
  intro first second again events
  have idle : Run (create .rebuilds).start [] (create .rebuilds : Queue Nat).start := .nil
  have full := idle.snoc (.offered _ 7) |>.snoc (.offered _ 8)
  have waiting := full.snoc (.taken (t := first) rfl) |>.snoc (.ended List.mem_cons_self 0 .panic)
  have closed := waiting.snoc (.stopped _) |>.snoc (.closed rfl rfl)
  have run : Run (create .rebuilds).start events _ :=
    closed.snoc (.returned (r := again) List.mem_cons_self) |>.snoc (.offered _ 9)
  obtain ⟨_, _, _, _, _, _, _, _, _, ends⟩ := jobs_conserved run
  exact ⟨_, run, rfl, rfl, ends rfl 1 (by decide)⟩

end Queue

end CacheAside
