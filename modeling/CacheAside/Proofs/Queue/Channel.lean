import CacheAside.Proofs.Queue.Accounting

namespace CacheAside

namespace Queue

variable {J : Type}

namespace Event

def arrival? (enqueued : Nat) : Event J → Option (Ticket J)
  | offered job true => some ⟨enqueued, job, 1⟩
  | returned r true => some r.ticket
  | _ => none

def departures : Event J → List (Ticket J)
  | taken t => [t]
  | closed dropped => dropped
  | _ => []

end Event

def arrivals : Nat → List (Event J) → List (Ticket J)
  | _, [] => []
  | enqueued, event :: events =>
    (event.arrival? enqueued).toList ++ arrivals (enqueued + event.accepts.toNat) events

variable {policy : QueuePolicy} {events : List (Event J)} {event : Event J} {q q' : Queue J}

theorem arrivals_snoc (enqueued : Nat) (events : List (Event J)) (event : Event J) :
    arrivals enqueued (events ++ [event]) = arrivals enqueued events ++
      (event.arrival? (enqueued + events.countP Event.accepts)).toList := by
  induction events generalizing enqueued with
  | nil => simp [arrivals]
  | cons first rest ih =>
    have counted : (first :: rest).countP Event.accepts =
        first.accepts.toNat + rest.countP Event.accepts := by
      cases accepts : first.accepts <;> simp [accepts, Nat.add_comm]
    rw [List.cons_append, arrivals, ih, arrivals, counted, List.append_assoc, Nat.add_assoc]

theorem first_in_first_out (run : Run (create policy).start events q) :
    arrivals 0 events = events.flatMap Event.departures ++ q.channel := by
  induction run with
  | nil => rfl
  | @snoc events event q q' before step ih =>
    have accounts := accounts_of_run before
    rw [arrivals_snoc, ih, List.flatMap_append, Nat.zero_add, ← accounts.enqueued]
    cases accounts.effect step with
    | taken _ _ next => simp [next, Event.arrival?, Event.departures]
    | _ => simp [Event.arrival?, Event.departures]

theorem workers_of_run (run : Run (create policy).start events q) :
    q.workers = policy.workers ∧ q.running.length ≤ q.workers := by
  induction run with
  | nil => exact ⟨rfl, Nat.zero_le _⟩
  | @snoc events event q q' before step ih =>
    obtain ⟨same, enough⟩ := ih
    have accounts := accounts_of_run before
    have fewer : ∀ t ∈ q.running, (q.others t).length ≤ q.workers := fun t _ =>
      Nat.le_trans (List.length_filter_le ..) enough
    cases accounts.effect step with
    | taken free =>
      have idle : q.running.length < q.workers := by simpa [hasFreeWorker] using free
      exact ⟨same, by simpa using Nat.succ_le_of_lt idle⟩
    | completed running | retried running | failed running => exact ⟨same, fewer _ running⟩
    | _ => exact ⟨same, enough⟩

theorem Accounts.next_after (accounts : Accounts policy events q) {now : Nat} {t : Ticket J}
    {ending : Ending} (enough : q.running.length ≤ q.workers)
    (step : Step q (.ended now t ending) q') :
    q'.workers = q.workers ∧ q'.running.length + 1 = q.running.length ∧
      ∀ next rest, q'.stopping = false → q'.channel = next :: rest →
        ∃ q'', Step q' (.taken next) q'' := by
  have freed : ∀ t ∈ q.running, (q.others t).length + 1 = q.running.length := fun t running => by
    simpa using (accounts.perm_running running).length_eq.symm
  have changed : q'.workers = q.workers ∧ q'.running.length + 1 = q.running.length := by
    cases accounts.effect step with
    | completed running | retried running | failed running => exact ⟨rfl, freed _ running⟩
  obtain ⟨same, fewer⟩ := changed
  refine ⟨same, fewer, fun next rest going first => ?_⟩
  have free : q'.hasFreeWorker = true := by
    simp only [hasFreeWorker, same, decide_eq_true_eq]
    omega
  exact ⟨_, .taken (take?_eq_some.mpr ⟨free, going, rest, first, rfl⟩)⟩

theorem Effect.stopping (effect : Effect q event q') :
    (q'.stopping = true ↔ q.stopping = true ∨ event = .stopped) ∧
      (q'.isOpen = false → q.isOpen = false ∨ q.stopping = true) ∧
      ∀ number, (number, .dropped) ∈ event.fates q.policy →
        q.isOpen = false ∨ q.stopping = true := by
  cases effect with
  | completed _ _ decided | retried _ _ decided | failed _ _ decided _ =>
    simp_all [Event.fates]
  | dropped _ closed => simp_all [Event.fates]
  | closed stopping => simp_all [Event.fates]
  | _ => simp_all [Event.fates]

theorem stopped_of_run (run : Run (create policy).start events q) :
    (q.stopping = true → .stopped ∈ events) ∧ (q.isOpen = false → q.stopping = true) ∧
      ∀ number, (number, .dropped) ∈ fates policy events → q.stopping = true := by
  induction run with
  | nil => exact ⟨nofun, nofun, nofun⟩
  | @snoc events event q q' before step ih =>
    obtain ⟨told, shut, lost⟩ := ih
    have accounts := accounts_of_run before
    obtain ⟨signal, closes, drops⟩ := (accounts.effect step).stopping
    rw [accounts.samePolicy] at drops
    have known : q.isOpen = false ∨ q.stopping = true → q'.stopping = true := fun h =>
      signal.mpr (.inl (h.elim shut id))
    refine ⟨fun stopping => ?_, fun closed => known (closes closed), fun number there => ?_⟩
    · rcases signal.mp stopping with earlier | rfl
      · exact List.mem_append_left _ (told earlier)
      · exact List.mem_append_right _ List.mem_cons_self
    · rw [fates_snoc] at there
      rcases List.mem_append.mp there with earlier | here
      · exact signal.mpr (.inl (lost number earlier))
      · exact known (drops number here)

structure Orderly (departed : Nat) (q : Queue J) : Prop where
  once : q.policy.attempts = 1
  going : q.stopping = false
  firstRuns : ∀ t, t ∈ q.channel ∨ t ∈ q.running → t.attempt = 1
  unpaused : q.waiting = []
  numbered : q.channel.map (·.number) = List.range' departed q.channel.length
  counted : departed + q.channel.length = q.enqueued

theorem orderly_start (once : policy.attempts = 1) : Orderly 0 (create policy : Queue J).start :=
  ⟨once, rfl, by simp [create, start], rfl, rfl, rfl⟩

theorem Orderly.step {departed : Nat} (orderly : Orderly departed q) (effect : Effect q event q')
    (unstopped : event ≠ .stopped) : Orderly (departed + event.departures.length) q' := by
  obtain ⟨once, going, firstRuns, unpaused, numbered, counted⟩ := orderly
  have others : ∀ u t, t ∈ q.channel ∨ t ∈ q.others u → t.attempt = 1 := fun u t there =>
    firstRuns t (there.imp_right List.mem_of_mem_filter)
  cases effect with
  | accepted job =>
    refine ⟨once, going, fun t there => ?_, unpaused, ?_, ?_⟩
    · rcases there with there | there
      · rcases List.mem_append.mp there with before | new
        · exact firstRuns t (.inl before)
        · rw [List.mem_singleton.mp new]
      · exact firstRuns t (.inr there)
    · simp [Event.departures, numbered, List.range'_concat, counted]
    · simp [Event.departures]
      omega
  | refused => exact ⟨once, going, firstRuns, unpaused, numbered, counted⟩
  | @taken t channel _ _ next =>
    rw [next] at numbered counted
    obtain ⟨_, rest⟩ := List.cons.inj numbered
    refine ⟨once, going, fun u there => firstRuns u ?_, unpaused, rest, ?_⟩
    · rcases there with there | there
      · exact .inl (next ▸ List.mem_cons_of_mem _ there)
      · rcases List.mem_append.mp there with before | new
        · exact .inr before
        · exact .inl (next ▸ List.mem_singleton.mp new ▸ List.mem_cons_self)
    · simp only [Event.departures, List.length_singleton]
      rw [List.length_cons] at counted
      omega
  | completed | failed => exact ⟨once, going, others _, unpaused, numbered, counted⟩
  | retried running _ decided =>
    have left := (verdict_eq_retried.mp decided).2
    rw [firstRuns _ (.inr running), once] at left
    exact absurd left (Nat.lt_irrefl 1)
  | sent waits | dropped waits =>
    rw [unpaused] at waits
    cases waits
  | stopped => exact absurd rfl unstopped
  | closed stopping =>
    rw [going] at stopping
    cases stopping

theorem Orderly.next {departed : Nat} (orderly : Orderly departed q) {t : Ticket J}
    {channel : List (Ticket J)} (next : q.channel = t :: channel) : t.number = departed := by
  have numbered := orderly.numbered
  rw [next] at numbered
  exact (List.cons.inj numbered).1

end Queue

end CacheAside
