import CacheAside.Proofs.Queue.Accounting

namespace CacheAside

namespace Queue

variable {J : Type}

namespace Event

def endedRun? : Event J → Option (Ticket J)
  | ended _ t _ => some t
  | _ => none

/-- How many jobs a step lets go of once the channel is closed. -/
def releases (policy : QueuePolicy) : Event J → Nat
  | ended _ t ending => if verdict policy t ending = .retried then 0 else 1
  | returned .. => 1
  | _ => 0

end Event

variable {policy : QueuePolicy} {start q q' : Queue J} {history events : List (Event J)}
  {event : Event J}

theorem Run.append (first : Run start history q) (second : Run q events q') :
    Run start (history ++ events) q' := by
  induction second with
  | nil => simpa using first
  | snoc _ step ih =>
    rw [← List.append_assoc]
    exact ih.snoc step

theorem finish_anyway (now : Nat) (t : Ticket J) (ending : Ending) (q : Queue J) :
    (q.finish now t ending).2 =
      { ({ q with stopping := false, isOpen := true }.finish now t ending).2 with
        stopping := q.stopping
        isOpen := q.isOpen } := by
  unfold finish
  simp only
  split
  · rfl
  · split <;> rfl

theorem Accounts.stopping_step (accounts : Accounts policy history q)
    (stopping : q.stopping = true) (effect : Effect q event q') :
    q'.stopping = true ∧ (∀ t, event ≠ .taken t) ∧
      (q'.running ++ event.endedRun?.toList).Perm q.running := by
  have unmoved : (q.running ++ []).Perm q.running := by rw [List.append_nil]
  have freed : ∀ t ∈ q.running, (q.others t ++ [t]).Perm q.running := fun t running =>
    (List.perm_append_singleton t _).trans (accounts.perm_running running).symm
  cases effect with
  | taken _ going _ => cases stopping.symm.trans going
  | completed running | retried running | failed running => exact ⟨stopping, nofun, freed _ running⟩
  | stopped => exact ⟨rfl, nofun, unmoved⟩
  | _ => exact ⟨stopping, nofun, unmoved⟩

theorem Accounts.stopping_run (accounts : Accounts policy history q) (stopping : q.stopping = true)
    (goesOn : Run q events q') :
    Accounts policy (history ++ events) q' ∧ q'.stopping = true ∧ (∀ t, .taken t ∉ events) ∧
      (q'.running ++ events.filterMap Event.endedRun?).Perm q.running := by
  induction goesOn with
  | nil => exact ⟨by simpa using accounts, stopping, nofun, by simp⟩
  | @snoc events event q₁ q₂ _ step ih =>
    obtain ⟨accounts', stopping', untaken, left⟩ := ih
    obtain ⟨stays, none_taken, moved⟩ := accounts'.stopping_step stopping' (accounts'.effect step)
    refine ⟨?_, stays, ?_, ?_⟩
    · rw [← List.append_assoc]
      exact accounts'.snoc (accounts'.balances step)
    · intro t there
      rcases List.mem_append.mp there with before | here
      · exact untaken t before
      · exact none_taken t (List.mem_singleton.mp here).symm
    · rw [filterMap_snoc]
      refine (List.perm_append_comm.append_left _).trans ?_
      rw [← List.append_assoc]
      exact (moved.append_right _).trans left

theorem Effect.isOpen (effect : Effect q event q') :
    (∃ dropped, event = .closed dropped) ∧ q'.isOpen = false ∧ q'.channel = [] ∨
      (∀ dropped, event ≠ .closed dropped) ∧ q'.isOpen = q.isOpen := by
  cases effect with
  | closed => exact .inl ⟨⟨_, rfl⟩, rfl, rfl⟩
  | _ => exact .inr ⟨nofun, rfl⟩

theorem Effect.of_closed (effect : Effect q event q') (closed : q.isOpen = false)
    (empty : q.channel = []) :
    q'.isOpen = false ∧ q'.channel = [] ∧ event.accepts = false ∧
      (event.fates q.policy).length = event.releases q.policy := by
  cases effect with
  | accepted _ opened => cases closed.symm.trans opened
  | taken _ _ next => cases empty.symm.trans next
  | sent _ opened => cases closed.symm.trans opened
  | closed => exact ⟨rfl, rfl, rfl, by simp [Event.fates, Event.releases, empty]⟩
  | completed _ _ decided | retried _ _ decided | failed _ _ decided _ =>
    exact ⟨closed, empty, rfl, by simp [Event.fates, Event.releases, decided]⟩
  | refused | dropped | stopped => exact ⟨closed, empty, rfl, rfl⟩

theorem Effect.unsent {r : Retry J} {sent : Bool} (effect : Effect q (.returned r sent) q')
    (closed : q.isOpen = false) : sent = false := by
  cases effect with
  | sent _ opened => cases closed.symm.trans opened
  | dropped => rfl

theorem closed_of_run (run : Run (create policy).start events q) :
    (∀ dropped, .closed dropped ∈ events → q.isOpen = false) ∧
      (q.isOpen = false → q.channel = []) := by
  induction run with
  | nil => exact ⟨nofun, nofun⟩
  | @snoc events event q q' before step ih =>
    obtain ⟨closed, empty⟩ := ih
    have effect := (accounts_of_run before).effect step
    rcases effect.isOpen with ⟨_, shut, nothing⟩ | ⟨other, same⟩
    · exact ⟨fun _ _ => shut, fun _ => nothing⟩
    · refine ⟨?_, ?_⟩
      · intro dropped there
        rcases List.mem_append.mp there with earlier | here
        · exact same.trans (closed dropped earlier)
        · exact absurd (List.mem_singleton.mp here).symm (other dropped)
      · intro shut
        rw [same] at shut
        exact (effect.of_closed shut (empty shut)).2.1

/-- From the signal on no run begins, and those that are going on end as they would have ended
without it. Once a worker has closed the channel it stays empty, jobs are turned away, pauses that
are over drop their jobs, and what is counted as outstanding are the running and the waiting jobs,
each of which is let go of once. -/
theorem shutdown_safe (reached : Run (create policy).start history q) (stopping : q.stopping = true)
    (goesOn : Run q events q') :
    (∀ t, .taken t ∉ events) ∧
    (q'.running ++ events.filterMap Event.endedRun?).Perm q.running ∧
    (∀ t ∈ q'.running, ∀ now ending, Step q' (.ended now t ending)
      { ({ q' with stopping := false, isOpen := true }.finish now t ending).2 with
        stopping := true
        isOpen := q'.isOpen }) ∧
    ∀ dropped, .closed dropped ∈ history ++ events →
      q'.channel = [] ∧
      q'.outstanding = q'.running.length + q'.waiting.length ∧
      (q'.running = [] → q'.waiting = [] → q'.outstanding = 0) ∧
      (∀ job, q'.enqueue job = (false, q')) ∧
      ∀ event q'', Step q' event q'' →
        (∀ r sent, event = .returned r sent → sent = false) ∧
        q''.channel = [] ∧
        q''.outstanding + event.releases policy = q'.outstanding := by
  obtain ⟨accounts, stopping', untaken, left⟩ :=
    (accounts_of_run reached).stopping_run stopping goesOn
  refine ⟨untaken, left, ?_, ?_⟩
  · intro t running now ending
    have step := Step.ended running now ending
    rwa [finish_anyway, stopping'] at step
  · intro dropped there
    obtain ⟨closes, empties⟩ := closed_of_run (reached.append goesOn)
    have closed := closes dropped there
    have empty := empties closed
    have counted : q'.outstanding = q'.running.length + q'.waiting.length := by
      rw [accounts.outstanding, length_numbers, empty, List.length_nil, Nat.zero_add]
    refine ⟨empty, counted, ?_, ?_, ?_⟩
    · intro idle unpaused
      rw [counted, idle, unpaused]
      rfl
    · intro job
      simp [enqueue, closed]
    · intro event q'' step
      have effect := accounts.effect step
      obtain ⟨_, nothing, refused, released⟩ := effect.of_closed closed empty
      have balance := (accounts.balances step).outstanding
      rw [released, refused, accounts.samePolicy] at balance
      refine ⟨?_, nothing, balance⟩
      rintro r sent rfl
      exact effect.unsent closed

/-- One job runs and one is in the channel when the signal comes: the second is dropped, and the
first fails once more and then waits in vain. -/
theorem shutdown_safe_rebuilds :
    ∃ q q' : Queue Nat,
      Run (create .rebuilds).start
        [.offered 7 true, .offered 8 true, .taken ⟨0, 7, 1⟩, .stopped] q ∧
      q.stopping = true ∧
      Run q [.closed [⟨1, 8, 1⟩], .ended 0 ⟨0, 7, 1⟩ .panic, .offered 9 false,
        .returned ⟨1000, ⟨0, 7, 2⟩⟩ false] q' ∧
      q'.channel = [] ∧ q'.outstanding = 0 := by
  have idle : Run (create .rebuilds).start [] (create .rebuilds : Queue Nat).start := .nil
  have full := idle.snoc (.offered _ 7) |>.snoc (.offered _ 8)
  have taken := full.snoc (.taken (t := ⟨0, 7, 1⟩) rfl)
  have reached := taken.snoc (.stopped _)
  have closed := (Run.nil : Run { (create .rebuilds : Queue Nat).start with
    stopping := true
    channel := [⟨1, 8, 1⟩]
    running := [⟨0, 7, 1⟩]
    enqueued := 2
    outstanding := 2 } [] _).snoc (.closed rfl rfl)
  have waiting := closed.snoc (.ended (t := ⟨0, 7, 1⟩) List.mem_cons_self 0 .panic)
  have refused := waiting.snoc (.offered _ 9)
  have dropped := refused.snoc (.returned (r := ⟨1000, ⟨0, 7, 2⟩⟩) List.mem_cons_self)
  obtain ⟨_, _, _, shut⟩ := shutdown_safe reached rfl dropped
  obtain ⟨empty, _, idle, _⟩ := shut [⟨1, 8, 1⟩] (by simp)
  exact ⟨_, _, reached, rfl, dropped, empty, idle rfl rfl⟩

end Queue

end CacheAside
