import CacheAside.Proofs.Queue.Crew
import Mathlib.Algebra.Order.BigOperators.Group.List
import Mathlib.Algebra.Order.Ring.Nat

namespace CacheAside

def QueuePolicy.mostRuns (policy : QueuePolicy) : Nat := max policy.attempts 1

namespace Crew

variable {J β : Type} {trade : Trade J β} {crew crew' : Crew J β} {event : Queue.Event J}
  {policy : QueuePolicy} {events : List (Queue.Event J)} {limit : J → Nat}
  {allows : Nat → β → Prop} {spent spent' : Nat → Nat → Nat}

structure Ahead (policy : QueuePolicy) (spent : Nat → Nat → Nat) (t : Ticket J) : Prop where
  first : 1 ≤ t.attempt
  last : t.attempt ≤ policy.mostRuns
  unspent : ∀ attempt, t.attempt ≤ attempt → spent t.number attempt = 0

structure Underway (policy : QueuePolicy) (limit : J → Nat) (allows : Nat → β → Prop)
    (spent : Nat → Nat → Nat) (duty : Duty J β) : Prop where
  first : 1 ≤ duty.ticket.attempt
  last : duty.ticket.attempt ≤ policy.mostRuns
  unspent : ∀ attempt, duty.ticket.attempt < attempt → spent duty.ticket.number attempt = 0
  allowed : ∃ n, allows n duty.work ∧
    spent duty.ticket.number duty.ticket.attempt + n ≤ limit duty.ticket.job

/-- What holds between two steps of how often the runs have offered jobs, and of how often they may
still do so. A run is known by the numbers of its job and of its attempt. -/
structure Solvent (policy : QueuePolicy) (limit : J → Nat) (allows : Nat → β → Prop)
    (spent : Nat → Nat → Nat) (crew : Crew J β) : Prop where
  manned : crew.Manned
  channel : ∀ t ∈ crew.queue.channel, Ahead policy spent t
  waiting : ∀ r ∈ crew.queue.waiting, Ahead policy spent r.ticket
  running : ∀ duty ∈ crew.duties, Underway policy limit allows spent duty
  unborn : ∀ number, crew.queue.enqueued ≤ number → ∀ attempt, spent number attempt = 0

theorem solvent_start (policy : QueuePolicy) (limit : J → Nat) (allows : Nat → β → Prop) :
    Solvent policy limit allows (fun _ _ => 0) (start policy : Crew J β) :=
  ⟨rfl, nofun, nofun, nofun, fun _ _ _ => rfl⟩

theorem Solvent.works (solvent : Solvent policy limit allows spent crew)
    (accounts : Queue.Accounts policy events crew.queue)
    (begins : ∀ job, allows (limit job) (trade.begin job))
    (works : crew.Works trade event crew') : Solvent policy limit allows spent crew' := by
  obtain ⟨manned, channel, waiting, running, unborn⟩ := solvent
  have effect := accounts.effect works.step
  have manned' := works.manned effect manned
  have fewer : ∀ (p : Retry J → Bool), ∀ r ∈ crew.queue.waiting.filter p,
      Ahead policy spent r.ticket := fun p r there => waiting r (List.mem_of_mem_filter there)
  have left : ∀ t, ∀ duty ∈ crew.others t, Underway policy limit allows spent duty :=
    fun t duty there => running duty (List.mem_of_mem_filter there)
  cases works with
  | beside step apart =>
    generalize crew.queue = q at *
    cases effect with
    | accepted job =>
      refine ⟨manned', ?_, waiting, running, fun number older => ?_⟩
      · refine List.forall_mem_append.mpr ⟨channel, List.forall_mem_singleton.mpr ?_⟩
        exact ⟨Nat.le_refl _, Nat.le_max_right _ _,
          fun attempt _ => unborn _ (Nat.le_refl _) attempt⟩
      · exact unborn number (Nat.le_of_succ_le older)
    | refused | stopped => exact ⟨manned', channel, waiting, running, unborn⟩
    | sent waits =>
      refine ⟨manned', ?_, fewer _, running, unborn⟩
      exact List.forall_mem_append.mpr ⟨channel, List.forall_mem_singleton.mpr (waiting _ waits)⟩
    | dropped => exact ⟨manned', channel, fewer _, running, unborn⟩
    | closed => exact ⟨manned', nofun, waiting, running, unborn⟩
    | taken | completed | retried | failed => cases apart
  | begins =>
    cases effect with
    | taken _ _ next =>
      rw [next] at channel
      obtain ⟨⟨first, last, unspent⟩, channel⟩ := List.forall_mem_cons.mp channel
      refine ⟨manned', channel, waiting, ?_, unborn⟩
      refine List.forall_mem_append.mpr ⟨running, List.forall_mem_singleton.mpr ?_⟩
      refine ⟨first, last, fun attempt later => unspent attempt (Nat.le_of_lt later), _,
        begins _, ?_⟩
      rw [unspent _ (Nat.le_refl _), Nat.zero_add]
  | ends there =>
    obtain ⟨first, last, unspent, -⟩ := running _ there
    cases effect with
    | completed | failed => exact ⟨manned', channel, waiting, left _, unborn⟩
    | retried _ _ decided =>
      obtain ⟨-, again⟩ := Queue.verdict_eq_retried.mp decided
      rw [accounts.samePolicy] at again
      refine ⟨manned', channel, ?_, left _, unborn⟩
      refine List.forall_mem_append.mpr ⟨waiting, List.forall_mem_singleton.mpr ?_⟩
      exact ⟨Nat.le_add_left _ _, Nat.le_trans again (Nat.le_max_left _ _), unspent⟩

def spend (spent : Nat → Nat → Nat) (t : Ticket J) (cost : Nat) (number attempt : Nat) : Nat :=
  spent number attempt + if number = t.number ∧ attempt = t.attempt then cost else 0

theorem spend_self (spent : Nat → Nat → Nat) (t : Ticket J) (cost : Nat) :
    spend spent t cost t.number t.attempt = spent t.number t.attempt + cost := by
  simp [spend]

theorem spend_of_ne {t : Ticket J} {number attempt : Nat}
    (differ : number = t.number → attempt ≠ t.attempt) (spent : Nat → Nat → Nat) (cost : Nat) :
    spend spent t cost number attempt = spent number attempt := by
  have other : ¬ (number = t.number ∧ attempt = t.attempt) := fun same => differ same.1 same.2
  rw [spend, if_neg other, Nat.add_zero]

theorem spend_nothing (spent : Nat → Nat → Nat) (t : Ticket J) : spend spent t 0 = spent := by
  funext number attempt
  simp [spend]

variable {t : Ticket J} {x : Exchange}

theorem alone_running (accounts : Queue.Accounts policy events crew.queue)
    (running : t ∈ crew.queue.running) :
    (∀ u ∈ crew.queue.channel, u.number ≠ t.number) ∧
      (∀ r ∈ crew.queue.waiting, r.ticket.number ≠ t.number) ∧
      t.number < crew.queue.enqueued := by
  have distinct := accounts.distinct
  have mine : t.number ∈ crew.queue.running.map (·.number) := List.mem_map_of_mem running
  rw [Queue.numbers, List.nodup_append, List.nodup_append] at distinct
  obtain ⟨⟨-, -, before⟩, -, behind⟩ := distinct
  refine ⟨fun u there => before _ (List.mem_map_of_mem there) _ mine, fun r there => ?_, ?_⟩
  · exact (behind _ (List.mem_append_right _ mine) _ (List.mem_map_of_mem there)).symm
  · refine List.mem_range.mp (accounts.places.subset (List.mem_append_left _ ?_))
    exact List.mem_append_left _ (List.mem_append_right _ mine)

theorem number_ne_of_place {before after : List (Duty J β)} {own : Duty J β}
    (distinct : ((before ++ own :: after).map (·.ticket.number)).Nodup) :
    ∀ duty ∈ before ++ after, duty.ticket.number ≠ own.ticket.number := by
  intro duty there same
  have moved := (List.perm_middle.map (fun duty : Duty J β => duty.ticket.number)).nodup_iff.mp
    distinct
  exact (List.nodup_cons.mp moved).1 (List.mem_map.mpr ⟨duty, there, same⟩)

theorem Solvent.turns (solvent : Solvent policy limit allows spent crew) (cost : Nat)
    (accounts : Queue.Accounts policy events crew.queue)
    (goesOn : ∀ n work work', allows n work → trade.turn work x work' →
      ∃ m, allows m work' ∧ m + cost ≤ n)
    (turns : crew.Turns trade t x crew') :
    Solvent policy limit allows (spend spent t cost) crew' := by
  obtain ⟨manned, channel, waiting, running, unborn⟩ := solvent
  have manned' := turns.manned manned
  have distinct := distinct_duties accounts manned
  cases turns with
  | @turn before after work work' place turn =>
  have going : t ∈ crew.queue.running := by
    rw [← manned, place]
    simp
  obtain ⟨unqueued, unpaused, born⟩ := alone_running accounts going
  rw [place] at running distinct
  obtain ⟨earlier, running⟩ := List.forall_mem_append.mp running
  obtain ⟨⟨first, last, unspent, n, allowed, within⟩, later⟩ := List.forall_mem_cons.mp running
  have others := number_ne_of_place distinct
  have ahead : ∀ u : Ticket J, u.number ≠ t.number → Ahead policy spent u →
      Ahead policy (spend spent t cost) u := by
    intro u differ ahead
    refine ⟨ahead.first, ahead.last, fun attempt after => ?_⟩
    rw [spend_of_ne fun same => absurd same differ]
    exact ahead.unspent attempt after
  have underway : ∀ duty : Duty J β, duty.ticket.number ≠ t.number →
      Underway policy limit allows spent duty →
      Underway policy limit allows (spend spent t cost) duty := by
    intro duty differ underway
    refine ⟨underway.first, underway.last, fun attempt after => ?_, ?_⟩
    · rw [spend_of_ne fun same => absurd same differ]
      exact underway.unspent attempt after
    · rw [spend_of_ne fun same => absurd same differ]
      exact underway.allowed
  refine ⟨manned', fun u there => ahead u (unqueued u there) (channel u there),
    fun r there => ahead _ (unpaused r there) (waiting r there), ?_, ?_⟩
  · refine List.forall_mem_append.mpr ⟨fun duty there => ?_, List.forall_mem_cons.mpr
      ⟨⟨first, last, fun attempt after => ?_, ?_⟩, fun duty there => ?_⟩⟩
    · exact underway duty (others duty (List.mem_append_left _ there)) (earlier duty there)
    · rw [spend_of_ne fun _ => Nat.ne_of_gt after]
      exact unspent attempt after
    · obtain ⟨m, allowed', cheaper⟩ := goesOn n work work' allowed turn
      refine ⟨m, allowed', ?_⟩
      rw [spend_self]
      simp only at within ⊢
      omega
    · exact underway duty (others duty (List.mem_append_right _ there)) (later duty there)
  · intro number older attempt
    rw [spend_of_ne fun same => ?_]
    · exact unborn number older attempt
    · simp only at older
      omega

def fare (policy : QueuePolicy) (limit : J → Nat) (job : J) : Nat :=
  1 + policy.mostRuns * limit job

def fareAhead (policy : QueuePolicy) (limit : J → Nat) (t : Ticket J) : Nat :=
  (policy.mostRuns + 1 - t.attempt) * fare policy limit t.job

def fareUnderway (policy : QueuePolicy) (limit : J → Nat) (spent : Nat → Nat → Nat)
    (t : Ticket J) : Nat :=
  (policy.mostRuns - t.attempt) * fare policy limit t.job +
    policy.mostRuns * (limit t.job - spent t.number t.attempt)

def budget (policy : QueuePolicy) (limit : J → Nat) (spent : Nat → Nat → Nat) (crew : Crew J β) :
    Nat :=
  (crew.queue.channel.map (fareAhead policy limit)).sum +
    (crew.queue.waiting.map fun r => fareAhead policy limit r.ticket).sum +
    (crew.duties.map fun duty => fareUnderway policy limit spent duty.ticket).sum

def grant (policy : QueuePolicy) (limit : J → Nat) : Queue.Event J → Nat
  | .offered job true => policy.mostRuns * fare policy limit job
  | _ => 0

theorem Ahead.begins {t : Ticket J} (ahead : Ahead policy spent t) (limit : J → Nat) :
    fareAhead policy limit t = fareUnderway policy limit spent t + 1 := by
  obtain ⟨_, last, unspent⟩ := ahead
  have left : policy.mostRuns + 1 - t.attempt = policy.mostRuns - t.attempt + 1 := by omega
  simp only [fareAhead, fareUnderway, left, Nat.succ_mul, unspent _ (Nat.le_refl _), Nat.sub_zero,
    fare]
  omega

theorem fareAhead_again (policy : QueuePolicy) (limit : J → Nat) (spent : Nat → Nat → Nat)
    (t : Ticket J) : fareAhead policy limit { t with attempt := t.attempt + 1 } ≤
      fareUnderway policy limit spent t := by
  simp only [fareAhead, fareUnderway, Nat.add_sub_add_right]
  exact Nat.le_add_right _ _

theorem Solvent.budget_works (solvent : Solvent policy limit allows spent crew)
    (accounts : Queue.Accounts policy events crew.queue) (works : crew.Works trade event crew') :
    crew'.budget policy limit spent + event.isTaken.toNat ≤
      crew.budget policy limit spent + grant policy limit event := by
  have effect := accounts.effect works.step
  have paused : ∀ r ∈ crew.queue.waiting,
      (crew.queue.waiting.map fun r => fareAhead policy limit r.ticket).sum =
        fareAhead policy limit r.ticket +
        ((crew.queue.waiting.filter (·.ticket.number ≠ r.ticket.number)).map fun r =>
          fareAhead policy limit r.ticket).sum := by
    intro r waits
    rw [((accounts.perm_waiting waits).map _).sum_eq, List.map_cons, List.sum_cons]
  have going : ∀ duty ∈ crew.duties,
      (crew.duties.map fun duty => fareUnderway policy limit spent duty.ticket).sum =
        fareUnderway policy limit spent duty.ticket +
        ((crew.others duty.ticket).map fun duty =>
          fareUnderway policy limit spent duty.ticket).sum := by
    intro duty there
    rw [((perm_duties accounts solvent.manned there).map _).sum_eq, List.map_cons, List.sum_cons]
  cases works with
  | beside step apart =>
    cases effect with
    | accepted job =>
      have first : fareAhead policy limit ⟨crew.queue.enqueued, job, 1⟩ =
          policy.mostRuns * fare policy limit job := rfl
      simp only [budget, List.map_append, List.sum_append, List.map_singleton, List.sum_singleton,
        grant, Queue.Event.isTaken, Bool.toNat_false, first]
      omega
    | refused | stopped => exact Nat.le_refl _
    | sent waits =>
      simp only [budget, List.map_append, List.sum_append, List.map_singleton, List.sum_singleton,
        grant, Queue.Event.isTaken, Bool.toNat_false, paused _ waits]
      omega
    | dropped waits =>
      simp only [budget, grant, Queue.Event.isTaken, Bool.toNat_false, paused _ waits]
      omega
    | closed =>
      simp only [budget, List.map_nil, List.sum_nil, grant, Queue.Event.isTaken, Bool.toNat_false]
      omega
    | taken | completed | retried | failed => cases apart
  | @begins t =>
    cases effect with
    | taken _ _ next =>
      have begun := (solvent.channel t (next ▸ List.mem_cons_self)).begins limit
      simp only [budget, next, List.map_append, List.map_cons, List.sum_append, List.sum_cons,
        List.map_nil, List.sum_nil, grant, Queue.Event.isTaken, Bool.toNat_true, begun]
      omega
  | @ends duty _ _ _ there =>
    cases effect with
    | completed | failed =>
      simp only [budget, grant, Queue.Event.isTaken, Bool.toNat_false, going _ there]
      omega
    | retried =>
      have again := fareAhead_again policy limit spent duty.ticket
      simp only [budget, List.map_append, List.sum_append, List.map_singleton, List.sum_singleton,
        grant, Queue.Event.isTaken, Bool.toNat_false, going _ there]
      omega

theorem Solvent.budget_turns (solvent : Solvent policy limit allows spent crew) (cost : Nat)
    (accounts : Queue.Accounts policy events crew.queue)
    (goesOn : ∀ n work work', allows n work → trade.turn work x work' →
      ∃ m, allows m work' ∧ m + cost ≤ n)
    (turns : crew.Turns trade t x crew') :
    crew'.budget policy limit (spend spent t cost) + policy.mostRuns * cost =
      crew.budget policy limit spent := by
  have distinct := distinct_duties accounts solvent.manned
  cases turns with
  | @turn before after work work' place turn =>
  obtain ⟨-, -, -, n, allowed, within⟩ := solvent.running ⟨t, work⟩ (place ▸ by simp)
  obtain ⟨m, -, cheaper⟩ := goesOn n work work' allowed turn
  rw [place] at distinct
  have others := number_ne_of_place distinct
  have same : ∀ duties : List (Duty J β), (∀ duty ∈ duties, duty ∈ before ++ after) →
      (duties.map fun duty => fareUnderway policy limit (spend spent t cost) duty.ticket).sum =
        (duties.map fun duty => fareUnderway policy limit spent duty.ticket).sum := by
    intro duties part
    congr 1
    refine List.map_congr_left fun duty there => ?_
    rw [fareUnderway, spend_of_ne fun same => absurd same (others duty (part duty there))]
    rfl
  have own : fareUnderway policy limit (spend spent t cost) t + policy.mostRuns * cost =
      fareUnderway policy limit spent t := by
    rw [fareUnderway, spend_self, Nat.add_assoc, ← Nat.mul_add]
    simp only at within
    rw [show limit t.job - (spent t.number t.attempt + cost) + cost =
      limit t.job - spent t.number t.attempt by omega]
    rfl
  simp only [budget, place, List.map_append, List.map_cons, List.sum_append, List.sum_cons,
    same before fun _ => List.mem_append_left _, same after fun _ => List.mem_append_right _]
  omega

theorem Solvent.budget_le (solvent : Solvent policy limit allows spent crew)
    (accounts : Queue.Accounts policy events crew.queue) (most : Nat)
    (limited : ∀ job, limit job ≤ most) :
    crew.budget policy limit spent ≤
      crew.queue.outstanding * (policy.mostRuns * (1 + policy.mostRuns * most)) := by
  let share := policy.mostRuns * (1 + policy.mostRuns * most)
  have dear : ∀ runs job, runs ≤ policy.mostRuns → runs * fare policy limit job ≤ share :=
    fun runs job few => Nat.mul_le_mul few
      (Nat.add_le_add_left (Nat.mul_le_mul_left _ (limited job)) 1)
  have ahead : ∀ t : Ticket J, 1 ≤ t.attempt → fareAhead policy limit t ≤ share :=
    fun t first => dear _ _ (by omega)
  have underway : ∀ duty ∈ crew.duties, fareUnderway policy limit spent duty.ticket ≤ share := by
    intro duty there
    obtain ⟨first, last, -, -⟩ := solvent.running duty there
    refine Nat.le_trans ?_ (dear (policy.mostRuns - duty.ticket.attempt + 1) duty.ticket.job
      (by omega))
    have kept : policy.mostRuns *
        (limit duty.ticket.job - spent duty.ticket.number duty.ticket.attempt) ≤
        policy.mostRuns * limit duty.ticket.job := Nat.mul_le_mul_left _ (Nat.sub_le _ _)
    rw [fareUnderway, Nat.succ_mul]
    simp only [fare] at kept ⊢
    omega
  have total : ∀ {α : Type} (as : List α) (f : α → Nat), (∀ a ∈ as, f a ≤ share) →
      (as.map f).sum ≤ as.length * share := by
    intro α as f most
    have bound := List.sum_le_card_nsmul (as.map f) share fun n there => by
      obtain ⟨a, member, rfl⟩ := List.mem_map.mp there
      exact most a member
    simpa using bound
  have places : crew.queue.outstanding =
      crew.queue.channel.length + crew.queue.waiting.length + crew.duties.length := by
    have manned := congrArg List.length solvent.manned
    rw [List.length_map] at manned
    rw [accounts.outstanding, Queue.length_numbers, manned]
    omega
  rw [places, Nat.add_mul, Nat.add_mul]
  exact Nat.add_le_add (Nat.add_le_add
    (total _ _ fun t there => ahead t (solvent.channel t there).first)
    (total _ _ fun r there => ahead r.ticket (solvent.waiting r there).first))
    (total _ _ underway)

end Crew

end CacheAside
