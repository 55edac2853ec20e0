import CacheAside.Proofs.Queue.Biography

namespace CacheAside

namespace Queue

variable {J : Type}

def Event.happening? (number : Nat) : Event J → Option Happening
  | taken t => if t.number = number then some (.taken t.attempt) else none
  | ended _ t ending => if t.number = number then some (.ended t.attempt ending) else none
  | returned r sent =>
    if r.ticket.number = number then some (if sent then .returned r.ticket.attempt else .dropped)
    else none
  | closed dropped => if number ∈ dropped.map (·.number) then some .dropped else none
  | _ => none

def story (number : Nat) (history : List (Nat × Event J)) : Log :=
  history.filterMap fun (now, event) => (event.happening? number).map (now, ·)

def placed (q : Queue J) (began : Nat → Nat) (ends : List (Nat × Fate)) : List (Nat × Place) :=
  q.channel.map (fun t => (t.number, .channel t.attempt)) ++
    q.running.map (fun t => (t.number, .running t.attempt (began t.number))) ++
    q.waiting.map (fun r => (r.ticket.number, .waiting r.ticket.attempt r.due)) ++
    ends.map fun e => (e.1, .settled e.2)

/-- A queue at an instant, and when the latest run of each job began. -/
structure Clocked (J : Type) where
  queue : Queue J
  now : Nat
  began : Nat → Nat

structure Clocked.MayWait (c : Clocked J) (instant : Nat) : Prop where
  later : c.now ≤ instant
  pauses : ∀ r ∈ c.queue.waiting, instant ≤ r.due
  limits : ∀ t ∈ c.queue.running,
    instant ≤ c.began t.number + c.queue.policy.timeLimit.ceilMillis

/-- A pause is over at the instant when it is due, and only a run that has come to the time limit is
broken off. -/
def Clocked.Timely (c : Clocked J) : Event J → Prop
  | .ended now t ending => now = c.now ∧
    (ending = .timeout → c.now = c.began t.number + c.queue.policy.timeLimit.ceilMillis)
  | .returned r _ => c.now = r.due
  | _ => True

def Clocked.after (c : Clocked J) (event : Event J) (q : Queue J) : Clocked J where
  queue := q
  now := c.now
  began :=
    match event with
    | .taken t => Function.update c.began t.number c.now
    | _ => c.began

def Clocked.places (c : Clocked J) (history : List (Nat × Event J)) : List (Nat × Place) :=
  c.queue.placed c.began (fates c.queue.policy (history.map (·.2)))

/-- The steps of a queue that was created and started, each with its instant. -/
inductive Timed (policy : QueuePolicy) : List (Nat × Event J) → Clocked J → Prop
  | start (instant : Nat) : Timed policy [] ⟨(create policy).start, instant, fun _ => instant⟩
  | wait {history : List (Nat × Event J)} {c : Clocked J} (before : Timed policy history c)
    (instant : Nat) (free : c.MayWait instant) : Timed policy history { c with now := instant }
  | step {history : List (Nat × Event J)} {c : Clocked J} {event : Event J} {q : Queue J}
    (before : Timed policy history c) (step : Step c.queue event q) (timely : c.Timely event) :
    Timed policy (history ++ [(c.now, event)]) (c.after event q)

variable {policy : QueuePolicy} {history : List (Nat × Event J)} {c : Clocked J} {q q' : Queue J}
  {events : List (Event J)} {event : Event J}

theorem Timed.run (timed : Timed policy history c) :
    Run (create policy).start (history.map (·.2)) c.queue := by
  induction timed with
  | start => exact .nil
  | wait _ _ _ ih => exact ih
  | step _ step _ ih =>
    rw [List.map_append]
    exact ih.snoc step

theorem story_snoc (number now : Nat) (history : List (Nat × Event J)) (event : Event J) :
    story number (history ++ [(now, event)]) =
      story number history ++ ((event.happening? number).map (now, ·)).toList := by
  rw [story, List.filterMap_append]
  cases happens : event.happening? number <;> simp [story, happens]

def Place.Punctual (policy : QueuePolicy) (now : Nat) : Place → Prop
  | running _ began => began ≤ now ∧ now ≤ began + policy.timeLimit.ceilMillis
  | waiting _ due => now ≤ due
  | _ => True

theorem Moves.punctual {now : Nat} {place place' : Place} {happening : Happening}
    (moves : Moves policy now place happening place') : place'.Punctual policy now := by
  cases moves with
  | taken => exact ⟨Nat.le_refl _, Nat.le_add_right ..⟩
  | retried => exact Nat.le_add_right ..
  | _ => trivial

/-- What a step does to the places of jobs: those that it moves go from one place to another, one
job may be accepted, and the rest stay where they are. -/
structure Shift (policy : QueuePolicy) (now enqueued : Nat) (event : Event J)
    (before after : List (Nat × Place)) (moved : List (Nat × Place × Place))
    (rest : List (Nat × Place)) : Prop where
  before : before.Perm (moved.map (fun m => (m.1, m.2.1)) ++ rest)
  after : after.Perm (moved.map (fun m => (m.1, m.2.2)) ++ rest ++
    if event.accepts then [(enqueued, .channel 1)] else [])
  moves : ∀ m ∈ moved, ∃ happening, event.happening? m.1 = some happening ∧
    Moves policy now m.2.1 happening m.2.2
  all : ∀ number happening, event.happening? number = some happening →
    number ∈ moved.map (·.1)

theorem numbers_placed (q : Queue J) (began : Nat → Nat) (ends : List (Nat × Fate)) :
    (q.placed began ends).map (·.1) = q.numbers ++ ends.map (·.1) := by
  simp [placed, numbers, Function.comp_def]

theorem count_placed (q : Queue J) (began : Nat → Nat) (ends : List (Nat × Fate))
    (p : Nat × Place) : (q.placed began ends).count p =
      (q.channel.map fun t => (t.number, Place.channel t.attempt)).count p +
      (q.running.map fun t => (t.number, Place.running t.attempt (began t.number))).count p +
      (q.waiting.map fun r => (r.ticket.number, Place.waiting r.ticket.attempt r.due)).count p +
      (ends.map fun e => (e.1, Place.settled e.2)).count p := by
  simp only [placed, List.count_append]

theorem places_after (c : Clocked J) (history : List (Nat × Event J)) (event : Event J)
    (q : Queue J) : (c.after event q).places (history ++ [(c.now, event)]) =
      q.placed (c.after event q).began
        (fates q.policy (history.map (·.2)) ++ event.fates q.policy) := by
  rw [Clocked.places, List.map_append, List.map_singleton, fates_snoc]
  rfl

theorem Shift.none {now enqueued : Nat} {before after : List (Nat × Place)}
    (happens : ∀ number, event.happening? number = .none)
    (moves : after.Perm (before ++ if event.accepts then [(enqueued, .channel 1)] else [])) :
    ∃ moved rest, Shift policy now enqueued event before after moved rest := by
  refine ⟨[], before, .refl _, moves, nofun, fun number happening there => ?_⟩
  cases (happens number).symm.trans there

theorem Shift.single {now enqueued number : Nat} {place place' : Place} {happening : Happening}
    {before after : List (Nat × Place)} (rest : List (Nat × Place))
    (moves : Moves policy now place happening place') (accepts : event.accepts = false)
    (happens : ∀ n, event.happening? n = if number = n then some happening else .none)
    (left : before.Perm ((number, place) :: rest))
    (came : after.Perm ((number, place') :: rest)) :
    ∃ moved rest, Shift policy now enqueued event before after moved rest := by
  refine ⟨[(number, place, place')], rest, left, ?_, ?_, ?_⟩
  · simpa [accepts] using came
  · intro m there
    cases List.mem_singleton.mp there
    exact ⟨happening, by simp [happens], moves⟩
  · intro n _ happened
    rw [happens] at happened
    split at happened
    · next same => simp [same]
    · cases happened

variable {now : Nat} {began : Nat → Nat} {ends : List (Nat × Fate)}

theorem Accounts.shift_taken (accounts : Accounts policy events q) {t : Ticket J}
    {channel : List (Ticket J)} (next : q.channel = t :: channel) :
    ∃ moved rest, Shift policy now q.enqueued (.taken t) (q.placed began ends)
      ({ q with channel, running := q.running ++ [t] }.placed
        (Function.update began t.number now) ends) moved rest := by
  have other : ∀ r ∈ q.running, r.number ≠ t.number := by
    have distinct := accounts.distinct
    rw [numbers, next, List.map_cons, List.cons_append, List.cons_append] at distinct
    intro r there same
    refine (List.nodup_cons.mp distinct).1 (List.mem_append_left _ (List.mem_append_right _ ?_))
    exact List.mem_map.mpr ⟨r, there, same⟩
  have kept : q.running.map (fun r =>
        (r.number, Place.running r.attempt (Function.update began t.number now r.number))) =
      q.running.map fun r => (r.number, Place.running r.attempt (began r.number)) := by
    refine List.map_congr_left fun r there => ?_
    rw [Function.update_of_ne (other r there)]
  refine Shift.single ({ q with channel }.placed began ends) (.taken t.attempt) rfl (fun n => rfl)
    ?_ ?_
  · rw [placed, next]
    exact .refl _
  · refine List.perm_iff_count.mpr fun p => ?_
    simp only [count_placed, List.map_append, kept, List.map_singleton, List.count_append,
      List.count_cons, List.count_nil, Function.update_self]
    omega

theorem Accounts.shift_ended (accounts : Accounts policy events q) {t : Ticket J}
    (running : t ∈ q.running) {instant : Nat} {ending : Ending} {place : Place}
    {after : List (Nat × Place)}
    (moves : Moves policy now (.running t.attempt (began t.number)) (.ended t.attempt ending) place)
    (came : after.Perm ((t.number, place) :: { q with running := q.others t }.placed began ends)) :
    ∃ moved rest, Shift policy now q.enqueued (.ended instant t ending) (q.placed began ends) after
      moved rest := by
  refine Shift.single _ moves rfl (fun n => rfl) ?_ came
  have left := (accounts.perm_running running).map fun r =>
    (r.number, Place.running r.attempt (began r.number))
  refine List.perm_iff_count.mpr fun p => ?_
  have counted := left.count_eq p
  simp only [count_placed, List.map_cons, List.count_cons] at counted ⊢
  omega

theorem Accounts.shift_returned (accounts : Accounts policy events q) {r : Retry J}
    (waits : r ∈ q.waiting) {sent : Bool} {place : Place} {after : List (Nat × Place)}
    (moves : Moves policy now (.waiting r.ticket.attempt r.due)
      (if sent then .returned r.ticket.attempt else .dropped) place)
    (came : after.Perm ((r.ticket.number, place) ::
      { q with waiting := q.waiting.filter (·.ticket.number ≠ r.ticket.number) }.placed
        began ends)) :
    ∃ moved rest, Shift policy now q.enqueued (.returned r sent) (q.placed began ends) after
      moved rest := by
  refine Shift.single _ moves rfl (fun n => rfl) ?_ came
  have left := (accounts.perm_waiting waits).map fun r =>
    (r.ticket.number, Place.waiting r.ticket.attempt r.due)
  refine List.perm_iff_count.mpr fun p => ?_
  have counted := left.count_eq p
  simp only [count_placed, List.map_cons, List.count_cons] at counted ⊢
  omega

theorem shift_closed : ∃ moved rest, Shift policy now q.enqueued (.closed q.channel)
    (q.placed began ends)
    ({ q with
      isOpen := false
      channel := []
      outstanding := q.outstanding - q.channel.length }.placed
      began (ends ++ (Event.closed q.channel).fates policy)) moved rest := by
  refine ⟨q.channel.map fun t => (t.number, .channel t.attempt, .settled .dropped),
    { q with channel := [] }.placed began ends, ?_, ?_, ?_, ?_⟩
  · refine List.perm_iff_count.mpr fun p => ?_
    simp only [List.count_append, count_placed, List.map_map, Function.comp_def, List.map_nil,
      List.count_nil]
    omega
  · refine List.perm_iff_count.mpr fun p => ?_
    simp only [List.count_append, count_placed, List.map_append, List.map_map, Function.comp_def,
      List.map_nil, List.count_nil, Event.fates, Event.accepts, Bool.false_eq_true, if_false]
    omega
  · intro m there
    obtain ⟨t, member, rfl⟩ := List.mem_map.mp there
    refine ⟨.dropped, if_pos (List.mem_map_of_mem member), .dropped t.attempt⟩
  · intro number happening happened
    have there : number ∈ q.channel.map (·.number) := by
      by_contra absent
      simp [Event.happening?, absent] at happened
    simpa [Function.comp_def] using there

def Clocked.Punctual (c : Clocked J) (history : List (Nat × Event J)) : Prop :=
  ∀ number place, (number, place) ∈ c.places history → place.Punctual c.queue.policy c.now

theorem Clocked.Punctual.inTime (punctual : c.Punctual history) {t : Ticket J} {instant : Nat}
    {ending : Ending} (running : t ∈ c.queue.running)
    (timely : c.Timely (.ended instant t ending)) :
    InTime c.queue.policy (c.began t.number) c.now ending := by
  have there : (t.number, .running t.attempt (c.began t.number)) ∈ c.places history := by
    simp only [Clocked.places, placed, List.mem_append, List.mem_map]
    exact .inl (.inl (.inr ⟨t, running, rfl⟩))
  obtain ⟨after, before⟩ := punctual _ _ there
  exact ⟨after, before, timely.2⟩

theorem Accounts.shift (accounts : Accounts policy (history.map (·.2)) c.queue)
    (punctual : c.Punctual history) (timely : c.Timely event) (effect : Effect c.queue event q) :
    ∃ moved rest, Shift policy c.now c.queue.enqueued event (c.places history)
      ((c.after event q).places (history ++ [(c.now, event)])) moved rest := by
  obtain rfl := accounts.samePolicy
  rw [places_after, Clocked.places]
  cases effect with
  | accepted =>
    refine Shift.none (fun _ => rfl) (List.perm_iff_count.mpr fun p => ?_)
    simp only [count_placed, Clocked.after, Event.fates, Event.accepts, List.map_append,
      List.map_singleton, List.count_append, List.map_nil, List.count_nil, if_true]
    omega
  | refused | stopped =>
    refine Shift.none (fun _ => rfl) ?_
    simp [Event.accepts, Event.fates, Clocked.after, placed]
  | taken _ _ next =>
    simp only [Event.fates, List.append_nil]
    exact accounts.shift_taken next
  | completed running _ decided =>
    obtain rfl := verdict_eq_completed.mp decided
    refine accounts.shift_ended running (.completed (punctual.inTime running timely)) ?_
    refine List.perm_iff_count.mpr fun p => ?_
    simp only [count_placed, Event.fates, decided, List.map_append, List.map_singleton,
      List.count_append, List.count_cons, List.count_nil, Clocked.after]
    omega
  | retried running _ decided =>
    obtain ⟨error, left⟩ := verdict_eq_retried.mp decided
    refine accounts.shift_ended running (.retried (punctual.inTime running timely) error left) ?_
    refine List.perm_iff_count.mpr fun p => ?_
    simp only [count_placed, Event.fates, decided, List.map_append, List.map_singleton,
      List.count_append, List.count_cons, List.append_nil, List.count_nil, Clocked.after, timely.1]
    omega
  | failed running _ decided =>
    obtain ⟨error, last⟩ := verdict_eq_failed.mp decided
    refine accounts.shift_ended running (.failed (punctual.inTime running timely) error last) ?_
    refine List.perm_iff_count.mpr fun p => ?_
    simp only [count_placed, Event.fates, decided, List.map_append, List.map_singleton,
      List.count_append, List.count_cons, List.count_nil, Clocked.after]
    omega
  | @sent r waits =>
    have moves : Moves c.queue.policy c.now (.waiting r.ticket.attempt r.due)
        (.returned r.ticket.attempt) (.channel r.ticket.attempt) := by
      rw [show c.now = r.due from timely]
      exact .sent _
    refine accounts.shift_returned waits moves ?_
    refine List.perm_iff_count.mpr fun p => ?_
    simp only [count_placed, Event.fates, if_true, List.map_append, List.map_singleton,
      List.count_append, List.count_cons, List.append_nil, List.count_nil, Clocked.after]
    omega
  | @dropped r waits =>
    have moves : Moves c.queue.policy c.now (.waiting r.ticket.attempt r.due) .dropped
        (.settled .dropped) := by
      rw [show c.now = r.due from timely]
      exact .unsent _
    refine accounts.shift_returned waits moves ?_
    refine List.perm_iff_count.mpr fun p => ?_
    simp only [count_placed, Event.fates, Bool.false_eq_true, if_false, List.map_append,
      List.map_singleton, List.count_append, List.count_cons, List.count_nil, Clocked.after]
    omega
  | closed => exact shift_closed

end Queue

end CacheAside
