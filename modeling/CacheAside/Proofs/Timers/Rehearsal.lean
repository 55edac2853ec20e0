import CacheAside.Proofs.Timers.Schedule
import CacheAside.Simulation.Timers
import Mathlib.Data.List.Induction

namespace CacheAside

open Clockwork

namespace Timer

theorem left_le_ticksBy (instant : Nat) (timer : Timer) :
    timer.left instant ≤ timer.ticksBy instant := by
  unfold left ticksBy
  split
  · exact Nat.succ_le_succ (Nat.div_le_div_right (Nat.sub_le ..))
  · exact Nat.zero_le _

theorem lt_due_of_left {instant : Nat} {timer : Timer} (none : timer.left instant = 0) :
    instant < timer.due := by
  by_contra due
  rw [left, if_pos (due_le_iff.mp (Nat.not_lt.mp due))] at none
  exact Nat.succ_ne_zero _ none

end Timer

namespace Simulation

namespace Agenda

variable {E : Type} {agenda : Agenda E}

theorem plan_perm (agenda : Agenda E) (instant : Nat) (e : E) :
    (agenda.plan instant e).Perm ((instant, e) :: agenda) := by
  induction agenda with
  | nil => exact .refl _
  | cons first rest ih =>
    unfold plan
    split
    · exact .refl _
    · exact (ih.cons _).trans (.swap ..)

theorem plan_sorted (sorted : agenda.Pairwise (·.1 ≤ ·.1)) (instant : Nat) (e : E) :
    (agenda.plan instant e).Pairwise (·.1 ≤ ·.1) := by
  induction agenda with
  | nil => exact List.pairwise_singleton ..
  | cons first rest ih =>
    obtain ⟨least, others⟩ := List.pairwise_cons.mp sorted
    unfold plan
    split
    · rename_i earlier
      refine List.pairwise_cons.mpr ⟨fun entry there => ?_, sorted⟩
      rcases List.mem_cons.mp there with rfl | there
      · exact Nat.le_of_lt earlier
      · exact Nat.le_trans (Nat.le_of_lt earlier) (least entry there)
    · rename_i later
      refine List.pairwise_cons.mpr ⟨fun entry there => ?_, ih others⟩
      rcases List.mem_cons.mp ((plan_perm rest instant e).subset there) with rfl | there
      · exact Nat.not_lt.mp later
      · exact least entry there

end Agenda

namespace Timers

inductive Command where
  | sleep (ms : Nat)
  | shutdown
  | closeQueue
  deriving DecidableEq, Repr

def Command.millis : Command → Nat
  | sleep ms => ms
  | _ => 0

def obey (t : Timers) : Command → Timers
  | .sleep ms => t.sleep ms
  | .shutdown => t.shutdown
  | .closeQueue => t.closeQueue

def course (table : Timetable) (commands : List Command) : Timers :=
  commands.foldl obey (start table)

def watched : Queue Rebuild := (Queue.create { QueuePolicy.rebuilds with concurrency := 1 }).start

structure Idle (q : Queue Rebuild) : Prop where
  channel : q.channel = []
  running : q.running = []
  workers : q.workers = 1
  stopping : q.stopping = !q.isOpen

variable {table : Timetable} {t : Timers} {acts : List Clockwork.Act} {w : Clockwork} {q : Queue Rebuild}
  {timer : Timer} {rest : Agenda Timer} {instant : Nat}

theorem serveAll_of_stopping (running : q.running = []) (workers : q.workers = 1)
    (stopping : q.stopping = true) :
    serveAll q = ([], q.close) ∧ q.Step (.closed q.channel) q.close ∧ Idle q.close := by
  have free : q.hasFreeWorker = true := by simp [Queue.hasFreeWorker, running, workers]
  have closes : q.close = { q with
      isOpen := false
      channel := []
      outstanding := q.outstanding - q.channel.length } := if_pos ⟨stopping, free⟩
  refine ⟨?_, .closed stopping free, ?_⟩
  · simp [serveAll, Simulation.serve, stopping]
  · rw [closes]
    exact ⟨rfl, running, workers, stopping⟩

theorem serveAll_of_open (idle : Idle q) (opened : q.isOpen = true) (job : Rebuild) (now : Nat) :
    ∃ ticket q', ticket.job = job ∧ serveAll (q.enqueue job).2 = ([ticket], q') ∧
      (q.enqueue job).2.Step (.taken ticket) q' ∧ ticket ∈ q'.running ∧
      Idle (q'.finish now ticket .success).2 := by
  obtain ⟨channel, running, workers, stopping⟩ := idle
  rcases q with ⟨policy, _, _, _, _, _, waiting, enqueued, completed, failed, retried,
    outstanding, deadLetters⟩
  subst channel running workers opened
  obtain rfl : _ = false := stopping
  refine ⟨⟨enqueued, job, 1⟩, _, rfl, rfl, .taken rfl, List.mem_cons_self, ?_⟩
  simp only [Queue.finish, Ending.error?, Queue.release]
  constructor <;> simp [Queue.enqueue]

structure Rehearsal (table : Timetable) (t : Timers) (acts : List Clockwork.Act) (w : Clockwork) :
    Prop where
  run : Run (Clockwork.start table watched) acts w
  now : w.now = t.now
  queue : w.queue = t.queue
  timers : (t.agenda.map (·.2)).Perm w.timers
  dues : ∀ entry ∈ t.agenda, entry.1 = entry.2.due
  sorted : t.agenda.Pairwise (·.1 ≤ ·.1)
  resting : ∀ ticker ∈ w.tickers, ticker.offering = false
  seen : t.seen = swept acts
  ended : w.told = true → w.tickers = []
  idle : Idle t.queue

theorem Rehearsal.wait (rehearsal : Rehearsal table t acts w) (later : t.now ≤ instant)
    (onTime : ∀ entry ∈ t.agenda, instant ≤ entry.1) :
    Rehearsal table { t with now := instant } (acts ++ [.waited]) { w with now := instant } := by
  obtain ⟨run, now, queue, timers, dues, sorted, resting, seen, ended, idle⟩ := rehearsal
  have waited : Step w .waited { w with now := instant } := by
    refine .waited instant (now ▸ later) fun ticker there => ?_
    have planned := timers.symm.subset (List.mem_map_of_mem there)
    obtain ⟨entry, isPlanned, same⟩ := List.mem_map.mp planned
    rw [← same, ← dues entry isPlanned]
    exact onTime entry isPlanned
  refine ⟨run.snoc waited, rfl, queue, timers, dues, sorted, resting, ?_, ended, idle⟩
  rw [swept_snoc_of_silent rfl]
  exact seen

theorem Rehearsal.punctual (rehearsal : Rehearsal table t acts w) :
    ∀ entry ∈ t.agenda, t.now ≤ entry.1 := by
  intro entry there
  obtain ⟨gone, balance⟩ := rehearsal.run.balance
  have planned := rehearsal.timers.subset (List.mem_map_of_mem there)
  obtain ⟨ticker, member, same⟩ := List.mem_map.mp planned
  rw [rehearsal.dues entry there, ← same, ← rehearsal.now]
  exact balance.ahead ticker member

theorem Rehearsal.runs (rehearsal : Rehearsal table t acts w) :
    ∀ entry ∈ t.agenda, 0 < entry.2.every.toNanos := fun _ there =>
  rehearsal.run.runs _ (rehearsal.timers.subset (List.mem_map_of_mem there))

theorem Rehearsal.goOn (rehearsal : Rehearsal table t acts w) {due : Nat}
    (planned : t.agenda = (due, timer) :: rest) {before after : List Ticker}
    (there : w.tickers = before ++ ⟨timer, false⟩ :: after) {acts' : List Clockwork.Act}
    (run : Run (Clockwork.start table watched) acts' { w with
      tickers := before ++ ⟨timer.next, false⟩ :: after
      queue := q }) (idle : Idle q) {seen : List (Nat × Rebuild)}
    (noted : seen = swept acts') :
    Rehearsal table ⟨t.now, q, rest.plan timer.next.due timer.next, seen⟩ acts' { w with
      tickers := before ++ ⟨timer.next, false⟩ :: after
      queue := q } := by
  obtain ⟨-, now, -, timers, dues, sorted, resting, -, ended, -⟩ := rehearsal
  rw [planned] at timers dues sorted
  have plan := Agenda.plan_perm rest timer.next.due timer.next
  simp only [there, List.forall_mem_append, List.forall_mem_cons] at resting dues ended
  refine ⟨run, now, rfl, ?_, fun entry member => ?_, ?_, ?_, noted, ?_, idle⟩
  · simp only [Clockwork.timers, there, List.map_append, List.map_cons] at timers ⊢
    have others := (timers.trans List.perm_middle).cons_inv
    refine (plan.map _).trans ?_
    rw [List.map_cons]
    exact (others.cons _).trans List.perm_middle.symm
  · rcases List.mem_cons.mp (plan.subset member) with rfl | old
    · rfl
    · exact dues.2 entry old
  · exact Agenda.plan_sorted (List.pairwise_cons.mp sorted).2 ..
  · simp only [List.forall_mem_append, List.forall_mem_cons]
    exact ⟨resting.1, trivial, resting.2.2⟩
  · exact fun told => absurd (ended told) (by simp)

theorem Rehearsal.rang (rehearsal : Rehearsal table t acts w) {due : Nat}
    (planned : t.agenda = (due, timer) :: rest) (reached : due ≤ t.now) :
    ∃ before after, w.tickers = before ++ ⟨timer, false⟩ :: after ∧
      Run (Clockwork.start table watched) (acts ++ [.rang])
        { w with tickers := before ++ ⟨timer, true⟩ :: after } := by
  obtain ⟨run, now, -, timers, dues, -, resting, -, ended, -⟩ := rehearsal
  rw [planned] at timers dues
  obtain ⟨before, after, there⟩ :
      ∃ before after, w.tickers = before ++ ⟨timer, false⟩ :: after := by
    obtain ⟨ticker, member, rfl⟩ := List.mem_map.mp (timers.subset List.mem_cons_self)
    rcases ticker with ⟨timer, offering⟩
    obtain rfl : offering = false := resting _ member
    exact List.append_of_mem member
  have going : w.told = false := by
    by_contra told
    simpa [there] using ended (Bool.not_eq_false _ ▸ told)
  have isDue : timer.due ≤ w.now := by
    rw [now, ← dues _ List.mem_cons_self]
    exact reached
  exact ⟨before, after, there, run.snoc (.rang before timer there isDue going)⟩

theorem Rehearsal.tick (rehearsal : Rehearsal table t acts w) {due : Nat}
    (planned : t.agenda = (due, timer) :: rest) (reached : due ≤ t.now) :
    ∃ q seen acts' w',
      Timers.tick { t with agenda := rest } timer =
        ⟨t.now, q, rest.plan timer.next.due timer.next, seen⟩ ∧
      Rehearsal table ⟨t.now, q, rest.plan timer.next.due timer.next, seen⟩ acts' w' ∧
      w'.told = w.told := by
  obtain ⟨before, after, there, rang⟩ := rehearsal.rang planned reached
  have ticked := rang.snoc (.ticked before timer rfl)
  have queue := rehearsal.queue
  have idle := rehearsal.idle
  cases opened : t.queue.isOpen with
  | true =>
    obtain ⟨ticket, q, job, serves, taken, running, idle⟩ :=
      serveAll_of_open idle opened (.sweep timer.ns) t.now
    rw [← queue] at taken
    have done := (ticked.snoc (.beside taken)).snoc (.beside (.ended running t.now .success))
    refine ⟨_, t.seen ++ [(t.now, .sweep timer.ns)], _, _, ?_,
      rehearsal.goOn planned there done idle ?_, rfl⟩
    · simp [Timers.tick, Timers.serve, serves, see, job]
    · have accepted : (w.queue.enqueue (.sweep timer.ns)).1 = true := by
        simp [Queue.enqueue, queue, opened]
      rw [swept_snoc_of_silent rfl, swept_snoc_of_silent rfl, swept_snoc_ticked,
        swept_snoc_of_silent rfl, if_pos accepted, ← rehearsal.seen, rehearsal.now]
  | false =>
    have refused : t.queue.enqueue (.sweep timer.ns) = (false, t.queue) := by
      simp [Queue.enqueue, opened]
    have stopping : t.queue.stopping = true := by simp [idle.stopping, opened]
    obtain ⟨serves, closed, idle⟩ :=
      serveAll_of_stopping idle.running idle.workers stopping
    rw [queue, refused] at ticked
    have done := ticked.snoc (.beside closed)
    refine ⟨_, t.seen, _, _, ?_, rehearsal.goOn planned there done idle ?_, rfl⟩
    · simp [Timers.tick, Timers.serve, refused, serves]
    · rw [swept_snoc_of_silent rfl, swept_snoc_ticked, swept_snoc_of_silent rfl, ← rehearsal.seen]
      exact (List.append_nil _).symm

def pending (instant : Nat) (agenda : Agenda Timer) : Nat :=
  (agenda.map fun entry => entry.2.left instant).sum

theorem pending_le (instant : Nat) (agenda : Agenda Timer) :
    pending instant agenda ≤
      agenda.foldl (fun count (_, timer) => count + timer.ticksBy instant) 0 := by
  have all : ∀ count, count + pending instant agenda ≤
      agenda.foldl (fun count (_, timer) => count + timer.ticksBy instant) count := by
    unfold pending
    induction agenda with
    | nil => exact fun _ => Nat.le_refl _
    | cons entry rest ih =>
      intro count
      obtain ⟨due, timer⟩ := entry
      have one := timer.left_le_ticksBy instant
      rw [List.foldl_cons, List.map_cons, List.sum_cons]
      refine Nat.le_trans ?_ (ih (count + timer.ticksBy instant))
      dsimp only
      omega
  simpa using all 0

def Reaches (table : Timetable) (t : Timers) (instant : Nat) (told : Bool) : Prop :=
  ∃ acts w, Rehearsal table t acts w ∧ t.now = instant ∧
    (∀ entry ∈ t.agenda, instant < entry.1) ∧ w.told = told

theorem Rehearsal.reaches (rehearsal : Rehearsal table t acts w) (later : t.now ≤ instant)
    (settled : ∀ entry ∈ t.agenda, instant < entry.1) :
    Reaches table { t with now := instant } instant w.told :=
  ⟨_, _, rehearsal.wait later fun entry there => Nat.le_of_lt (settled entry there), rfl, settled,
    rfl⟩

theorem Rehearsal.pending_tick (rehearsal : Rehearsal table t acts w) {due : Nat}
    (planned : t.agenda = (due, timer) :: rest) (reached : due ≤ instant) :
    pending instant t.agenda =
      pending instant (Agenda.plan rest timer.next.due timer.next) + 1 := by
  have first : (due, timer) ∈ t.agenda := planned ▸ List.mem_cons_self
  have plan := Agenda.plan_perm rest timer.next.due timer.next
  have runs : 0 < timer.every.toNanos := rehearsal.runs (due, timer) first
  have isDue : due = timer.due := rehearsal.dues _ first
  have early : timer.due ≤ instant := by rwa [← isDue]
  have one := Timer.left_of_due runs early
  rw [planned, pending, pending, (plan.map _).sum_nat]
  simp only [List.map_cons, List.sum_cons]
  omega

theorem Rehearsal.runUntil (rehearsal : Rehearsal table t acts w) (later : t.now ≤ instant)
    {limit : Nat} (enough : pending instant t.agenda ≤ limit) :
    Reaches table (Timers.runUntil instant limit t) instant w.told := by
  -- A tick leaves one less to come, so that the limit is not met before the instant.
  induction limit generalizing t acts w with
  | zero =>
    refine rehearsal.reaches later fun entry there => ?_
    rw [rehearsal.dues entry there]
    exact Timer.lt_due_of_left (List.sum_eq_zero_iff_forall_eq_nat.mp
      (Nat.eq_zero_of_le_zero enough) _ (List.mem_map_of_mem there))
  | succ limit ih =>
    unfold Timers.runUntil
    split
    · rename_i none
      exact rehearsal.reaches later (by simp [none])
    · rename_i due timer rest planned
      have least : ∀ entry ∈ t.agenda, due ≤ entry.1 := by
        have sorted := rehearsal.sorted
        rw [planned] at sorted ⊢
        exact List.forall_mem_cons.mpr ⟨Nat.le_refl _, (List.pairwise_cons.mp sorted).1⟩
      split
      · rename_i reached
        have first : (due, timer) ∈ t.agenda := planned ▸ List.mem_cons_self
        have waited := rehearsal.wait (rehearsal.punctual _ first) least
        obtain ⟨q, seen, acts', w', ticks, ticked, told⟩ := waited.tick planned (Nat.le_refl _)
        rw [rehearsal.pending_tick planned reached] at enough
        have reaches := ih ticked reached (Nat.le_of_succ_le_succ enough)
        rw [ticks]
        exact told ▸ reaches
      · rename_i beyond
        exact rehearsal.reaches later fun entry there =>
          Nat.lt_of_lt_of_le (Nat.not_le.mp beyond) (least entry there)

theorem Rehearsal.advance (rehearsal : Rehearsal table t acts w) (later : t.now ≤ instant) :
    Reaches table (Timers.advance instant t) instant w.told :=
  rehearsal.runUntil later (pending_le instant t.agenda)

theorem Rehearsal.shutdown (rehearsal : Rehearsal table t acts w) :
    ∃ acts' w', Rehearsal table t.shutdown acts' w' := by
  obtain ⟨run, now, queue, timers, dues, sorted, resting, seen, ended, idle⟩ := rehearsal
  obtain ⟨acts', all, same⟩ := (run.snoc .told).end_all rfl resting
  have noted : swept acts' = swept acts := by
    rw [swept, same, ticks_snoc_of_silent rfl, swept]
  refine ⟨_, _, all, now, queue, .nil, fun _ there => ?_, .nil, fun _ there => ?_,
    seen.trans noted.symm, fun _ => rfl, idle⟩
  · cases there
  · cases there

theorem Rehearsal.closeQueue (rehearsal : Rehearsal table t acts w) :
    ∃ acts' w', Rehearsal table t.closeQueue acts' w' ∧ t.closeQueue.now = t.now ∧
      t.closeQueue.agenda = t.agenda ∧ w'.told = w.told := by
  obtain ⟨run, now, queue, timers, dues, sorted, resting, seen, ended, idle⟩ := rehearsal
  obtain ⟨serves, closed, idle⟩ :=
    serveAll_of_stopping (q := t.queue.stop) idle.running idle.workers rfl
  have closes : t.closeQueue = { t with queue := t.queue.stop.close } := by
    simp [Timers.closeQueue, Timers.serve, serves]
  rw [← queue] at closed
  have done := (run.snoc (.beside (.stopped _))).snoc (.beside closed)
  rw [closes]
  refine ⟨_, _, ⟨done, now, ?_, timers, dues, sorted, resting, ?_, ended, idle⟩, rfl, rfl, rfl⟩
  · rw [← queue]
  · rw [swept_snoc_of_silent rfl, swept_snoc_of_silent rfl]
    exact seen

theorem Rehearsal.obey (rehearsal : Rehearsal table t acts w)
    (settled : ∀ entry ∈ t.agenda, t.now < entry.1) (command : Command) :
    ∃ acts' w', Rehearsal table (t.obey command) acts' w' ∧
      (t.obey command).now = t.now + command.millis ∧
      (∀ entry ∈ (t.obey command).agenda, (t.obey command).now < entry.1) ∧
      (w'.told = true → w.told = true ∨ command = .shutdown) := by
  cases command with
  | sleep ms =>
    obtain ⟨acts', w', slept, now, settled, told⟩ :=
      rehearsal.advance (Nat.le_add_right t.now ms)
    refine ⟨acts', w', slept, now, fun entry there => ?_, fun signal => .inl (told ▸ signal)⟩
    have later := settled entry there
    rw [← now] at later
    exact later
  | shutdown =>
    obtain ⟨acts', w', down⟩ := rehearsal.shutdown
    exact ⟨acts', w', down, rfl, nofun, fun _ => .inr rfl⟩
  | closeQueue =>
    obtain ⟨acts', w', shut, now, agenda, told⟩ := rehearsal.closeQueue
    refine ⟨acts', w', shut, now, ?_, fun signal => .inl (told ▸ signal)⟩
    rw [Timers.obey, agenda, now]
    exact settled

theorem planAll_perm (timers : List Timer) (agenda : Agenda Timer) :
    (timers.foldl (fun agenda timer => agenda.plan timer.due timer) agenda).Perm
      (timers.map (fun timer => (timer.due, timer)) ++ agenda) := by
  induction timers generalizing agenda with
  | nil => exact .refl _
  | cons timer rest ih =>
    exact (ih _).trans (((Agenda.plan_perm ..).append_left _).trans List.perm_middle)

theorem planAll_sorted (timers : List Timer) {agenda : Agenda Timer}
    (sorted : agenda.Pairwise (·.1 ≤ ·.1)) :
    (timers.foldl (fun agenda timer => agenda.plan timer.due timer) agenda).Pairwise
      (·.1 ≤ ·.1) := by
  induction timers generalizing agenda with
  | nil => exact sorted
  | cons timer rest ih => exact ih (Agenda.plan_sorted sorted ..)

theorem start_reaches (table : Timetable) : Reaches table (start table) 0 false := by
  have plan := planAll_perm table.timers []
  rw [List.append_nil] at plan
  refine @Rehearsal.advance table _ [] (Clockwork.start table watched) 0 ?_ (Nat.le_refl 0)
  refine ⟨.nil, rfl, rfl, ?_, fun entry there => ?_, planAll_sorted _ .nil, ?_, rfl, nofun,
    ⟨rfl, rfl, rfl, rfl⟩⟩
  · rw [timers_start]
    refine (plan.map _).trans (.of_eq ?_)
    rw [List.map_map]
    exact List.map_id _
  · obtain ⟨timer, -, rfl⟩ := List.mem_map.mp (plan.subset there)
    rfl
  · intro ticker there
    obtain ⟨timer, -, rfl⟩ := List.mem_map.mp there
    rfl

/-- Whatever a caller does, the timers are as the clockwork may be, and no tick is missing. -/
theorem course_rehearsed (table : Timetable) (commands : List Command) :
    ∃ acts w, Rehearsal table (course table commands) acts w ∧
      (course table commands).now = (commands.map Command.millis).sum ∧
      (∀ entry ∈ (course table commands).agenda, (course table commands).now < entry.1) ∧
      (w.told = true → .shutdown ∈ commands) := by
  induction commands using List.reverseRecOn with
  | nil =>
    obtain ⟨acts, w, rehearsal, now, settled, going⟩ := start_reaches table
    exact ⟨acts, w, rehearsal, now, now ▸ settled, fun told => by cases going.symm.trans told⟩
  | append_singleton commands command ih =>
    obtain ⟨acts, w, rehearsal, now, settled, told⟩ := ih
    obtain ⟨acts', w', rehearsal', now', settled', told'⟩ := rehearsal.obey settled command
    have last : course table (commands ++ [command]) = (course table commands).obey command := by
      rw [course, List.foldl_concat, course]
    rw [last]
    refine ⟨acts', w', rehearsal', ?_, settled', fun signal => ?_⟩
    · simp [now', now]
    · rcases told' signal with earlier | rfl
      · exact List.mem_append_left _ (told earlier)
      · exact List.mem_append_right _ List.mem_cons_self

end Timers

end Simulation

namespace Clockwork

open Simulation.Timers

/-- If all intervals are whole milliseconds, a timer ticks at the multiples of its interval, once at
each, until it is told to end. As long as the queue is open it takes the sweeps of all ticks; while
it is closed it takes none, and the timers go on. After the signal only ticks that were on their way
arrive, and none when all timers have ended. The timers as they are run go like this. -/
theorem ticks_exact {table : Timetable} {queue : Queue Rebuild} {acts : List Act} {w : Clockwork}
    (whole : ∀ c ∈ table.cadences, 1_000_000 ∣ c.every.toNanos)
    (run : Run (start table queue) acts w) :
    (w.told = false →
      (w.timers.map Timer.cadence).Perm (table.cadences.filter (·.every ≠ .zero)) ∧
      (∀ instant < w.now, w.Served instant) ∧
      ∀ instant, w.Served instant →
        (upTo instant acts).Perm (table.schedule instant) ∧
        (w.queue.isOpen = true → ∀ ns, sweeps ns instant acts = table.dueSweeps ns instant)) ∧
    (∀ instant, (upTo instant acts).Subperm (table.schedule instant)) ∧
    (.abandoned ∉ acts → queue.Run (acts.filterMap Act.onQueue?) w.queue) ∧
    (∀ more w', Run w more w' →
      (w'.queue.isOpen = true → ∀ tick ∈ ticks more, tick.taken = true) ∧
      (w.queue.isOpen = false →
        (∀ tick ∈ ticks more, tick.taken = false) ∧ w'.queue.enqueued = w.queue.enqueued) ∧
      (w.told = true →
        (ticks more).length ≤ w.tickers.countP (·.offering) ∧
        (w.tickers = [] → ticks more = []))) ∧
    ∀ commands, ∃ acts w, Run (start table watched) acts w ∧
      let t := course table commands
      t.now = (commands.map Command.millis).sum ∧ w.now = t.now ∧ w.Served t.now ∧
        w.queue = t.queue ∧ t.seen = swept acts ∧ (w.told = true → .shutdown ∈ commands) := by
  refine ⟨fun going => ⟨run.cadences going, fun instant past => run.served past, ?_⟩,
    run.upTo_subperm whole, run.onQueue, fun more w' goes => ⟨goes.of_open, ?_, ?_⟩, ?_⟩
  · intro instant served
    have exact_ticks := run.upTo_perm whole going served
    refine ⟨exact_ticks, fun opened ns => ?_⟩
    rw [sweeps_of_taken (run.of_open opened), exact_ticks.countP_eq, Timetable.countP_schedule]
  · intro closed
    obtain ⟨-, same, refused⟩ := goes.of_closed closed
    exact ⟨refused, same⟩
  · intro told
    obtain ⟨-, -, few⟩ := goes.of_told told
    refine ⟨Nat.le_trans (Nat.le_add_right ..) few, fun none => ?_⟩
    rw [none, List.countP_nil] at few
    exact List.eq_nil_of_length_eq_zero (by omega)
  · intro commands
    obtain ⟨acts, w, rehearsal, now, settled, told⟩ := course_rehearsed table commands
    refine ⟨acts, w, rehearsal.run, now, rehearsal.now, fun ticker there => ?_, rehearsal.queue,
      rehearsal.seen, told⟩
    have planned := rehearsal.timers.symm.subset (List.mem_map_of_mem there)
    obtain ⟨entry, member, same⟩ := List.mem_map.mp planned
    rw [← same, ← rehearsal.dues entry member]
    exact settled entry member

def brisk : Timetable where
  cadences := [⟨.state, .ofMillis 2⟩, ⟨.state, .ofMillis 3⟩, ⟨.insights, .zero⟩]
  tickAtStart := true

theorem ticks_exact_of_brisk : ∃ acts w, Run (start brisk watched) acts w ∧ w.now = 3 ∧
    upTo 3 acts = [(0, .state), (0, .state), (2, .state), (3, .state)] ∧
    sweeps .state 3 acts = brisk.dueSweeps .state 3 ∧ brisk.dueSweeps .state 3 = 4 := by
  have none : Run (start brisk watched) [] (start brisk watched) := .nil
  have started := none.snoc (.rang [] ⟨.state, .ofMillis 2, 0⟩ rfl (by decide) rfl)
    |>.snoc (.ticked [] _ rfl)
    |>.snoc (.rang [_] ⟨.state, .ofMillis 3, 0⟩ rfl (by decide) rfl)
    |>.snoc (.ticked [_] _ rfl)
  have second := started.snoc (.waited 2 (by decide) (by decide))
    |>.snoc (.rang [] ⟨.state, .ofMillis 2, 2_000_000⟩ rfl (by decide) rfl)
    |>.snoc (.ticked [] _ rfl)
  have third := second.snoc (.waited 3 (by decide) (by decide))
    |>.snoc (.rang [_] ⟨.state, .ofMillis 3, 3_000_000⟩ rfl (by decide) rfl)
    |>.snoc (.ticked [_] _ rfl)
  obtain ⟨all, -⟩ := ticks_exact (by decide) third
  obtain ⟨-, -, exact_ticks⟩ := all rfl
  obtain ⟨-, counted⟩ := exact_ticks 3 (by decide)
  exact ⟨_, _, third, rfl, rfl, counted rfl .state, by decide⟩

end Clockwork

end CacheAside
