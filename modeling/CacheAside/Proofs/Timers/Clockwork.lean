import CacheAside.Job
import CacheAside.Proofs.Queue.Machine
import CacheAside.Timetable
import Mathlib.Data.List.Perm.Subperm

namespace CacheAside

theorem Span.toNanos_pos {span : Span} (nonzero : span ≠ .zero) : 0 < span.toNanos :=
  Nat.pos_of_ne_zero fun none => nonzero (toNanos_injective (none.trans (by decide)))

theorem Timetable.runs_of_timers {table : Timetable} :
    ∀ timer ∈ table.timers, 0 < timer.every.toNanos := by
  intro timer there
  obtain ⟨c, kept, rfl⟩ := List.mem_map.mp there
  exact Span.toNanos_pos (of_decide_eq_true (List.mem_filter.mp kept).2)

namespace Timer

def cadence (timer : Timer) : Cadence := ⟨timer.ns, timer.every⟩

def after (count : Nat) (timer : Timer) : Timer :=
  { timer with deadline := timer.deadline + count * timer.every.toNanos }

def left (instant : Nat) (timer : Timer) : Nat :=
  if timer.deadline ≤ instant * 1_000_000 then
    (instant * 1_000_000 - timer.deadline) / timer.every.toNanos + 1
  else 0

def coming (instant : Nat) (timer : Timer) : List (Nat × Namespace) :=
  (List.range (timer.left instant)).map fun count => ((timer.after count).due, timer.ns)

variable {timer : Timer} {instant : Nat}

theorem due_le_iff : timer.due ≤ instant ↔ timer.deadline ≤ instant * 1_000_000 := by
  unfold due
  omega

theorem due_le_next (timer : Timer) : timer.due ≤ timer.next.due := by
  simp only [due, next]
  omega

-- `rfl` would set out to compare the deadlines
@[simp]
theorem next_ns (timer : Timer) : timer.next.ns = timer.ns := by
  rw [next]

@[simp]
theorem cadence_next (timer : Timer) : timer.next.cadence = timer.cadence := by
  rw [next, cadence, cadence]

@[simp]
theorem after_zero (timer : Timer) : timer.after 0 = timer := by
  rw [after, Nat.zero_mul, Nat.add_zero]

theorem after_succ (count : Nat) (timer : Timer) :
    timer.after (count + 1) = timer.next.after count := by
  unfold after next
  simp only [Timer.mk.injEq, true_and, Nat.add_one_mul]
  omega

theorem left_of_due (runs : 0 < timer.every.toNanos) (due : timer.due ≤ instant) :
    timer.left instant = timer.next.left instant + 1 := by
  unfold left next
  dsimp only
  rw [if_pos (due_le_iff.mp due)]
  have early := due_le_iff.mp due
  generalize timer.every.toNanos = every at runs ⊢
  generalize instant * 1_000_000 = limit at early ⊢
  split
  · rw [Nat.div_eq_sub_div runs (by omega), Nat.sub_sub]
  · rw [Nat.div_eq_of_lt (by omega)]

theorem coming_of_due (runs : 0 < timer.every.toNanos) (due : timer.due ≤ instant) :
    timer.coming instant = (timer.due, timer.ns) :: timer.next.coming instant := by
  rw [coming, left_of_due runs due, List.range_succ_eq_map, List.map_cons, List.map_map,
    after_zero, coming, next_ns]
  simp only [Function.comp_def, Nat.succ_eq_add_one, after_succ]

theorem coming_of_later (later : instant < timer.due) : timer.coming instant = [] := by
  rw [coming, left, if_neg (mt due_le_iff.mpr (Nat.not_le_of_lt later))]
  rfl

end Timer

/-- A timer in its task. As long as a tick of it is on its way to the queue, it looks neither at the
clock nor for the signal to end. -/
structure Ticker where
  timer : Timer
  offering : Bool

structure Tick where
  instant : Nat
  ns : Namespace
  taken : Bool
  deriving DecidableEq, Repr

structure Clockwork where
  now : Nat
  tickers : List Ticker
  queue : Queue Rebuild
  told : Bool

namespace Clockwork

def start (table : Timetable) (queue : Queue Rebuild) : Clockwork where
  now := 0
  tickers := table.timers.map (⟨·, false⟩)
  queue := queue
  told := false

def timers (w : Clockwork) : List Timer := w.tickers.map (·.timer)

inductive Act where
  | waited
  | rang
  | ticked (tick : Tick)
  | beside (event : Queue.Event Rebuild)
  | abandoned
  | told
  | ended

def Act.tick? : Act → Option Tick
  | ticked tick => some tick
  | _ => none

def Act.onQueue? : Act → Option (Queue.Event Rebuild)
  | ticked tick => some (.offered (.sweep tick.ns) tick.taken)
  | beside event => some event
  | _ => none

inductive Step (w : Clockwork) : Act → Clockwork → Prop
  | waited (instant : Nat) (later : w.now ≤ instant)
    (onTime : ∀ ticker ∈ w.tickers, instant ≤ ticker.timer.due) :
    Step w .waited { w with now := instant }
  | rang (before : List Ticker) {after : List Ticker} (timer : Timer)
    (there : w.tickers = before ++ ⟨timer, false⟩ :: after) (due : timer.due ≤ w.now)
    (going : w.told = false) : Step w .rang { w with tickers := before ++ ⟨timer, true⟩ :: after }
  | ticked (before : List Ticker) {after : List Ticker} (timer : Timer)
    (there : w.tickers = before ++ ⟨timer, true⟩ :: after) :
    Step w (.ticked ⟨w.now, timer.ns, (w.queue.enqueue (.sweep timer.ns)).1⟩) { w with
      tickers := before ++ ⟨timer.next, false⟩ :: after
      queue := (w.queue.enqueue (.sweep timer.ns)).2 }
  | beside {event : Queue.Event Rebuild} {q : Queue Rebuild} (step : w.queue.Step event q) :
    Step w (.beside event) { w with queue := q }
  | abandoned : Step w .abandoned { w with queue := w.queue.abandon }
  | told : Step w .told { w with told := true }
  | ended (before : List Ticker) {after : List Ticker} (timer : Timer)
    (there : w.tickers = before ++ ⟨timer, false⟩ :: after) (told : w.told = true) :
    Step w .ended { w with tickers := before ++ after }

inductive Run (w : Clockwork) : List Act → Clockwork → Prop
  | nil : Run w [] w
  | snoc {acts : List Act} {act : Act} {v v' : Clockwork} (before : Run w acts v)
    (step : Step v act v') : Run w (acts ++ [act]) v'

def ticks (acts : List Act) : List Tick := acts.filterMap Act.tick?

def upTo (instant : Nat) (acts : List Act) : List (Nat × Namespace) :=
  ((ticks acts).filter (·.instant ≤ instant)).map fun tick => (tick.instant, tick.ns)

def sweeps (ns : Namespace) (instant : Nat) (acts : List Act) : Nat :=
  (ticks acts).countP fun tick => tick.taken ∧ tick.ns = ns ∧ tick.instant ≤ instant

def swept (acts : List Act) : List (Nat × Rebuild) :=
  ((ticks acts).filter (·.taken)).map fun tick => (tick.instant, .sweep tick.ns)

def Served (instant : Nat) (w : Clockwork) : Prop :=
  ∀ ticker ∈ w.tickers, instant < ticker.timer.due

instance (instant : Nat) (w : Clockwork) : Decidable (w.Served instant) :=
  inferInstanceAs (Decidable (∀ ticker ∈ w.tickers, instant < ticker.timer.due))

variable {table : Timetable} {w w' : Clockwork} {acts : List Act} {act : Act}
  {start gone : List Timer} {instant : Nat}

theorem ticks_snoc (acts : List Act) (act : Act) :
    ticks (acts ++ [act]) = ticks acts ++ act.tick?.toList :=
  Queue.filterMap_snoc _ _ _

theorem ticks_snoc_of_silent (silent : act.tick? = none) : ticks (acts ++ [act]) = ticks acts := by
  rw [ticks_snoc, silent, Option.toList_none, List.append_nil]

theorem upTo_snoc_of_silent (silent : act.tick? = none) :
    upTo instant (acts ++ [act]) = upTo instant acts := by
  rw [upTo, ticks_snoc_of_silent silent, upTo]

theorem upTo_snoc_ticked (tick : Tick) : upTo instant (acts ++ [.ticked tick]) =
    upTo instant acts ++ if tick.instant ≤ instant then [(tick.instant, tick.ns)] else [] := by
  rw [upTo, ticks_snoc, upTo, List.filter_append, List.map_append]
  congr 1
  by_cases early : tick.instant ≤ instant <;> simp [Act.tick?, early]

theorem swept_snoc_of_silent (silent : act.tick? = none) :
    swept (acts ++ [act]) = swept acts := by
  rw [swept, ticks_snoc_of_silent silent, swept]

theorem swept_snoc_ticked (tick : Tick) : swept (acts ++ [.ticked tick]) =
    swept acts ++ if tick.taken then [(tick.instant, .sweep tick.ns)] else [] := by
  rw [swept, ticks_snoc, swept, List.filter_append, List.map_append]
  cases taken : tick.taken <;> simp [Act.tick?, taken]

theorem perm_snoc_of_middle {α : Type} (been before rest after gone : List α) (x : α) :
    (been ++ [x] ++ (before ++ (rest ++ after) ++ gone)).Perm
      (been ++ (before ++ (x :: rest ++ after) ++ gone)) := by
  simp only [List.append_assoc, List.cons_append, List.nil_append]
  exact List.perm_middle.symm.append_left _

/-- No timer is late, and up to any instant the ticks that have been and those that are to come are
the ticks that were to come at first. Those that are `gone` have ended. -/
structure Balance (start : List Timer) (acts : List Act) (w : Clockwork) (gone : List Timer) :
    Prop where
  ahead : ∀ ticker ∈ w.tickers, w.now ≤ ticker.timer.due
  offering : ∀ ticker ∈ w.tickers, ticker.offering = true → ticker.timer.due ≤ w.now
  cadences : ((w.timers ++ gone).map Timer.cadence).Perm (start.map Timer.cadence)
  ticks : ∀ instant, (upTo instant acts ++ (w.timers ++ gone).flatMap (Timer.coming instant)).Perm
    (start.flatMap (Timer.coming instant))
  gone : w.told = false → gone = []

theorem Balance.of_silent (balance : Balance start acts w gone) (silent : act.tick? = none)
    (ahead : ∀ ticker ∈ w'.tickers, w'.now ≤ ticker.timer.due)
    (offering : ∀ ticker ∈ w'.tickers, ticker.offering = true → ticker.timer.due ≤ w'.now)
    {gone' : List Timer} (timers : (w'.timers ++ gone').Perm (w.timers ++ gone))
    (ended : w'.told = false → gone' = []) : Balance start (acts ++ [act]) w' gone' := by
  refine ⟨ahead, offering, (timers.map _).trans balance.cadences, fun instant => ?_, ended⟩
  rw [upTo_snoc_of_silent silent]
  exact ((timers.flatMap_right _).append_left _).trans (balance.ticks instant)

theorem Balance.of_same (balance : Balance start acts w gone) (silent : act.tick? = none)
    (now : w'.now = w.now) (tickers : w'.tickers = w.tickers)
    (told : w'.told = false → w.told = false) : Balance start (acts ++ [act]) w' gone := by
  refine balance.of_silent silent ?_ ?_ ?_ fun going => balance.gone (told going)
  · rw [now, tickers]
    exact balance.ahead
  · rw [now, tickers]
    exact balance.offering
  · rw [timers, tickers, timers]

theorem Balance.runs (balance : Balance start acts w gone)
    (run : ∀ timer ∈ start, 0 < timer.every.toNanos) {timer : Timer} (there : timer ∈ w.timers) :
    0 < timer.every.toNanos := by
  have known : timer.cadence ∈ start.map Timer.cadence :=
    balance.cadences.subset (List.mem_map_of_mem (List.mem_append_left _ there))
  obtain ⟨first, isFirst, same⟩ := List.mem_map.mp known
  have every : first.every = timer.every := congrArg Cadence.every same
  exact every ▸ run first isFirst

theorem Balance.step (balance : Balance start acts w gone)
    (run : ∀ timer ∈ start, 0 < timer.every.toNanos) (step : Step w act w') :
    ∃ gone', Balance start (acts ++ [act]) w' gone' := by
  have ⟨ahead, offering, cadences, ticks, ended⟩ := balance
  cases step with
  | waited instant later onTime =>
    refine ⟨gone, balance.of_silent rfl onTime (fun ticker there offers => ?_) .rfl ended⟩
    exact Nat.le_trans (offering ticker there offers) later
  | rang before timer there due going =>
    simp only [there, List.forall_mem_append, List.forall_mem_cons] at ahead offering
    refine ⟨gone, balance.of_silent rfl ?_ ?_ ?_ ended⟩
    · simpa only [List.forall_mem_append, List.forall_mem_cons] using ahead
    · simp only [List.forall_mem_append, List.forall_mem_cons]
      exact ⟨offering.1, fun _ => due, offering.2.2⟩
    · simp [timers, there]
  | ticked before timer there =>
    have runs : 0 < timer.every.toNanos := balance.runs run (by simp [timers, there])
    simp only [there, List.forall_mem_append, List.forall_mem_cons] at ahead offering
    obtain ⟨aheadBefore, onTime, aheadAfter⟩ := ahead
    have now : timer.due = w.now := Nat.le_antisymm (offering.2.1 trivial) onTime
    refine ⟨gone, ?_, ?_, ?_, fun instant => ?_, ended⟩
    · simp only [List.forall_mem_append, List.forall_mem_cons]
      exact ⟨aheadBefore, Nat.le_trans onTime timer.due_le_next, aheadAfter⟩
    · simp only [List.forall_mem_append, List.forall_mem_cons]
      exact ⟨offering.1, nofun, offering.2.2⟩
    · refine .trans (.of_eq ?_) cadences
      simp only [timers, there, List.map_append, List.map_cons, Timer.cadence_next]
    · have balanced := ticks instant
      simp only [timers, there, List.map_append, List.map_cons, List.flatMap_append,
        List.flatMap_cons] at balanced ⊢
      rw [upTo_snoc_ticked, ← now]
      -- the tick was the next one to come, or the instant is before it and before the one after
      by_cases due : timer.due ≤ instant
      · rw [Timer.coming_of_due runs due] at balanced
        rw [if_pos due]
        exact (perm_snoc_of_middle ..).trans balanced
      · have later := Nat.not_le.mp due
        rw [Timer.coming_of_later later] at balanced
        rw [if_neg due, Timer.coming_of_later (Nat.lt_of_lt_of_le later timer.due_le_next),
          List.append_nil]
        exact balanced
  | beside | abandoned => exact ⟨gone, balance.of_same rfl rfl rfl id⟩
  | told => exact ⟨gone, balance.of_same rfl rfl rfl nofun⟩
  | ended before timer there told =>
    simp only [there, List.forall_mem_append, List.forall_mem_cons] at ahead offering
    refine ⟨timer :: gone, balance.of_silent rfl ?_ ?_ ?_ (by simp [told])⟩
    · exact List.forall_mem_append.mpr ⟨ahead.1, ahead.2.2⟩
    · exact List.forall_mem_append.mpr ⟨offering.1, offering.2.2⟩
    · simp only [timers, there, List.map_append, List.map_cons, List.append_assoc,
        List.cons_append]
      exact List.perm_middle.append_left _

theorem timers_start (table : Timetable) (queue : Queue Rebuild) :
    (Clockwork.start table queue).timers = table.timers := by
  simp [Clockwork.start, timers, Function.comp_def]

theorem Run.balance {queue : Queue Rebuild} (run : Run (Clockwork.start table queue) acts w) :
    ∃ gone, Balance table.timers acts w gone := by
  induction run with
  | nil =>
    refine ⟨[], fun _ _ => Nat.zero_le _, fun ticker there offers => ?_, ?_, fun instant => ?_,
      fun _ => rfl⟩
    · obtain ⟨timer, -, rfl⟩ := List.mem_map.mp there
      cases offers
    · rw [timers_start, List.append_nil]
    · rw [timers_start, List.append_nil]
      exact .refl _
  | snoc before step ih =>
    obtain ⟨gone, balance⟩ := ih
    exact balance.step Timetable.runs_of_timers step

theorem Run.runs {queue : Queue Rebuild} (run : Run (Clockwork.start table queue) acts w) :
    ∀ timer ∈ w.timers, 0 < timer.every.toNanos := by
  obtain ⟨gone, balance⟩ := run.balance
  exact fun timer there => balance.runs Timetable.runs_of_timers there

theorem Run.onQueue (run : Run w acts w') (kept : .abandoned ∉ acts) :
    w.queue.Run (acts.filterMap Act.onQueue?) w'.queue := by
  induction run with
  | nil => exact .nil
  | @snoc acts act v v' before step ih =>
    have before := ih fun there => kept (List.mem_append_left _ there)
    rw [Queue.filterMap_snoc]
    cases step with
    | ticked => exact before.snoc (.offered _ _)
    | beside step => exact before.snoc step
    | abandoned => exact absurd (List.mem_append_right _ List.mem_cons_self) kept
    | _ => simpa [Act.onQueue?] using before

theorem Step.of_closed (step : Step w act w') (closed : w.queue.isOpen = false) :
    w'.queue.isOpen = false ∧ w'.queue.enqueued = w.queue.enqueued ∧
      ∀ tick, act.tick? = some tick → tick.taken = false := by
  cases step with
  | ticked _ timer =>
    have refused : w.queue.enqueue (.sweep timer.ns) = (false, w.queue) := by
      simp [Queue.enqueue, closed]
    rw [refused]
    refine ⟨closed, rfl, fun tick shown => ?_⟩
    cases shown
    rfl
  | beside step =>
    obtain ⟨shut, same⟩ := step.of_closed closed
    exact ⟨shut, same, fun _ shown => by cases shown⟩
  | abandoned => exact ⟨rfl, rfl, fun _ shown => by cases shown⟩
  | _ => exact ⟨closed, rfl, fun _ shown => by cases shown⟩

theorem Run.of_closed (run : Run w acts w') (closed : w.queue.isOpen = false) :
    w'.queue.isOpen = false ∧ w'.queue.enqueued = w.queue.enqueued ∧
      ∀ tick ∈ ticks acts, tick.taken = false := by
  induction run with
  | nil => exact ⟨closed, rfl, nofun⟩
  | snoc before step ih =>
    obtain ⟨shut, same, refused⟩ := ih
    obtain ⟨shut', same', refused'⟩ := step.of_closed shut
    refine ⟨shut', same'.trans same, fun tick there => ?_⟩
    rw [ticks_snoc] at there
    rcases List.mem_append.mp there with earlier | here
    · exact refused tick earlier
    · exact refused' tick (Option.mem_toList.mp here)

theorem Run.of_open (run : Run w acts w') (opened : w'.queue.isOpen = true) :
    ∀ tick ∈ ticks acts, tick.taken = true := by
  induction run with
  | nil => exact nofun
  | @snoc acts act v v' before step ih =>
    have before : v.queue.isOpen = true := by
      by_contra closed
      have shut := (step.of_closed (Bool.not_eq_true _ ▸ closed)).1
      cases shut.symm.trans opened
    intro tick there
    rw [ticks_snoc] at there
    rcases List.mem_append.mp there with earlier | here
    · exact ih before tick earlier
    · cases step with
      | ticked =>
        cases List.mem_singleton.mp here
        simp [Queue.enqueue, before]
      | _ => cases here

theorem Step.of_told (step : Step w act w') (told : w.told = true) :
    w'.told = true ∧ w'.tickers.length ≤ w.tickers.length ∧
      act.tick?.toList.length + w'.tickers.countP (·.offering) ≤
        w.tickers.countP (·.offering) := by
  cases step with
  | rang _ _ _ _ going => cases going.symm.trans told
  | ticked _ _ there | ended _ _ there =>
    simp only [there, List.length_append, List.length_cons, List.countP_append, List.countP_cons]
    refine ⟨told, ?_, ?_⟩ <;> simp [Act.tick?] <;> omega
  | waited | beside | abandoned | told => simp [Act.tick?, told]

theorem Run.of_told (run : Run w acts w') (told : w.told = true) :
    w'.told = true ∧ w'.tickers.length ≤ w.tickers.length ∧
      (ticks acts).length + w'.tickers.countP (·.offering) ≤ w.tickers.countP (·.offering) := by
  induction run with
  | nil => exact ⟨told, Nat.le_refl _, by simp [ticks]⟩
  | snoc before step ih =>
    obtain ⟨told, fewer, few⟩ := ih
    obtain ⟨told', fewer', few'⟩ := step.of_told told
    refine ⟨told', Nat.le_trans fewer' fewer, ?_⟩
    rw [ticks_snoc, List.length_append]
    omega

theorem Run.end_all {v : Clockwork} (run : Run v acts w) (told : w.told = true)
    (resting : ∀ ticker ∈ w.tickers, ticker.offering = false) :
    ∃ acts', Run v acts' { w with tickers := [] } ∧ ticks acts' = ticks acts := by
  induction waiting : w.tickers generalizing acts w with
  | nil =>
    have none : { w with tickers := [] } = w := by rw [← waiting]
    exact ⟨acts, none ▸ run, rfl⟩
  | cons ticker rest ih =>
    rw [waiting] at resting
    obtain ⟨rests, others⟩ := List.forall_mem_cons.mp resting
    rcases ticker with ⟨timer, offering⟩
    obtain rfl : offering = false := rests
    have ended := run.snoc (.ended [] timer waiting told)
    obtain ⟨acts', all, same⟩ := ih ended told others rfl
    exact ⟨acts', all, same.trans (ticks_snoc_of_silent rfl)⟩

end Clockwork

end CacheAside
