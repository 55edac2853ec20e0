import CacheAside.Proofs.Timers.Clockwork
import Mathlib.Data.List.Basic
import Mathlib.Tactic.Ring

namespace CacheAside

namespace Timetable

def first (table : Timetable) : Nat := if table.tickAtStart then 0 else 1

/-- The ticks up to an instant, at the multiples of each interval, each with what it sweeps. -/
def schedule (instant : Nat) (table : Timetable) : List (Nat × Namespace) :=
  (table.cadences.filter (·.every ≠ .zero)).flatMap fun c =>
    (List.range' table.first (instant / c.every.toMillis + 1 - table.first)).map
      (· * c.every.toMillis, c.ns)

def dueSweeps (ns : Namespace) (instant : Nat) (table : Timetable) : Nat :=
  ((table.cadences.filter fun c => c.ns = ns ∧ c.every ≠ .zero).map fun c =>
    instant / c.every.toMillis + if table.tickAtStart then 1 else 0).sum

end Timetable

variable {table : Timetable} {instant : Nat}

namespace Span

theorem toNanos_of_whole {span : Span} (whole : 1_000_000 ∣ span.toNanos) :
    span.toNanos = 1_000_000 * span.toMillis :=
  (Nat.mul_div_cancel' whole).symm

end Span

namespace Timer

variable {timer : Timer} {millis first : Nat}

theorem left_of_whole (whole : timer.every.toNanos = 1_000_000 * millis) (runs : 0 < millis)
    (begins : timer.deadline = first * timer.every.toNanos) :
    timer.left instant = instant / millis + 1 - first := by
  have scaled : first * (1_000_000 * millis) = first * millis * 1_000_000 := by ring
  have quotient : instant * 1_000_000 / (1_000_000 * millis) = instant / millis := by
    rw [Nat.mul_comm instant, Nat.mul_div_mul_left _ _ (by decide)]
  rw [left, begins, whole]
  split
  · rename_i early
    have among : first ≤ instant / millis := by
      rw [Nat.le_div_iff_mul_le runs]
      omega
    rw [Nat.mul_comm first, Nat.sub_mul_div, quotient]
    omega
  · rename_i later
    have beyond : instant / millis < first := by
      rw [Nat.div_lt_iff_lt_mul runs]
      omega
    omega

theorem due_after_of_whole (whole : timer.every.toNanos = 1_000_000 * millis)
    (begins : timer.deadline = first * timer.every.toNanos) (count : Nat) :
    (timer.after count).due = (first + count) * millis := by
  have scaled : first * (1_000_000 * millis) + count * (1_000_000 * millis) =
      1_000_000 * ((first + count) * millis) := by ring
  rw [due, after, begins, whole, scaled]
  dsimp only
  omega

theorem coming_of_whole (whole : timer.every.toNanos = 1_000_000 * millis) (runs : 0 < millis)
    (begins : timer.deadline = first * timer.every.toNanos) :
    timer.coming instant =
      (List.range' first (instant / millis + 1 - first)).map (· * millis, timer.ns) := by
  rw [coming, left_of_whole whole runs begins, List.range'_eq_map_range, List.map_map]
  refine List.map_congr_left fun count _ => ?_
  rw [due_after_of_whole whole begins]
  rfl

end Timer

namespace Timetable

theorem coming_timers (whole : ∀ c ∈ table.cadences, 1_000_000 ∣ c.every.toNanos) :
    table.timers.flatMap (Timer.coming instant) = table.schedule instant := by
  rw [timers, List.flatMap_map, schedule]
  refine List.flatMap_congr fun c kept => ?_
  obtain ⟨there, nonzero⟩ := List.mem_filter.mp kept
  have same := Span.toNanos_of_whole (whole c there)
  have positive := Span.toNanos_pos (of_decide_eq_true nonzero)
  refine Timer.coming_of_whole same (by omega) ?_
  unfold first
  split
  · rw [Nat.zero_mul]
  · rw [Nat.one_mul]

theorem countP_schedule (ns : Namespace) :
    (table.schedule instant).countP (·.2 = ns) = table.dueSweeps ns instant := by
  have length (c : Cadence) : instant / c.every.toMillis + 1 - table.first =
      instant / c.every.toMillis + if table.tickAtStart then 1 else 0 := by
    unfold first
    cases table.tickAtStart <;> simp
  unfold schedule dueSweeps
  induction table.cadences with
  | nil => rfl
  | cons c rest ih =>
    by_cases none : c.every = .zero
    · simpa [none] using ih
    · rw [List.filter_cons_of_pos (by simpa using none), List.flatMap_cons, List.countP_append, ih,
        List.countP_map]
      by_cases other : c.ns = ns <;> simp [Function.comp_def, other, none, length]

theorem cadence_timers (table : Timetable) :
    table.timers.map Timer.cadence = table.cadences.filter (·.every ≠ .zero) := by
  rw [timers, List.map_map]
  exact List.map_id _

end Timetable

namespace Clockwork

variable {queue : Queue Rebuild} {acts : List Act} {w : Clockwork}

theorem Run.upTo_subperm (run : Run (start table queue) acts w)
    (whole : ∀ c ∈ table.cadences, 1_000_000 ∣ c.every.toNanos) (instant : Nat) :
    (upTo instant acts).Subperm (table.schedule instant) := by
  obtain ⟨gone, balance⟩ := run.balance
  rw [← Timetable.coming_timers whole]
  exact (List.sublist_append_left ..).subperm.trans (balance.ticks instant).subperm

theorem Run.upTo_perm (run : Run (start table queue) acts w)
    (whole : ∀ c ∈ table.cadences, 1_000_000 ∣ c.every.toNanos) (going : w.told = false)
    (served : w.Served instant) : (upTo instant acts).Perm (table.schedule instant) := by
  obtain ⟨gone, balance⟩ := run.balance
  have silent : w.timers.flatMap (Timer.coming instant) = [] := by
    refine List.flatMap_eq_nil_iff.mpr fun timer there => ?_
    obtain ⟨ticker, member, rfl⟩ := List.mem_map.mp there
    exact Timer.coming_of_later (served ticker member)
  have all := balance.ticks instant
  rw [balance.gone going, List.append_nil, silent, List.append_nil] at all
  rwa [Timetable.coming_timers whole] at all

theorem Run.cadences (run : Run (start table queue) acts w) (going : w.told = false) :
    (w.timers.map Timer.cadence).Perm (table.cadences.filter (·.every ≠ .zero)) := by
  obtain ⟨gone, balance⟩ := run.balance
  have all := balance.cadences
  rwa [balance.gone going, List.append_nil, Timetable.cadence_timers] at all

theorem Run.served (run : Run (start table queue) acts w) (past : instant < w.now) :
    w.Served instant := by
  obtain ⟨gone, balance⟩ := run.balance
  exact fun ticker there => Nat.lt_of_lt_of_le past (balance.ahead ticker there)

theorem sweeps_of_taken (taken : ∀ tick ∈ ticks acts, tick.taken = true) (ns : Namespace) :
    sweeps ns instant acts = (upTo instant acts).countP (·.2 = ns) := by
  rw [sweeps, upTo, List.countP_map, List.countP_filter]
  refine List.countP_congr fun tick there => ?_
  simp [taken tick there]

end Clockwork

end CacheAside
