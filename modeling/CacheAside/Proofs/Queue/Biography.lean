import CacheAside.Proofs.Queue.Accounting

namespace CacheAside

namespace Queue

/-- Where a job is. The attempt is the number of the run that it is in or waits for; a run has begun
at some instant, and a pause is over at some instant. -/
inductive Place where
  | channel (attempt : Nat)
  | running (attempt began : Nat)
  | waiting (attempt due : Nat)
  | settled (fate : Fate)
  deriving DecidableEq, Repr

inductive Happening where
  | taken (attempt : Nat)
  | ended (attempt : Nat) (ending : Ending)
  | returned (attempt : Nat)
  | dropped
  deriving DecidableEq, Repr

abbrev Log := List (Nat × Happening)

namespace Log

def starts (log : Log) : List Nat :=
  log.filterMap fun
    | (_, .taken attempt) => some attempt
    | _ => none

def endings (log : Log) : List (Nat × Nat × Ending) :=
  log.filterMap fun
    | (now, .ended attempt ending) => some (now, attempt, ending)
    | _ => none

def comebacks (log : Log) : List (Nat × Nat) :=
  log.filterMap fun
    | (now, .returned attempt) => some (now, attempt)
    | _ => none

/-- When the job is to be put back according to the runs that failed, and for which run. -/
def dues (policy : QueuePolicy) (log : Log) : List (Nat × Nat) :=
  log.endings.filterMap fun (now, attempt, ending) =>
    if ending ≠ .success ∧ attempt < policy.attempts then
      some (now + (policy.pauseAfter attempt).ceilMillis, attempt + 1)
    else none

def outcomes (log : Log) : List Ending := log.endings.map (·.2.2)

theorem starts_append (log log' : Log) : starts (log ++ log') = log.starts ++ log'.starts :=
  List.filterMap_append

theorem endings_append (log log' : Log) : endings (log ++ log') = log.endings ++ log'.endings :=
  List.filterMap_append

theorem comebacks_append (log log' : Log) :
    comebacks (log ++ log') = log.comebacks ++ log'.comebacks :=
  List.filterMap_append

theorem dues_append (policy : QueuePolicy) (log log' : Log) :
    dues policy (log ++ log') = log.dues policy ++ log'.dues policy := by
  simp only [dues, endings_append, List.filterMap_append]

theorem outcomes_append (log log' : Log) :
    outcomes (log ++ log') = log.outcomes ++ log'.outcomes := by
  simp only [outcomes, endings_append, List.map_append]

end Log

/-- A run that began at one instant is not over the time limit at another, and is broken off only
when it has come to it. -/
structure InTime (policy : QueuePolicy) (began now : Nat) (ending : Ending) : Prop where
  after : began ≤ now
  before : now ≤ began + policy.timeLimit.ceilMillis
  timeout : ending = .timeout → now = began + policy.timeLimit.ceilMillis

/-- What may happen to a job at an instant, with the place that it leaves and the one that it comes
to. -/
inductive Moves (policy : QueuePolicy) (now : Nat) : Place → Happening → Place → Prop
  | taken (attempt : Nat) : Moves policy now (.channel attempt) (.taken attempt)
    (.running attempt now)
  | completed {attempt began : Nat} (inTime : InTime policy began now .success) :
    Moves policy now (.running attempt began) (.ended attempt .success) (.settled .completed)
  | retried {attempt began : Nat} {ending : Ending} (inTime : InTime policy began now ending)
    (error : ending ≠ .success) (left : attempt < policy.attempts) :
    Moves policy now (.running attempt began) (.ended attempt ending)
      (.waiting (attempt + 1) (now + (policy.pauseAfter attempt).ceilMillis))
  | failed {attempt began : Nat} {ending : Ending} (inTime : InTime policy began now ending)
    (error : ending ≠ .success) (last : policy.attempts ≤ attempt) :
    Moves policy now (.running attempt began) (.ended attempt ending) (.settled .failed)
  | sent (attempt : Nat) : Moves policy now (.waiting attempt now) (.returned attempt)
    (.channel attempt)
  | unsent (attempt : Nat) : Moves policy now (.waiting attempt now) .dropped (.settled .dropped)
  | dropped (attempt : Nat) : Moves policy now (.channel attempt) .dropped (.settled .dropped)

inductive Leads (policy : QueuePolicy) : Log → Place → Prop
  | accepted : Leads policy [] (.channel 1)
  | goesOn {log : Log} {place place' : Place} {now : Nat} {happening : Happening}
    (before : Leads policy log place) (moves : Moves policy now place happening place') :
    Leads policy (log ++ [(now, happening)]) place'

namespace Place

def current : Place → Option Nat
  | running attempt _ => some attempt
  | _ => none

def pending : Place → Option (Nat × Nat)
  | waiting attempt due => some (due, attempt)
  | _ => none

def Fits (policy : QueuePolicy) (runs : Nat) : Place → Prop
  | channel attempt | waiting attempt _ => attempt = runs + 1 ∧ runs < max policy.attempts 1
  | running attempt _ => attempt = runs ∧ 0 < runs ∧ runs ≤ max policy.attempts 1
  | settled .completed => 0 < runs ∧ runs ≤ max policy.attempts 1
  | settled .failed => runs = max policy.attempts 1
  | settled .dropped => runs < max policy.attempts 1

def Tells (outcomes : List Ending) : Place → Prop
  | settled .completed => ∃ errors, outcomes = errors ++ [.success] ∧ .success ∉ errors
  | _ => .success ∉ outcomes

end Place

/-- What a log says of a job that it has led to a place. -/
structure Biography (policy : QueuePolicy) (log : Log) (place : Place) : Prop where
  begun : ∃ runs, log.starts = List.range' 1 runs ∧ place.Fits policy runs
  ended : log.starts = log.endings.map (·.2.1) ++ place.current.toList
  limits : ∀ now attempt ending, (now, attempt, ending) ∈ log.endings →
    ∃ began, (began, .taken attempt) ∈ log ∧ InTime policy began now ending
  /-- The job comes back when it is due and at no other time. -/
  punctual : log.comebacks <+: log.dues policy
  /-- Only a job that was dropped may be due and never come back. -/
  comesBack : place ≠ .settled .dropped → log.dues policy = log.comebacks ++ place.pending.toList
  completed : place = .settled .completed ↔ log.outcomes.getLast? = some .success
  failed : place = .settled .failed ↔
    log.outcomes.length = max policy.attempts 1 ∧ .success ∉ log.outcomes

variable {policy : QueuePolicy} {log : Log} {place : Place}

theorem Leads.begun (leads : Leads policy log place) :
    ∃ runs, log.starts = List.range' 1 runs ∧ place.Fits policy runs := by
  induction leads with
  | accepted => exact ⟨0, rfl, rfl, by omega⟩
  | @goesOn log place place' now happening _ moves ih =>
    obtain ⟨runs, numbered, fits⟩ := ih
    rw [Log.starts_append, numbered]
    cases moves with
    | taken =>
      obtain ⟨rfl, more⟩ := fits
      refine ⟨runs + 1, ?_, rfl, runs.succ_pos, more⟩
      rw [List.range'_concat, Nat.mul_comm, Nat.mul_one, Nat.add_comm 1 runs]
      rfl
    | completed =>
      obtain ⟨rfl, granted⟩ := fits
      exact ⟨_, List.append_nil _, granted⟩
    | retried _ _ left =>
      obtain ⟨rfl, _⟩ := fits
      exact ⟨_, List.append_nil _, rfl, by omega⟩
    | failed _ _ last =>
      obtain ⟨rfl, first, granted⟩ := fits
      refine ⟨_, List.append_nil _, ?_⟩
      simp only [Place.Fits]
      omega
    | sent => exact ⟨_, List.append_nil _, fits⟩
    | unsent => exact ⟨_, List.append_nil _, fits.2⟩
    | dropped => exact ⟨_, List.append_nil _, fits.2⟩

theorem Leads.ended (leads : Leads policy log place) :
    log.starts = log.endings.map (·.2.1) ++ place.current.toList := by
  induction leads with
  | accepted => rfl
  | goesOn _ moves ih =>
    rw [Log.starts_append, Log.endings_append, List.map_append, ih]
    cases moves <;> simp [Place.current, Log.starts, Log.endings]

theorem Leads.since (leads : Leads policy log place) {attempt began : Nat}
    (running : place = .running attempt began) : (began, .taken attempt) ∈ log := by
  cases leads with
  | accepted => cases running
  | goesOn _ moves =>
    subst running
    cases moves
    exact List.mem_append_right _ List.mem_cons_self

theorem Leads.limits (leads : Leads policy log place) {now attempt : Nat} {ending : Ending}
    (there : (now, attempt, ending) ∈ log.endings) :
    ∃ began, (began, .taken attempt) ∈ log ∧ InTime policy began now ending := by
  induction leads with
  | accepted => cases there
  | goesOn before moves ih =>
    rw [Log.endings_append] at there
    rcases List.mem_append.mp there with earlier | here
    · obtain ⟨began, taken, inTime⟩ := ih earlier
      exact ⟨began, List.mem_append_left _ taken, inTime⟩
    · cases moves with
      | completed inTime | retried inTime | failed inTime =>
        cases List.mem_singleton.mp here
        exact ⟨_, List.mem_append_left _ (before.since rfl), inTime⟩
      | _ => cases here

theorem Leads.comesBack (leads : Leads policy log place) :
    ∃ missed, log.dues policy = log.comebacks ++ missed ∧
      (place ≠ .settled .dropped → missed = place.pending.toList) := by
  induction leads with
  | accepted => exact ⟨[], rfl, fun _ => rfl⟩
  | @goesOn log place place' now happening _ moves ih =>
    obtain ⟨missed, same, known⟩ := ih
    have moving : place ≠ .settled .dropped := by cases moves <;> nofun
    rw [Log.comebacks_append, Log.dues_append, same, known moving]
    cases moves with
    | unsent attempt =>
      refine ⟨[(now, attempt)], ?_, nofun⟩
      simp [Log.comebacks, Log.dues, Log.endings, Place.pending]
    | retried _ error left =>
      refine ⟨_, ?_, fun _ => rfl⟩
      simp [Log.comebacks, Log.dues, Log.endings, Place.pending, error, left]
    | failed _ _ last =>
      refine ⟨[], ?_, fun _ => rfl⟩
      simp [Log.comebacks, Log.dues, Log.endings, Place.pending, last]
    | _ =>
      refine ⟨[], ?_, fun _ => rfl⟩
      simp [Log.comebacks, Log.dues, Log.endings, Place.pending]

theorem Leads.told (leads : Leads policy log place) : place.Tells log.outcomes := by
  induction leads with
  | accepted => exact List.not_mem_nil
  | goesOn _ moves ih =>
    rw [Log.outcomes_append]
    cases moves with
    | completed => exact ⟨_, rfl, ih⟩
    | retried _ error | failed _ error =>
      refine fun there => (List.mem_append.mp there).elim ih fun here => ?_
      exact error (List.mem_singleton.mp here).symm
    | _ => exact fun there => (List.mem_append.mp there).elim ih List.not_mem_nil

theorem Leads.completed (leads : Leads policy log place) :
    place = .settled .completed ↔ log.outcomes.getLast? = some .success := by
  have told := leads.told
  constructor
  · rintro rfl
    obtain ⟨errors, same, _⟩ := told
    rw [same, List.getLast?_concat]
  · intro last
    have there := List.mem_of_getLast? last
    match place, told with
    | .settled .completed, _ => rfl
    | .channel _, absent | .running .., absent | .waiting .., absent | .settled .failed, absent
    | .settled .dropped, absent => exact absurd there absent

theorem Leads.failed (leads : Leads policy log place) : place = .settled .failed ↔
    log.outcomes.length = max policy.attempts 1 ∧ .success ∉ log.outcomes := by
  have told := leads.told
  obtain ⟨runs, numbered, fits⟩ := leads.begun
  have total : runs = log.outcomes.length + place.current.toList.length := by
    have lengths := congrArg List.length (numbered.symm.trans leads.ended)
    simpa [Log.outcomes] using lengths
  constructor
  · rintro rfl
    exact ⟨total.symm.trans fits, told⟩
  · rintro ⟨all, absent⟩
    rw [all] at total
    cases place with
    | channel | waiting =>
      have more := fits.2
      simp [Place.current] at total
      omega
    | running =>
      have granted := fits.2.2
      simp [Place.current] at total
      omega
    | settled fate =>
      cases fate with
      | completed =>
        obtain ⟨errors, same, _⟩ := told
        exact absurd (same ▸ List.mem_append_right _ List.mem_cons_self) absent
      | failed => rfl
      | dropped =>
        simp only [Place.Fits, Place.current, Option.toList, List.length_nil] at fits total
        omega

theorem Leads.biography (leads : Leads policy log place) : Biography policy log place := by
  obtain ⟨missed, same, known⟩ := leads.comesBack
  exact {
    begun := leads.begun
    ended := leads.ended
    limits := fun _ _ _ there => leads.limits there
    punctual := ⟨missed, same.symm⟩
    comesBack := fun moving => known moving ▸ same
    completed := leads.completed
    failed := leads.failed }

end Queue

end CacheAside
