import CacheAside.Proofs.Queue.Crew
import Mathlib.Data.List.DropRight

namespace CacheAside

namespace Queue

variable {J : Type}

def Event.ending? (number : Nat) : Event J → Option Ending
  | ended _ t ending => if t.number = number then some ending else none
  | _ => none

def endings (number : Nat) (events : List (Event J)) : List Ending :=
  events.filterMap (Event.ending? number)

def Exhausted (policy : QueuePolicy) (endings : List Ending) : Prop :=
  endings.length = max policy.attempts 1 ∧ .success ∉ endings

def givenUp (policy : QueuePolicy) (events : List (Event J)) : List Nat :=
  ((fates policy events).filter (·.2 = .failed)).map (·.1)

def obituary? (policy : QueuePolicy) (events : List (Event J)) (number : Nat) :
    Option (DeadLetter J) := do
  let job ← (events.filterMap Event.accepted?)[number]?
  let last ← (endings number events).getLast?
  let error ← last.error? policy
  return ⟨job, max policy.attempts 1, error⟩

variable {policy : QueuePolicy} {events : List (Event J)} {event : Event J} {q q' : Queue J}

theorem keep_rtake (limit : Nat) (letters : List (DeadLetter J)) (letter : DeadLetter J) :
    keep limit (letters.rtake limit) letter = (letters ++ [letter]).rtake limit := by
  by_cases none : limit = 0
  · simp [keep, none, List.rtake]
  · have long : (letters.rtake limit).length = min limit letters.length := by
      rw [List.rtake, List.length_drop]
      omega
    rw [keep, if_neg none, long]
    simp only [List.rtake, List.length_append, List.length_singleton]
    split
    · rw [List.drop_drop, List.drop_append_of_le_length (by omega)]
      congr 2
      omega
    · rw [show letters.length + 1 - limit = 0 by omega, show letters.length - limit = 0 by omega]
      rfl

theorem map_rtake {α β : Type} (f : α → β) (n : Nat) (as : List α) :
    (as.rtake n).map f = (as.map f).rtake n := by
  rw [List.rtake, List.rtake, List.map_drop, List.length_map]

def Event.letter? (policy : QueuePolicy) : Event J → Option (Nat × DeadLetter J)
  | ended _ t ending =>
    if verdict policy t ending = .failed then
      (ending.error? policy).map fun error => (t.number, ⟨t.job, t.attempt, error⟩)
    else none
  | _ => none

def letters (policy : QueuePolicy) (events : List (Event J)) : List (Nat × DeadLetter J) :=
  events.filterMap (Event.letter? policy)

theorem letters_snoc (policy : QueuePolicy) (events : List (Event J)) (event : Event J) :
    letters policy (events ++ [event]) = letters policy events ++ (event.letter? policy).toList :=
  filterMap_snoc _ _ _

theorem window_of_run (run : Run (create policy).start events q) :
    q.deadLetters = ((letters policy events).map (·.2)).rtake policy.deadLetterLimit := by
  induction run with
  | nil => exact (List.rtake_nil _).symm
  | @snoc events event q q' before step ih =>
    have accounts := accounts_of_run before
    cases accounts.effect step with
    | failed _ _ decided error =>
      rw [accounts.samePolicy] at decided error
      rw [letters_snoc, Event.letter?, if_pos decided, error, List.map_append, accounts.samePolicy,
        ih]
      exact keep_rtake ..
    | completed _ _ decided | retried _ _ decided =>
      rw [accounts.samePolicy] at decided
      simpa [letters_snoc, Event.letter?, decided] using ih
    | _ => simpa [letters_snoc, Event.letter?] using ih

theorem map_letter? (policy : QueuePolicy) (event : Event J) :
    (event.letter? policy).toList.map (·.1) =
      ((event.fates policy).filter (·.2 = .failed)).map (·.1) := by
  cases event with
  | ended now t ending =>
    cases decided : verdict policy t ending with
    | completed | retried => simp [Event.letter?, Event.fates, decided]
    | failed =>
      have error : (ending.error? policy).isSome = true := by
        cases ending with
        | success => simp [verdict, Ending.error?] at decided
        | _ => rfl
      obtain ⟨message, error⟩ := Option.isSome_iff_exists.mp error
      simp [Event.letter?, Event.fates, decided, error]
  | returned r sent => cases sent <;> simp [Event.letter?, Event.fates]
  | _ => simp [Event.letter?, Event.fates, List.filter_map, Function.comp_def]

theorem map_letters (policy : QueuePolicy) (events : List (Event J)) :
    (letters policy events).map (·.1) = givenUp policy events := by
  induction events with
  | nil => rfl
  | cons event events ih =>
    have first : letters policy (event :: events) =
        (event.letter? policy).toList ++ letters policy events := by
      cases told : event.letter? policy <;> simp [letters, told]
    rw [first, List.map_append, ih, map_letter?, givenUp, givenUp, fates, fates, List.flatMap_cons,
      List.filter_append, List.map_append]

theorem endings_snoc (number : Nat) (events : List (Event J)) (event : Event J) :
    endings number (events ++ [event]) =
      endings number events ++ (event.ending? number).toList :=
  filterMap_snoc _ _ _

def Fate.Tells (policy : QueuePolicy) (endings : List Ending) : Fate → Prop
  | completed => .success ∈ endings
  | failed => Exhausted policy endings
  | dropped => endings.length < max policy.attempts 1

structure Unsettled (policy : QueuePolicy) (endings : List Ending) (attempt : Nat) : Prop where
  runs : attempt = endings.length + 1
  granted : attempt ≤ max policy.attempts 1
  failed : .success ∉ endings

/-- What has happened to the jobs agrees with where they are. -/
structure Tally (policy : QueuePolicy) (events : List (Event J)) (q : Queue J) : Prop where
  underway : ∀ t ∈ q.tickets, Unsettled policy (endings t.number events) t.attempt
  settled : ∀ number fate, (number, fate) ∈ fates policy events →
    fate.Tells policy (endings number events)
  unborn : ∀ number, q.enqueued ≤ number → endings number events = []

theorem numbers_eq (q : Queue J) : q.numbers = q.tickets.map (·.number) := by
  simp [numbers, tickets, Function.comp_def]

theorem Accounts.lt_of_ticket (accounts : Accounts policy events q) {t : Ticket J}
    (there : t ∈ q.tickets) : t.number < q.enqueued := by
  refine List.mem_range.mp (accounts.places.subset (List.mem_append_left _ ?_))
  exact numbers_eq q ▸ List.mem_map_of_mem there

theorem Accounts.ne_of_fate (accounts : Accounts policy events q) {t : Ticket J}
    (there : t ∈ q.tickets) {number : Nat} {fate : Fate}
    (settled : (number, fate) ∈ fates policy events) : number ≠ t.number := by
  refine ((List.nodup_append.mp accounts.nodup_places).2.2 _ ?_ _ ?_).symm
  · exact numbers_eq q ▸ List.mem_map_of_mem there
  · exact List.mem_map_of_mem settled

theorem Accounts.ne_of_ticket (accounts : Accounts policy events q) {t : Ticket J}
    (running : t ∈ q.running) :
    ∀ u ∈ tickets { q with running := q.others t }, u ∈ q.tickets ∧ u.number ≠ t.number := by
  intro u there
  have distinct := (accounts.numbers_running running).nodup_iff.mpr accounts.distinct
  refine ⟨?_, (List.nodup_append.mp distinct).2.2 _ ?_ _ List.mem_cons_self⟩
  · refine mem_tickets.mpr ((mem_tickets.mp there).imp_right (Or.imp_left ?_))
    exact List.mem_of_mem_filter
  · exact numbers_eq _ ▸ List.mem_map_of_mem there

theorem Unsettled.dropped {endings : List Ending} {attempt : Nat}
    (unsettled : Unsettled policy endings attempt) : Fate.Tells policy endings .dropped := by
  obtain ⟨runs, granted, -⟩ := unsettled
  rw [runs] at granted
  exact granted

theorem Tally.beside (tally : Tally policy events q)
    (silent : ∀ number, event.ending? number = none)
    (underway : ∀ t ∈ q'.tickets, t ∈ q.tickets ∨
      Unsettled policy (endings t.number events) t.attempt)
    (settled : ∀ number fate, (number, fate) ∈ event.fates policy →
      fate.Tells policy (endings number events))
    (enqueued : q.enqueued ≤ q'.enqueued) : Tally policy (events ++ [event]) q' := by
  have same : ∀ number, endings number (events ++ [event]) = endings number events := by
    intro number
    rw [endings_snoc, silent, Option.toList_none, List.append_nil]
  refine ⟨fun t there => ?_, fun number fate there => ?_, fun number later => ?_⟩
  · rw [same]
    exact (underway t there).elim (tally.underway t) id
  · rw [same]
    rw [fates_snoc] at there
    exact (List.mem_append.mp there).elim (tally.settled number fate) (settled number fate)
  · rw [same]
    exact tally.unborn number (Nat.le_trans enqueued later)

theorem Tally.ended (tally : Tally policy events q) (accounts : Accounts policy events q)
    {t : Ticket J} (running : t ∈ q.running) {now : Nat} {ending : Ending}
    (underway : ∀ u ∈ q'.tickets, u ∈ tickets { q with running := q.others t } ∨
      u.number = t.number ∧
        Unsettled policy (endings t.number events ++ [ending]) u.attempt)
    (settled : ∀ number fate, (number, fate) ∈ Event.fates policy (.ended now t ending) →
      number = t.number ∧ fate.Tells policy (endings t.number events ++ [ending]))
    (enqueued : q'.enqueued = q.enqueued) :
    Tally policy (events ++ [.ended now t ending]) q' := by
  have there : t ∈ q.tickets := mem_tickets_of_running running
  have own : endings t.number (events ++ [.ended now t ending]) =
      endings t.number events ++ [ending] := by
    rw [endings_snoc, Event.ending?, if_pos rfl, Option.toList_some]
  have other : ∀ number, number ≠ t.number →
      endings number (events ++ [.ended now t ending]) = endings number events := by
    intro number differs
    rw [endings_snoc, Event.ending?, if_neg differs.symm, Option.toList_none, List.append_nil]
  refine ⟨fun u kept => ?_, fun number fate told => ?_, fun number later => ?_⟩
  · rcases underway u kept with stays | ⟨same, again⟩
    · obtain ⟨before, differs⟩ := accounts.ne_of_ticket running u stays
      rw [other _ differs]
      exact tally.underway u before
    · rw [same, own]
      exact again
  · rw [fates_snoc] at told
    rcases List.mem_append.mp told with before | here
    · rw [other _ (accounts.ne_of_fate there before)]
      exact tally.settled number fate before
    · obtain ⟨rfl, tells⟩ := settled number fate here
      rw [own]
      exact tells
  · have born := accounts.lt_of_ticket there
    rw [enqueued] at later
    rw [other _ (by omega)]
    exact tally.unborn number later

theorem Tally.step (tally : Tally policy events q) (accounts : Accounts policy events q)
    (effect : Effect q event q') : Tally policy (events ++ [event]) q' := by
  obtain rfl := accounts.samePolicy
  cases effect with
  | accepted job =>
    refine tally.beside (fun _ => rfl) (fun t there => ?_) (fun _ _ told => by cases told)
      (Nat.le_succ _)
    rcases mem_tickets.mp there with queued | elsewhere
    · rcases List.mem_append.mp queued with before | new
      · exact .inl (mem_tickets.mpr (.inl before))
      · rw [List.mem_singleton.mp new, tally.unborn _ (Nat.le_refl _)]
        exact .inr ⟨rfl, Nat.le_max_right _ _, List.not_mem_nil⟩
    · exact .inl (mem_tickets.mpr (.inr elsewhere))
  | refused | stopped =>
    exact tally.beside (fun _ => rfl) (fun _ => .inl) (fun _ _ told => by cases told)
      (Nat.le_refl _)
  | taken _ _ next =>
    refine tally.beside (fun _ => rfl) (fun t there => .inl ?_) (fun _ _ told => by cases told)
      (Nat.le_refl _)
    simp only [mem_tickets, next, List.mem_append, List.mem_cons, List.not_mem_nil,
      or_false] at there ⊢
    grind
  | @completed t ending running now decided =>
    refine tally.ended accounts running (fun _ => .inl) (fun number fate told => ?_) rfl
    obtain rfl := verdict_eq_completed.mp decided
    rw [Event.fates, decided] at told
    cases List.mem_singleton.mp told
    exact ⟨rfl, List.mem_append_right _ List.mem_cons_self⟩
  | @retried t ending running now decided =>
    obtain ⟨runs, -, failed⟩ := tally.underway t (mem_tickets_of_running running)
    obtain ⟨error, left⟩ := verdict_eq_retried.mp decided
    refine tally.ended accounts running (fun u there => ?_) (fun number fate told => ?_) rfl
    · rcases mem_tickets.mp there with queued | kept | ⟨r, waits, rfl⟩
      · exact .inl (mem_tickets.mpr (.inl queued))
      · exact .inl (mem_tickets_of_running kept)
      · rcases List.mem_append.mp waits with before | new
        · exact .inl (mem_tickets.mpr (.inr (.inr ⟨r, before, rfl⟩)))
        · rw [List.mem_singleton.mp new]
          refine .inr ⟨rfl, ?_, Nat.le_trans left (Nat.le_max_left _ _), ?_⟩
          · rw [List.length_append, List.length_singleton, runs]
          · simpa [failed] using error.symm
    · rw [Event.fates, decided] at told
      cases told
  | @failed t ending message running now decided error =>
    obtain ⟨runs, granted, failed⟩ := tally.underway t (mem_tickets_of_running running)
    obtain ⟨error, last⟩ := verdict_eq_failed.mp decided
    refine tally.ended accounts running (fun _ => .inl) (fun number fate told => ?_) rfl
    rw [Event.fates, decided] at told
    cases List.mem_singleton.mp told
    refine ⟨rfl, ?_, ?_⟩
    · rw [List.length_append, List.length_singleton]
      omega
    · simpa [failed] using error.symm
  | sent waits =>
    refine tally.beside (fun _ => rfl) (fun t there => .inl ?_) (fun _ _ told => by cases told)
      (Nat.le_refl _)
    simp only [mem_tickets, List.mem_append, List.mem_singleton] at there ⊢
    grind
  | dropped waits =>
    refine tally.beside (fun _ => rfl) (fun t there => .inl ?_) ?_ (Nat.le_refl _)
    · simp only [mem_tickets] at there ⊢
      grind
    · intro number fate told
      cases List.mem_singleton.mp told
      exact (tally.underway _ (mem_tickets.mpr (.inr (.inr ⟨_, waits, rfl⟩)))).dropped
  | closed =>
    refine tally.beside (fun _ => rfl) (fun t there => .inl ?_) ?_ (Nat.le_refl _)
    · exact mem_tickets.mpr (.inr ((mem_tickets.mp there).resolve_left List.not_mem_nil))
    · intro number fate told
      obtain ⟨t, queued, same⟩ := List.mem_map.mp told
      cases same
      exact (tally.underway t (mem_tickets.mpr (.inl queued))).dropped

theorem tally_of_run (run : Run (create policy).start events q) : Tally policy events q := by
  induction run with
  | nil => exact ⟨nofun, nofun, fun _ _ => rfl⟩
  | snoc before step ih =>
    have accounts := accounts_of_run before
    exact ih.step accounts (accounts.effect step)

theorem mem_givenUp {number : Nat} :
    number ∈ givenUp policy events ↔ (number, .failed) ∈ fates policy events := by
  simp [givenUp]

theorem Tally.exhausted_iff (tally : Tally policy events q) (accounts : Accounts policy events q)
    (number : Nat) :
    number ∈ givenUp policy events ↔ Exhausted policy (endings number events) := by
  rw [mem_givenUp]
  refine ⟨fun failed => tally.settled number .failed failed, ?_⟩
  rintro ⟨all, failed⟩
  have born : number < q.enqueued := by
    by_contra unborn
    rw [tally.unborn number (Nat.le_of_not_lt unborn)] at all
    simp only [List.length_nil] at all
    omega
  -- a job that is on the queue has a run left, and only one that was given up has failed in all
  have somewhere := accounts.places.mem_iff.mpr (List.mem_range.mpr born)
  rcases List.mem_append.mp somewhere with waits | ended
  · rw [numbers_eq] at waits
    obtain ⟨t, there, rfl⟩ := List.mem_map.mp waits
    obtain ⟨runs, granted, -⟩ := tally.underway t there
    omega
  · obtain ⟨⟨_, fate⟩, there, rfl⟩ := List.mem_map.mp ended
    have told := tally.settled _ _ there
    cases fate with
    | completed => exact absurd told failed
    | failed => exact there
    | dropped => exact absurd all (Nat.ne_of_lt told)

theorem nodup_givenUp (accounts : Accounts policy events q) : (givenUp policy events).Nodup :=
  (List.nodup_append.mp accounts.nodup_places).2.1.sublist (List.filter_sublist.map _)

theorem obituary?_eq_some {number : Nat} {letter : DeadLetter J} :
    obituary? policy events number = some letter ↔
      (events.filterMap Event.accepted?)[number]? = some letter.job ∧
      letter.attempts = max policy.attempts 1 ∧
      ∃ last, (endings number events).getLast? = some last ∧
        last.error? policy = some letter.error := by
  rcases letter with ⟨job, attempts, error⟩
  simp only [obituary?, Option.bind_eq_bind, Option.bind_eq_some_iff, Option.pure_def,
    Option.some.injEq, DeadLetter.mk.injEq]
  grind

theorem obituary_of_run (run : Run (create policy).start events q) {number : Nat}
    {letter : DeadLetter J} (there : (number, letter) ∈ letters policy events) :
    obituary? policy events number = some letter := by
  induction run with
  | nil => cases there
  | @snoc events event q q' before step ih =>
    have accounts := accounts_of_run before
    rw [letters_snoc] at there
    rw [obituary?_eq_some, filterMap_snoc, endings_snoc]
    rcases List.mem_append.mp there with earlier | here
    · obtain ⟨job, attempts, last⟩ := obituary?_eq_some.mp (ih earlier)
      have settled : (number, .failed) ∈ fates policy events :=
        mem_givenUp.mp (map_letters policy events ▸ List.mem_map_of_mem earlier)
      -- the job has come to its end, so the step ends no run of it
      have silent : event.ending? number = none := by
        cases accounts.effect step with
        | completed running | retried running | failed running =>
          exact if_neg
            (accounts.ne_of_fate (mem_tickets_of_running running) settled).symm
        | _ => rfl
      rw [List.getElem?_append_left (List.getElem?_eq_some_iff.mp job).1, silent,
        Option.toList_none, List.append_nil]
      exact ⟨job, attempts, last⟩
    · cases accounts.effect step with
      | @failed t ending message running now decided error =>
        rw [accounts.samePolicy] at decided error
        have queued : t ∈ q.tickets := mem_tickets_of_running running
        obtain ⟨runs, granted, -⟩ := (tally_of_run before).underway t queued
        have last := (verdict_eq_failed.mp decided).2
        rw [Event.letter?, if_pos decided, error] at here
        cases List.mem_singleton.mp here
        have known := (known_of_run before).tickets t queued
        refine ⟨?_, ?_, ending, ?_, error⟩
        · rw [List.getElem?_append_left (List.getElem?_eq_some_iff.mp known).1, known]
        · simp only
          omega
        · rw [Event.ending?, if_pos rfl, Option.toList_some, List.getLast?_concat]
      | completed _ _ decided | retried _ _ decided =>
        rw [accounts.samePolicy] at decided
        simp [Event.letter?, decided] at here
      | _ => cases here

/-- Of the jobs that failed for good the queue keeps the latest ones, as many as it may, in the
order in which they failed; each with the number of its runs and how the last of them failed. Those
are the jobs all of whose runs failed, as many as the policy grants; no job that was completed or
dropped is among them. -/
theorem dead_letters_exact (run : Run (create policy).start events q) :
    q.failed = (givenUp policy events).length ∧
    q.deadLetters.map some =
      ((givenUp policy events).rtake policy.deadLetterLimit).map (obituary? policy events) ∧
    q.deadLetters.length = min q.failed policy.deadLetterLimit ∧
    (policy.deadLetterLimit = 0 → q.deadLetters = []) ∧
    (∀ letter ∈ q.deadLetters, letter.attempts = max policy.attempts 1) ∧
    (givenUp policy events).Nodup ∧
    (∀ number, number ∈ givenUp policy events ↔ Exhausted policy (endings number events)) ∧
    ∀ number fate, (number, fate) ∈ fates policy events → fate ≠ .failed →
      number ∉ givenUp policy events := by
  have accounts := accounts_of_run run
  have window := window_of_run run
  have counted : q.failed = (givenUp policy events).length := by
    rw [accounts.failed, givenUp, List.length_map, List.countP_eq_length_filter]
  have length : q.deadLetters.length = min q.failed policy.deadLetterLimit := by
    rw [window, counted, ← map_letters, List.rtake, List.length_drop, List.length_map,
      List.length_map]
    omega
  have told : ∀ pair ∈ letters policy events,
      obituary? policy events pair.1 = some pair.2 := fun _ there => obituary_of_run run there
  have kept : q.deadLetters.map some =
      ((givenUp policy events).rtake policy.deadLetterLimit).map (obituary? policy events) := by
    rw [window, ← map_letters, ← map_rtake, ← map_rtake, List.map_map, List.map_map]
    exact List.map_congr_left fun pair there => (told pair (List.mem_of_mem_drop there)).symm
  refine ⟨counted, kept, length, ?_, ?_, nodup_givenUp accounts,
    (tally_of_run run).exhausted_iff accounts, ?_⟩
  · intro none
    rw [none, Nat.min_zero] at length
    exact List.eq_nil_of_length_eq_zero length
  · intro letter there
    have shown : some letter ∈ q.deadLetters.map some := List.mem_map_of_mem there
    rw [kept] at shown
    obtain ⟨number, -, obituary⟩ := List.mem_map.mp shown
    exact (obituary?_eq_some.mp obituary).2.1
  · intro number fate there other failed
    have distinct := (List.nodup_append.mp accounts.nodup_places).2.1
    have same := List.inj_on_of_nodup_map distinct there (mem_givenUp.mp failed) rfl
    exact other (Prod.mk.inj same).2

def briefly : QueuePolicy :=
  { QueuePolicy.rebuilds with attempts := 2, deadLetterLimit := 1 }

/-- The first job fails twice, the second comes to a good end, and the third drives the first one
out. -/
theorem dead_letters_exact_of_three :
    let twice (number job : Nat) (first second : Ending) : List (Event Nat) :=
      [.offered job true, .taken ⟨number, job, 1⟩, .ended 0 ⟨number, job, 1⟩ first,
        .returned ⟨1000, ⟨number, job, 2⟩⟩ true, .taken ⟨number, job, 2⟩,
        .ended 1000 ⟨number, job, 2⟩ second]
    let events := twice 0 7 .panic .panic ++ twice 1 8 (.failure "z") .success ++
      twice 2 9 .panic .timeout
    ∃ q, Run (create briefly).start events q ∧ givenUp briefly events = [0, 2] ∧
      q.deadLetters.map some = [obituary? briefly events 2] ∧
      q.deadLetters = [⟨9, 2, "job timed out after 600s"⟩] ∧ 1 ∉ givenUp briefly events := by
  intro twice events
  have none : Run (create briefly).start [] (create briefly : Queue Nat).start := .nil
  have first := none.snoc (.offered _ 7)
    |>.snoc (.taken (t := ⟨0, 7, 1⟩) rfl)
    |>.snoc (.ended (t := ⟨0, 7, 1⟩) List.mem_cons_self 0 .panic)
    |>.snoc (.returned (r := ⟨1000, ⟨0, 7, 2⟩⟩) List.mem_cons_self)
    |>.snoc (.taken (t := ⟨0, 7, 2⟩) rfl)
    |>.snoc (.ended (t := ⟨0, 7, 2⟩) List.mem_cons_self 1000 .panic)
  have second := first.snoc (.offered _ 8)
    |>.snoc (.taken (t := ⟨1, 8, 1⟩) rfl)
    |>.snoc (.ended (t := ⟨1, 8, 1⟩) List.mem_cons_self 0 (.failure "z"))
    |>.snoc (.returned (r := ⟨1000, ⟨1, 8, 2⟩⟩) List.mem_cons_self)
    |>.snoc (.taken (t := ⟨1, 8, 2⟩) rfl)
    |>.snoc (.ended (t := ⟨1, 8, 2⟩) List.mem_cons_self 1000 .success)
  have third := second.snoc (.offered _ 9)
    |>.snoc (.taken (t := ⟨2, 9, 1⟩) rfl)
    |>.snoc (.ended (t := ⟨2, 9, 1⟩) List.mem_cons_self 0 .panic)
    |>.snoc (.returned (r := ⟨1000, ⟨2, 9, 2⟩⟩) List.mem_cons_self)
    |>.snoc (.taken (t := ⟨2, 9, 2⟩) rfl)
    |>.snoc (.ended (t := ⟨2, 9, 2⟩) List.mem_cons_self 1000 .timeout)
  obtain ⟨-, kept, -, -, -, -, -, others⟩ := dead_letters_exact third
  refine ⟨_, third, rfl, kept, rfl, others 1 .completed ?_ nofun⟩
  exact List.mem_cons_of_mem _ List.mem_cons_self

end Queue

end CacheAside
