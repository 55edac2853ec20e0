import CacheAside.Proofs.Cache.Patching
import CacheAside.Proofs.Cache.Remainder
import CacheAside.Proofs.Queue.Channel

namespace CacheAside

open Program Cache

def Queue.Event.isCalm {J : Type} : Queue.Event J → Bool
  | .stopped => false
  | .ended _ _ .panic => false
  | .ended _ _ .timeout => false
  | _ => true

/-- The patch queue with its workers, and the world that they work on. -/
structure Workshop where
  crew : Crew Patch (List (String × Program Outcome))
  world : World

namespace Workshop

/-- A step of the queue, or an exchange of a run; nothing else touches the entries. Time may pass
where no entry runs out. -/
inductive Step (outages : Outages) (answers : Answers) (c : Config) (s : Workshop) :
    List (Queue.Event Patch) → Workshop → Prop
  | works {event : Queue.Event Patch} {crew : Crew Patch (List (String × Program Outcome))}
    (works : s.crew.Works (patching c) event crew) (calm : event.isCalm = true) :
    Step outages answers c s [event] ⟨crew, s.world⟩
  | turns {t : Ticket Patch} {x : Exchange} {crew : Crew Patch (List (String × Program Outcome))}
    {world : World} (turns : s.crew.Turns (patching c) t x crew)
    (met : World.Regularly outages answers s.world x world) :
    Step outages answers c s [] ⟨crew, world⟩
  | passes {now : Nat} (unexpiring : Unexpiring c s.world) (later : s.world.now ≤ now) :
    Step outages answers c s [] ⟨s.crew, { s.world with now }⟩

inductive Goes (outages : Outages) (answers : Answers) (c : Config) (s : Workshop) :
    List (Queue.Event Patch) → Workshop → Prop
  | nil : Goes outages answers c s [] s
  | snoc {events more : List (Queue.Event Patch)} {s' s'' : Workshop}
    (before : Goes outages answers c s events s') (step : Step outages answers c s' more s'') :
    Goes outages answers c s (events ++ more) s''

variable {outages : Outages} {answers : Answers} {c : Config} {jobs : List Patch}
  {reports : List Report} {state : Nat → World} {well : Nat → Key → Bool}
  {events more : List (Queue.Event Patch)} {s s' : Workshop} {taken : Nat} {w : World}

/-- Where so many patches have been taken: what is left of the running ones ends as it does in turn,
and whatever no running patch touches is as the patches in turn have left it. -/
structure Abreast (outages : Outages) (answers : Answers) (c : Config) (jobs : List Patch)
    (reports : List Report) (state : Nat → World) (well : Nat → Key → Bool) (taken : Nat)
    (s : Workshop) : Prop where
  orderly : Queue.Orderly taken s.crew.queue
  manned : s.crew.Manned
  left : ∀ duty ∈ s.crew.duties,
    AllLeft outages answers c state well s.world duty.ticket.number duty.ticket.job duty.work
  begun : ∀ t ∈ s.crew.queue.running, t.number < taken
  /-- A running patch shares no entry with one that was taken after it. -/
  apart : ∀ t ∈ s.crew.queue.running, ∀ (n : Nat) (job : Patch), t.number < n → n < taken →
    jobs[n]? = some job → ∀ key ∈ t.job.keys, key ∉ job.keys
  idle : ∀ name, (∀ t ∈ s.crew.queue.running, ∀ key ∈ t.job.keys, name ≠ key.text) →
    Similar c outages name s.world (state taken)
  rest : s.world = { state 0 with entries := s.world.entries }
  completed : s.crew.queue.completed +
    (s.crew.queue.running.countP fun t => t.job.keys.all (well t.number)) =
      (reports.take taken).countP (·.allSucceeded)
  settled : s.crew.queue.completed + s.crew.queue.failed + s.crew.queue.running.length = taken

theorem abreast_start (once : c.patches.attempts = 1) :
    Abreast outages answers c jobs reports state well 0 ⟨.start c.patches, state 0⟩ where
  orderly := Queue.orderly_start once
  manned := rfl
  left := nofun
  begun := nofun
  apart := nofun
  idle _ _ := .of_sameEntry ⟨rfl, rfl⟩
  rest := rfl
  completed := rfl
  settled := rfl

theorem Abreast.ticket (abreast : Abreast outages answers c jobs reports state well taken s)
    {duty : Duty Patch (List (String × Program Outcome))} (there : duty ∈ s.crew.duties) :
    duty.ticket ∈ s.crew.queue.running :=
  abreast.manned ▸ List.mem_map_of_mem there

theorem Abreast.disjoint (abreast : Abreast outages answers c jobs reports state well taken s)
    (known : ∀ t ∈ s.crew.queue.running, jobs[t.number]? = some t.job) {t u : Ticket Patch}
    (first : t ∈ s.crew.queue.running) (second : u ∈ s.crew.queue.running)
    (different : t.number ≠ u.number) {key : Key} (touched : key ∈ t.job.keys) :
    key ∉ u.job.keys := by
  intro also
  have apart := abreast.apart
  rcases Nat.lt_or_gt_of_ne different with earlier | later
  · exact apart t first _ _ earlier (abreast.begun u second) (known u second) key touched also
  · exact apart u second _ _ later (abreast.begun t first) (known t first) key also touched

theorem Abreast.turns (abreast : Abreast outages answers c jobs reports state well taken s)
    (accounts : Queue.Accounts c.patches events s.crew.queue)
    (known : ∀ t ∈ s.crew.queue.running, jobs[t.number]? = some t.job)
    (distinct : ∀ job ∈ jobs, job.owners.Nodup) {t : Ticket Patch} {x : Exchange}
    {crew : Crew Patch (List (String × Program Outcome))}
    (turns : s.crew.Turns (patching c) t x crew)
    (met : World.Regularly outages answers s.world x w) :
    Abreast outages answers c jobs reports state well taken ⟨crew, w⟩ := by
  have manned := turns.manned abreast.manned
  have numbers := Crew.distinct_duties accounts abreast.manned
  cases turns with
  | @turn before after work work' place turn =>
    have mine : ⟨t, work⟩ ∈ s.crew.duties := by simp [place]
    have running : t ∈ s.crew.queue.running := abreast.ticket mine
    have listed : t.job ∈ jobs := List.mem_of_getElem? (known t running)
    have left := abreast.left _ mine
    have keys := Patch.nodup_keys (distinct _ listed)
    obtain ⟨key, touched, within, _⟩ := left.asks keys turn
    rw [place] at numbers
    have others := Crew.number_ne_of_place numbers
    refine ⟨abreast.orderly, manned, ?_, abreast.begun, abreast.apart, ?_, ?_, abreast.completed,
      abreast.settled⟩
    · intro duty there
      have moved : duty = ⟨t, work'⟩ ∨ duty ∈ before ++ after := by
        simpa [or_left_comm] using there
      rcases moved with rfl | other
      · exact left.turns keys turn met
      · have member : duty ∈ s.crew.duties := by
          rw [place]
          simp only [List.mem_append, List.mem_cons] at other ⊢
          exact other.imp_right .inr
        refine (abreast.left duty member).beside fun key' there' => ?_
        refine sameEntry_of_regularly within met fun same => ?_
        refine abreast.disjoint known (abreast.ticket member) running (others duty other) there' ?_
        exact Key.text_injective same ▸ touched
    · intro name apart
      have same := sameEntry_of_regularly within met (apart t running key touched)
      exact .congr same (abreast.idle name apart) ⟨rfl, rfl⟩
    · obtain ⟨time, met⟩ := met
      have entries := regular_entries outages answers time within s.world
      rw [met] at entries
      rw [abreast.rest] at entries
      exact entries

theorem Abreast.asks (abreast : Abreast outages answers c jobs reports state well taken s)
    (known : ∀ t ∈ s.crew.queue.running, jobs[t.number]? = some t.job)
    (distinct : ∀ job ∈ jobs, job.owners.Nodup) {t : Ticket Patch} {x : Exchange}
    {crew : Crew Patch (List (String × Program Outcome))}
    (turns : s.crew.Turns (patching c) t x crew) : ∃ name, Local c name x.request := by
  cases turns with
  | @turn before after work work' place turn =>
    have mine : ⟨t, work⟩ ∈ s.crew.duties := by simp [place]
    have listed : t.job ∈ jobs := List.mem_of_getElem? (known t (abreast.ticket mine))
    obtain ⟨key, _, own⟩ := (abreast.left _ mine).asks (Patch.nodup_keys (distinct _ listed)) turn
    exact ⟨key.text, own⟩

theorem Abreast.beside (abreast : Abreast outages answers c jobs reports state well taken s)
    {event : Queue.Event Patch} {q : Queue Patch}
    (effect : Queue.Effect s.crew.queue event q) (apart : event.concernsRun = false)
    (calm : event.isCalm = true) :
    Abreast outages answers c jobs reports state well taken ⟨⟨q, s.crew.duties⟩, s.world⟩ := by
  have unstopped : event ≠ .stopped := by
    rintro rfl
    cases calm
  have orderly := abreast.orderly.step effect unstopped
  have unpaused := abreast.orderly.unpaused
  have going := abreast.orderly.going
  obtain ⟨_, manned, left, begun, separate, idle, rest, completed, settled⟩ := abreast
  cases effect with
  | accepted | refused =>
    exact ⟨orderly, manned, left, begun, separate, idle, rest, completed, settled⟩
  | taken | completed | retried | failed => cases apart
  | sent waits | dropped waits =>
    rw [unpaused] at waits
    cases waits
  | stopped => cases calm
  | closed stopping =>
    rw [going] at stopping
    cases stopping

theorem Abreast.begins (abreast : Abreast outages answers c jobs reports state well taken s)
    (succession : Succession outages answers c jobs reports state well) {t : Ticket Patch}
    {q : Queue Patch} (effect : Queue.Effect s.crew.queue (.taken t) q)
    (known : jobs[t.number]? = some t.job)
    (fresh : ∀ u ∈ s.crew.queue.running, ∀ key ∈ u.job.keys, key ∉ t.job.keys) :
    Abreast outages answers c jobs reports state well (taken + 1)
      ⟨⟨q, s.crew.duties ++ [⟨t, (patching c).begin t.job⟩]⟩, s.world⟩ := by
  have orderly := abreast.orderly.step effect nofun
  cases effect with
  | taken free going next =>
    obtain rfl : t.number = taken := abreast.orderly.next next
    have ready : ∀ key ∈ t.job.keys, Similar c outages key.text s.world (state t.number) := by
      refine fun key there => abreast.idle _ fun u running key' touched same => ?_
      exact fresh u running key' touched (Key.text_injective same ▸ there)
    obtain ⟨report, reported, verdict⟩ := succession.verdicts _ _ known
    have either : ∀ {u}, u ∈ s.crew.queue.running ++ [t] → u ∈ s.crew.queue.running ∨ u = t :=
      fun there => by simpa using there
    refine ⟨orderly, ?_, ?_, fun u there => ?_, fun u there n job after before listed => ?_,
      fun name untouched => ?_, abreast.rest, ?_, ?_⟩
    · rw [Crew.Manned, List.map_append, abreast.manned]
      rfl
    · intro duty there
      rcases List.mem_append.mp there with running | new
      · exact abreast.left duty running
      · obtain rfl := List.mem_singleton.mp new
        exact allLeft_begin succession known ready
    · rcases either there with running | rfl
      · exact Nat.lt_succ_of_lt (abreast.begun u running)
      · exact Nat.lt_succ_self _
    · rcases either there with running | rfl
      · rcases Nat.lt_succ_iff_lt_or_eq.mp before with earlier | rfl
        · exact abreast.apart u running n job after earlier listed
        · cases known.symm.trans listed
          exact fresh u running
      · omega
    · have others := abreast.idle name fun u running => untouched u (List.mem_append_left _ running)
      have same := succession.others _ _ known name
        (untouched t (List.mem_append_right _ List.mem_cons_self))
      exact .congr ⟨rfl, rfl⟩ others same
    · rw [Queue.countP_snoc, List.take_add_one, reported, Option.toList_some, Queue.countP_snoc,
        verdict, ← abreast.completed, Nat.add_assoc]
    · simp only [List.length_append, List.length_singleton]
      have settled := abreast.settled
      omega

theorem ending_of_verdict (report : Report) :
    Ending.of report.verdict = .success ↔ report.allSucceeded = true := by
  rw [Report.verdict]
  split <;> simp [Ending.of, *]

theorem sameEntry_between (succession : Succession outages answers c jobs reports state well)
    {first last : Nat} {name : String} (order : first ≤ last) (listed : last ≤ jobs.length)
    (untouched : ∀ (n : Nat) (job : Patch), first ≤ n → n < last → jobs[n]? = some job →
      ∀ key ∈ job.keys, name ≠ key.text) : SameEntry name (state last) (state first) := by
  induction last, order using Nat.le_induction with
  | base => exact ⟨rfl, rfl⟩
  | succ n order ih =>
    have there : jobs[n]? = some jobs[n] := List.getElem?_eq_getElem listed
    have same := succession.others n _ there name (untouched n _ order (Nat.lt_succ_self n) there)
    refine same.trans (ih (Nat.le_of_lt listed) fun m job from_first before => ?_)
    exact untouched m job from_first (Nat.lt_succ_of_lt before)

theorem Abreast.idle_after (abreast : Abreast outages answers c jobs reports state well taken s)
    (succession : Succession outages answers c jobs reports state well)
    (accounts : Queue.Accounts c.patches events s.crew.queue) (enough : taken ≤ jobs.length)
    {t : Ticket Patch} (running : t ∈ s.crew.queue.running)
    (similar : ∀ key ∈ t.job.keys, Similar c outages key.text s.world (state (t.number + 1)))
    (name : String)
    (untouched : ∀ u ∈ s.crew.queue.others t, ∀ key ∈ u.job.keys, name ≠ key.text) :
    Similar c outages name s.world (state taken) := by
  by_cases mine : ∃ key ∈ t.job.keys, name = key.text
  · obtain ⟨key, touched, rfl⟩ := mine
    have same : SameEntry key.text (state taken) (state (t.number + 1)) := by
      apply sameEntry_between succession (abreast.begun t running) enough
      intro n job after before listed key' touched' same
      obtain rfl : key = key' := Key.text_injective same
      exact abreast.apart t running n job after before listed key touched touched'
    exact .congr ⟨rfl, rfl⟩ (similar key touched) same
  · refine abreast.idle name fun u there key touched same => ?_
    rcases List.mem_cons.mp ((accounts.perm_running running).subset there) with rfl | other
    · exact mine ⟨key, touched, same⟩
    · exact untouched u other key touched same

theorem Abreast.ends (abreast : Abreast outages answers c jobs reports state well taken s)
    (succession : Succession outages answers c jobs reports state well)
    (accounts : Queue.Accounts c.patches events s.crew.queue)
    (enough : taken ≤ jobs.length) {duty : Duty Patch (List (String × Program Outcome))}
    (there : duty ∈ s.crew.duties) {now : Nat} {ending : Ending} {q : Queue Patch}
    (ended : (patching c).ends duty.work ending)
    (effect : Queue.Effect s.crew.queue (.ended now duty.ticket ending) q) :
    Abreast outages answers c jobs reports state well taken
      ⟨⟨q, s.crew.others duty.ticket⟩, s.world⟩ := by
  have orderly := abreast.orderly.step effect nofun
  have manned := Crew.map_others abreast.manned duty.ticket
  have running := abreast.ticket there
  have moved := accounts.perm_running running
  obtain ⟨results, finished, rfl⟩ := ended
  have own := abreast.left duty there
  rw [finished] at own
  obtain ⟨verdict, similar⟩ := own.ended
  have fewer : ∀ u ∈ s.crew.queue.others duty.ticket, u ∈ s.crew.queue.running :=
    fun u => List.mem_of_mem_filter
  have left : ∀ duty' ∈ s.crew.others duty.ticket, AllLeft outages answers c state well s.world
      duty'.ticket.number duty'.ticket.job duty'.work :=
    fun duty' stays => abreast.left duty' (List.mem_of_mem_filter stays)
  have idle := abreast.idle_after succession accounts enough running similar
  have counted := moved.countP_eq fun t => t.job.keys.all (well t.number)
  have length := moved.length_eq
  have completed := abreast.completed
  have settled := abreast.settled
  rw [List.countP_cons, ← verdict] at counted
  rw [List.length_cons] at length
  have decided := ending_of_verdict ⟨results⟩
  cases effect with
  | completed _ _ success =>
    have succeeded := decided.mp (Queue.verdict_eq_completed.mp success)
    refine ⟨orderly, manned, left, fun u there => abreast.begun u (fewer u there),
      fun u there => abreast.apart u (fewer u there), idle, abreast.rest, ?_, ?_⟩
    · simp only [succeeded, if_true] at counted
      simp only
      omega
    · simp only
      omega
  | failed _ _ failure =>
    have unsuccessful : (Report.mk results).allSucceeded = false :=
      Bool.eq_false_iff.mpr fun succeeded =>
        (Queue.verdict_eq_failed.mp failure).1 (decided.mpr succeeded)
    refine ⟨orderly, manned, left, fun u there => abreast.begun u (fewer u there),
      fun u there => abreast.apart u (fewer u there), idle, abreast.rest, ?_, ?_⟩
    · simp only [unsuccessful, Bool.false_eq_true, if_false] at counted
      simp only
      omega
    · simp only
      omega
  | retried _ _ again =>
    have runs_left := (Queue.verdict_eq_retried.mp again).2
    rw [abreast.orderly.firstRuns _ (.inr running), abreast.orderly.once] at runs_left
    exact absurd runs_left (Nat.lt_irrefl 1)

/-- There is one worker, or no two of these patches touch the same entry. -/
def Separate (policy : QueuePolicy) (jobs : List Patch) : Prop :=
  policy.concurrency ≤ 1 ∨ jobs.Pairwise fun job later => ∀ key ∈ job.keys, key ∉ later.keys

theorem Separate.fresh (separate : Separate c.patches jobs)
    (abreast : Abreast outages answers c jobs reports state well taken s)
    (known : ∀ t ∈ s.crew.queue.running, jobs[t.number]? = some t.job)
    (workers : s.crew.queue.workers = c.patches.workers) {t : Ticket Patch}
    (next : jobs[t.number]? = some t.job) {q : Queue Patch}
    (effect : Queue.Effect s.crew.queue (.taken t) q) :
    ∀ u ∈ s.crew.queue.running, ∀ key ∈ u.job.keys, key ∉ t.job.keys := by
  intro u running
  cases effect with
  | taken free going first =>
    rcases separate with single | apart
    · have idle : s.crew.queue.running.length < 1 := by
        have few : s.crew.queue.running.length < s.crew.queue.workers := by
          simpa [Queue.hasFreeWorker] using free
        rw [workers, QueuePolicy.workers] at few
        omega
      have some_running := List.length_pos_of_mem running
      omega
    · have order : u.number < t.number := by
        rw [abreast.orderly.next first]
        exact abreast.begun u running
      obtain ⟨inside, here⟩ := List.getElem?_eq_some_iff.mp (known u running)
      obtain ⟨inside', there⟩ := List.getElem?_eq_some_iff.mp next
      have disjoint := List.pairwise_iff_getElem.mp apart _ _ inside inside' order
      rwa [here, there] at disjoint

/-- Through a whole course the queue keeps abreast of the patches in turn, whether the clock stands
still or no entry runs out. -/
theorem abreast_of_goes (once : c.patches.attempts = 1)
    (succession : Succession outages answers c jobs reports state well)
    (distinct : ∀ job ∈ jobs, job.owners.Nodup) (separate : Separate c.patches jobs)
    (goes : Goes outages answers c ⟨.start c.patches, state 0⟩ events s)
    (offered : events.filterMap Queue.Event.accepted? <+: jobs) :
    Queue.Run (Queue.create c.patches).start events s.crew.queue ∧
      (s.world.now = (state 0).now ∨ Unexpiring c s.world) ∧
      ∃ taken, Abreast outages answers c jobs reports state well taken
        ⟨s.crew, { s.world with now := (state 0).now }⟩ := by
  induction goes with
  | nil => exact ⟨.nil, .inl rfl, 0, abreast_start once⟩
  | @snoc events more s s' before step ih =>
    rw [List.filterMap_append] at offered
    have earlier := (List.prefix_append _ _).trans offered
    obtain ⟨run, clock, taken, abreast⟩ := ih earlier
    have accounts := Queue.accounts_of_run run
    have accepted := Queue.known_of_run run
    have known : ∀ t ∈ s.crew.queue.tickets, jobs[t.number]? = some t.job := by
      intro t there
      have listed := accepted.tickets t there
      obtain ⟨rest, rfl⟩ := earlier
      rw [List.getElem?_append_left (List.getElem?_eq_some_iff.mp listed).1, listed]
    have running : ∀ t ∈ s.crew.queue.running, jobs[t.number]? = some t.job :=
      fun t there => known t (Queue.mem_tickets_of_running there)
    have enough : taken ≤ jobs.length := by
      have fewer := earlier.length_le
      have counted : taken + s.crew.queue.channel.length = s.crew.queue.enqueued :=
        abreast.orderly.counted
      rw [accepted.enqueued] at fewer
      omega
    cases step with
    | passes unexpiring later =>
      rw [List.append_nil]
      exact ⟨run, .inr unexpiring, taken, abreast⟩
    | @turns t x crew world turns met =>
      obtain ⟨name, own⟩ := abreast.asks running distinct turns
      -- Where no entry runs out, the call goes at the start as it goes now.
      have still : World.Regularly outages answers { s.world with now := (state 0).now } x
          { world with now := (state 0).now } ∧
          (world.now = (state 0).now ∨ Unexpiring c world) := by
        rcases clock with same | unexpiring
        · have stands := now_of_regularly met
          have before : { s.world with now := (state 0).now } = s.world := by rw [← same]
          have after : { world with now := (state 0).now } = world := by rw [← same, ← stands]
          rw [before, after]
          exact ⟨met, .inl (stands.trans same)⟩
        · exact (unexpiring.regularly own met _).imp_right .inr
      rw [List.append_nil]
      exact ⟨turns.queue ▸ run, still.2, taken,
        abreast.turns accounts running distinct turns still.1⟩
    | works works calm =>
      refine ⟨run.snoc works.step, clock, ?_⟩
      cases works with
      | beside step apart => exact ⟨taken, abreast.beside (accounts.effect step) apart calm⟩
      | @begins t q step =>
        have effect := accounts.effect step
        -- No job was put back, so the oldest one in the channel is the next in turn.
        have next : jobs[t.number]? = some t.job := by
          refine known t (Queue.mem_tickets.mpr (.inl ?_))
          cases effect with
          | taken _ _ first => exact first ▸ List.mem_cons_self
        have fresh := separate.fresh abreast running (Queue.workers_of_run run).1 next effect
        exact ⟨taken + 1, abreast.begins succession effect next fresh⟩
      | ends there ended step =>
        rcases ended with ended | rfl | rfl
        · exact ⟨taken, abreast.ends succession accounts enough there ended (accounts.effect step)⟩
        · cases calm
        · cases calm

theorem exists_step (orderly : Queue.Orderly taken s.crew.queue) (manned : s.crew.Manned)
    (accounts : Queue.Accounts c.patches events s.crew.queue)
    (workers : s.crew.queue.workers = c.patches.workers)
    (busy : 0 < s.crew.queue.outstanding) :
    ∃ more s', Step outages answers c s more s' ∧ ∀ event ∈ more, event.concernsRun = true := by
  have here : ∀ event : Queue.Event Patch, event.concernsRun = true →
      ∀ event' ∈ [event], event'.concernsRun = true := by simp
  cases duties : s.crew.duties with
  | cons duty rest =>
    have there : duty ∈ s.crew.duties := duties ▸ List.mem_cons_self
    have running : duty.ticket ∈ s.crew.queue.running := manned ▸ List.mem_map_of_mem there
    rcases ended_or_asks duty.work with ⟨results, same⟩ | ⟨before, name, request, next, after, same⟩
    · let ending := Ending.of (Report.mk results).verdict
      have ends : s.crew.Works (patching c) (.ended 0 duty.ticket ending) _ :=
        .ends there (.inl ⟨results, same, rfl⟩) (.ended running 0 ending)
      have calm : (Queue.Event.ended 0 duty.ticket ending).isCalm = true := by
        simp only [ending]
        cases (Report.mk results).verdict <;> rfl
      exact ⟨_, _, .works ends calm, here _ rfl⟩
    · let reply := (World.regular outages answers "").reply request s.world
      have place : s.crew.duties = [] ++ ⟨duty.ticket, duty.work⟩ :: rest := duties
      rw [same] at place
      have turns : s.crew.Turns (patching c) duty.ticket ⟨request, reply.1⟩ _ :=
        .turn place (.turn (@Turns.turn _ request next reply.1))
      exact ⟨[], _, .turns turns ⟨"", rfl⟩, nofun⟩
  | nil =>
    have resting : s.crew.queue.running = [] := by rw [← manned, duties]; rfl
    have free : s.crew.queue.hasFreeWorker = true := by
      simp only [Queue.hasFreeWorker, resting, workers, QueuePolicy.workers, List.length_nil,
        decide_eq_true_eq]
      omega
    rw [accounts.outstanding, Queue.length_numbers, resting, orderly.unpaused] at busy
    obtain ⟨t, channel, next⟩ := List.exists_cons_of_length_pos busy
    have begins : s.crew.Works (patching c) (.taken t) _ :=
      .begins (.taken (Queue.take?_eq_some.mpr ⟨free, orderly.going, channel, next, rfl⟩))
    exact ⟨_, _, .works begins rfl, here _ rfl⟩

/-- Patches that are queued, with one worker or with no entry in common, leave every entry as they
leave it one after the other, but for its stamp, however the calls of the workers interleave; and
as many are counted as completed as have then a report without a failure, the others as failed. -/
theorem queued_patches_in_turn (once : c.patches.attempts = 1)
    (wellMade : ∀ key value, answers.value? c key = some value → WellMade value)
    (goes : Goes outages answers c ⟨.start c.patches, w⟩ events s)
    (replaced : ∀ job ∈ events.filterMap Queue.Event.accepted?, ∀ value,
      job.edit = .replace value → WellMade value)
    (distinct : ∀ job ∈ events.filterMap Queue.Event.accepted?, job.owners.Nodup)
    (separate : Separate c.patches (events.filterMap Queue.Event.accepted?)) :
    (0 < s.crew.queue.outstanding → ∃ more s', Step outages answers c s more s' ∧
      ∀ event ∈ more, event.concernsRun = true) ∧
    (∃ reports w', Applied outages answers c (events.filterMap Queue.Event.accepted?) w
      reports w') ∧
    ∀ reports w', Applied outages answers c (events.filterMap Queue.Event.accepted?) w reports w' →
      s.crew.queue.outstanding = 0 →
        (∀ name, ∃ time time',
          Restamped c time time' (s.world.entries.get? name) (w'.entries.get? name)) ∧
        s.world.rebuilds = w'.rebuilds ∧ s.world.patches = w'.patches ∧
        s.crew.queue.completed = reports.countP (·.allSucceeded) ∧
        s.crew.queue.failed = reports.countP (!·.allSucceeded) := by
  have abreast {reports : List Report} {w' : World} (applied : Applied outages answers c
      (events.filterMap Queue.Event.accepted?) w reports w') := applied.succession distinct wellMade
    replaced
  obtain ⟨someReports, someWorld, someApplied⟩ :=
    exists_applied outages answers c (events.filterMap Queue.Event.accepted?) w
  refine ⟨fun busy => ?_, ⟨someReports, someWorld, someApplied⟩, fun reports w' applied idle => ?_⟩
  · obtain ⟨state, well, succession, rfl, _⟩ := abreast someApplied
    obtain ⟨run, _, taken, kept⟩ :=
      abreast_of_goes once succession distinct separate goes List.prefix_rfl
    exact exists_step kept.orderly kept.manned (Queue.accounts_of_run run)
      (Queue.workers_of_run run).1 busy
  · obtain ⟨state, well, succession, rfl, rfl, counted, rest⟩ := abreast applied
    obtain ⟨run, _, taken, kept⟩ :=
      abreast_of_goes once succession distinct separate goes List.prefix_rfl
    have accounts := Queue.accounts_of_run run
    rw [accounts.outstanding, Queue.length_numbers] at idle
    have resting : s.crew.queue.running = [] := List.eq_nil_of_length_eq_zero (by omega)
    have all : taken = reports.length := by
      have accepted := (Queue.known_of_run run).enqueued
      have departed : taken + s.crew.queue.channel.length = s.crew.queue.enqueued :=
        kept.orderly.counted
      omega
    have similar := fun name => kept.idle name (by simp [resting])
    have completed := kept.completed
    have settled := kept.settled
    simp only [resting, all, List.take_length, List.countP_nil, List.length_nil, Nat.add_zero]
      at completed settled
    have either : reports.length =
        reports.countP (·.allSucceeded) + reports.countP (!·.allSucceeded) := by
      simpa using List.length_eq_countP_add_countP (·.allSucceeded) (l := reports)
    refine ⟨fun name => ?_, ?_, ?_, completed, ?_⟩
    · have restamped := (similar name).restamped
      rwa [all, counted] at restamped
    · have same := congrArg World.rebuilds kept.rest
      rw [rest]
      exact same
    · have same := congrArg World.patches kept.rest
      rw [rest]
      exact same
    · omega

theorem Goes.turn {q : Queue Patch} (before : List (Duty Patch (List (String × Program Outcome))))
    {after : List (Duty Patch (List (String × Program Outcome)))} {t : Ticket Patch}
    {name : String} {request : Request} {next : request.Reply → Program Outcome}
    (goes : Goes outages answers c s events
      ⟨⟨q, before ++ ⟨t, [(name, .ask request next)]⟩ :: after⟩, w⟩) :
    let replied := (World.regular outages answers "").reply request w
    Goes outages answers c s events
      ⟨⟨q, before ++ ⟨t, [(name, next replied.1)]⟩ :: after⟩, replied.2⟩ := by
  intro replied
  have turn : OneTurns ([] ++ (name, ask request next) :: []) ⟨request, replied.1⟩
      ([] ++ (name, next replied.1) :: []) := .turn (.turn replied.1)
  have goesOn := goes.snoc (.turns (.turn rfl turn) ⟨"", rfl⟩)
  rwa [List.append_nil] at goesOn

/-- Two users without a listing are dealt with by two of three workers, call by call in turn, and
the second one is done first. -/
theorem queued_patches_in_turn_two :
    let c := Config.standard
    let first : Ticket Patch := ⟨0, ⟨.collections, ["1"], "7", .remove⟩, 1⟩
    let second : Ticket Patch := ⟨1, ⟨.collections, ["2"], "7", .remove⟩, 1⟩
    let events : List (Queue.Event Patch) :=
      [.offered first.job true, .offered second.job true, .taken first, .taken second,
        .ended 0 second .success, .ended 0 first .success]
    ∃ s, Goes (fun _ _ => none) nothingListed c ⟨.start c.patches, .empty⟩ events s ∧
      s.crew.queue.outstanding = 0 ∧ s.crew.queue.completed = 2 ∧
      ∃ reports w',
        Applied (fun _ _ => none) nothingListed c [first.job, second.job] .empty reports w' ∧
        s.crew.queue.completed = reports.countP (·.allSucceeded) ∧
        ∀ name, ∃ time time',
          Restamped c time time' (s.world.entries.get? name) (w'.entries.get? name) := by
  intro c first second events
  have offered : Goes (fun _ _ => none) nothingListed c ⟨.start c.patches, .empty⟩
      [.offered first.job true, .offered second.job true] _ :=
    (Goes.nil.snoc (.works (.beside (.offered _ _) rfl) rfl)).snoc
      (.works (.beside (.offered _ _) rfl) rfl)
  have taken := (offered.snoc (.works (.begins (.taken (t := first) rfl)) rfl)).snoc
    (.works (.begins (.taken (t := second) rfl)) rfl)
  have looked := (taken.turn []).turn [_]
  have asked := (looked.turn []).turn [_]
  have written := (asked.turn []).turn [_]
  let done (t : Ticket Patch) (owner : String) : Duty Patch (List (String × Program Outcome)) :=
    ⟨t, [(owner, .done (.ok .rebuilt))]⟩
  have success (t : Ticket Patch) (owner : String) :
      (patching c).ends (done t owner).work .success := ⟨[(owner, .ok .rebuilt)], rfl, rfl⟩
  have last : done second "2" ∈ [done first "1", done second "2"] :=
    List.mem_cons_of_mem _ List.mem_cons_self
  have endedSecond := written.snoc (.works (.ends last (.inl (success second "2"))
    (.ended (List.mem_cons_of_mem _ List.mem_cons_self) 0 .success)) rfl)
  have only : done first "1" ∈ [done first "1"] := List.mem_cons_self
  have ended : Goes (fun _ _ => none) nothingListed c ⟨.start c.patches, .empty⟩ events _ :=
    endedSecond.snoc (.works (.ends only (.inl (success first "1"))
      (.ended List.mem_cons_self 0 .success)) rfl)
  have wellMade : ∀ key value, nothingListed.value? c key = some value → WellMade value := by
    rintro ⟨ns, id⟩ value given
    cases ns <;> cases given
    exact ⟨True.intro, True.intro⟩
  have replaced : ∀ job ∈ [first.job, second.job], ∀ value,
      job.edit = .replace value → WellMade value :=
    List.forall_mem_cons.mpr ⟨nofun, List.forall_mem_singleton.mpr nofun⟩
  have distinct : ∀ job ∈ [first.job, second.job], job.owners.Nodup := by decide
  have apart : [first.job, second.job].Pairwise fun job later =>
      ∀ key ∈ job.keys, key ∉ later.keys := List.pairwise_pair.mpr (by decide)
  obtain ⟨_, ⟨reports, w', applied⟩, all⟩ :=
    queued_patches_in_turn rfl wellMade ended replaced distinct (.inr apart)
  obtain ⟨restamped, _, _, completed, _⟩ := all reports w' applied rfl
  exact ⟨_, ended, rfl, rfl, reports, w', applied, completed, restamped⟩

end Workshop

end CacheAside
