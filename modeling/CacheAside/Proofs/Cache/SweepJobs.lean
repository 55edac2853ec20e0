import CacheAside.Proofs.Cache.FanOut
import CacheAside.Proofs.Cache.Healing
import CacheAside.Proofs.Cache.Sweeping
import Mathlib.Data.List.Nodup

namespace CacheAside

namespace World

/-- An exchange while every call of the store is served and the queues are open. What the clock
tells varies, but only for the stamps: no time passes, so no entry runs out. -/
def Healthily (answers : Answers) : World → Exchange → World → Prop :=
  Regularly (fun _ _ => none) answers

variable {answers : Answers} {w w' : World} {x : Exchange} {xs : List Exchange}

theorem Healthily.meets (met : Healthily answers w x w') :
    w.Meets (fun question answer => answer = answers question) x w' := by
  obtain ⟨time, replied⟩ := met
  have meets := (regular (fun _ _ => none) answers time).meets x.request w
  rw [replied] at meets
  exact meets

theorem Healthily.served {call : StoreCall} {reply : Except String call.Answer}
    (met : Healthily answers w ⟨.store call, reply⟩ w') :
    reply = .ok (w.entries.serve w.now call).1 ∧
      w' = { w with entries := (w.entries.serve w.now call).2 } := by
  obtain ⟨_, replied⟩ := met
  obtain ⟨rfl, rfl⟩ := Prod.mk.inj replied
  exact ⟨rfl, rfl⟩

theorem meets_of_healthily (follows : Exchange.Follows (Healthily answers) w xs w') :
    Exchange.Follows (Meets fun question answer => answer = answers question) w xs w' := by
  induction follows with
  | nil w => exact .nil w
  | cons first _ ih => exact .cons first.meets ih

theorem served_of_healthily (follows : Exchange.Follows (Healthily answers) w xs w')
    {call : StoreCall} {reason : String} : ⟨.store call, .error reason⟩ ∉ xs := by
  induction follows with
  | nil => exact List.not_mem_nil
  | cons first _ ih =>
    intro there
    rcases List.mem_cons.mp there with rfl | there
    · obtain ⟨_, replied⟩ := first
      cases replied
    · exact ih there

theorem comes_finish {α : Type} (answers : Answers) (time : String) (p : Program α) (w : World) :
    p.Comes (Healthily answers) w ((regular (fun _ _ => none) answers time).finish p w).1
      ((regular (fun _ _ => none) answers time).finish p w).2 :=
  comes_regular _ answers time p w

theorem exists_comes {α : Type} (answers : Answers) (p : Program α) (w : World) :
    ∃ ending w', p.Comes (Healthily answers) w ending w' :=
  ⟨_, _, comes_finish answers "" p w⟩

end World

namespace Rebuild

def key (job : Rebuild) : Key := ⟨job.ns, job.id⟩

theorem ofKey_injective : Function.Injective ofKey := fun key key' same => by
  cases key
  cases key'
  cases same
  rfl

theorem text_injective (job job' : Rebuild) (same : job.key.text = job'.key.text) : job = job' := by
  cases job
  cases job'
  cases Key.text_injective same
  rfl

def failed? (done : Rebuild × Except Failure Unit) : Option String :=
  match done.2 with
  | .ok _ => none
  | .error _ => some done.1.key.text

end Rebuild

namespace Answers

def listed (answers : Answers) (ns : Namespace) : Except Failure (List Key) :=
  match ns.identifiedBy with
  | .nothing => .ok [.only ns]
  | .shareLink =>
    match answers .tokens with
    | .ok tokens => .ok (tokens.map (.of ns))
    | .error reason => .error (.source ns.name (.backend reason))
  | .user =>
    match answers .users with
    | .ok users =>
      .ok (users.map (.of ns) ++ if ns = .insights then [.of ns Cache.everyone] else [])
    | .error reason => .error (.source ns.name (.backend reason))

/-- The source lists no identifier twice, and no user under the name that stands for all of them. -/
structure Distinct (answers : Answers) (ns : Namespace) : Prop where
  tokens : ∀ ids, ns.identifiedBy = .shareLink → answers .tokens = .ok ids → ids.Nodup
  users : ∀ ids, ns.identifiedBy = .user → answers .users = .ok ids →
    ids.Nodup ∧ (ns = .insights → Cache.everyone ∉ ids)

variable {answers : Answers} {ns : Namespace} {keys : List Key}

theorem Distinct.nodup (distinct : answers.Distinct ns) (lists : answers.listed ns = .ok keys) :
    keys.Nodup := by
  have injective : Function.Injective (Key.of ns) := fun _ _ same => by
    cases same
    rfl
  unfold listed at lists
  split at lists
  · cases lists
    exact List.nodup_singleton _
  · rename_i token
    split at lists
    · rename_i ids answered
      cases lists
      exact List.Nodup.map injective (distinct.tokens ids token answered)
    · cases lists
  · rename_i user
    split at lists
    · rename_i ids answered
      cases lists
      obtain ⟨unique, absent⟩ := distinct.users ids user answered
      have mapped : (ids.map (Key.of ns)).Nodup := List.Nodup.map injective unique
      split
      · rename_i collective
        refine mapped.append (List.nodup_singleton _) (List.disjoint_singleton.mpr ?_)
        rw [List.mem_map_of_injective injective]
        exact absent collective
      · rw [List.append_nil]
        exact mapped
    · cases lists

theorem named_of_listed (lists : answers.listed ns = .ok keys) :
    ∀ key ∈ keys, (Rebuild.ofKey key).target? = some key := by
  have named (id : String) : (Rebuild.ofKey (Key.of ns id)).target? = some (.of ns id) :=
    Rebuild.target?_ofKey_of_named (.inl rfl)
  have ofIds (ids : List String) :
      ∀ key ∈ ids.map (Key.of ns), (Rebuild.ofKey key).target? = some key :=
    List.forall_mem_map.mpr fun id _ => named id
  unfold listed at lists
  split at lists
  · rename_i alone
    cases lists
    refine List.forall_mem_singleton.mpr (Rebuild.target?_ofKey_of_named (.inr ?_))
    simp [Key.only, Namespace.isSingle, alone]
  · split at lists
    · cases lists
      exact ofIds _
    · cases lists
  · split at lists
    · cases lists
      refine List.forall_mem_append.mpr ⟨ofIds _, ?_⟩
      split
      · exact List.forall_mem_singleton.mpr (named _)
      · exact List.forall_mem_nil _
    · cases lists

end Answers

namespace Cache

open Program Exchange Visit

variable {answers : Answers} {c : Config} {ns : Namespace} {w w' : World}

theorem comes_source {α : Type} {name : String} {question : Question}
    {next : question.Answer → Program α} {ending : Except Failure α}
    (comes : (source name question >>= next).Comes (World.Healthily answers) w ending w') :
    Program.Comes (World.Healthily answers) (match answers question with
      | .ok answer => next answer
      | .error reason => fail (.source name (.backend reason))) w ending w' := by
  obtain ⟨reply, between, ⟨_, met⟩, goesOn⟩ := comes_ask.mp comes
  cases met
  cases told : answers question with
  | ok answer =>
    rw [told] at goesOn
    exact goesOn
  | error reason =>
    rw [told] at goesOn
    exact goesOn

theorem comes_expectedKeys {ending : Except Failure (List Key)}
    (comes : (expectedKeys ns).Comes (World.Healthily answers) w ending w') :
    ending = answers.listed ns ∧ w' = w := by
  unfold expectedKeys at comes
  unfold Answers.listed
  cases kind : ns.identifiedBy with
  | nothing =>
    rw [kind] at comes
    exact comes_done.mp comes
  | shareLink =>
    rw [kind] at comes
    have asked := comes_source comes
    cases told : answers .tokens <;> rw [told] at asked <;> exact comes_done.mp asked
  | user =>
    rw [kind] at comes
    have asked := comes_source comes
    cases told : answers .users with
    | ok ids =>
      rw [told] at asked
      obtain ⟨rfl, rfl⟩ := comes_done.mp asked
      refine ⟨?_, rfl⟩
      split <;> simp
    | error reason =>
      rw [told] at asked
      exact comes_done.mp asked

theorem comes_requestEach {keys : List Key} {ending : Except Failure Unit}
    (comes : (requestEach c keys).Comes (World.Healthily answers) w ending w') :
    ending = .ok () ∧ w' = { w with rebuilds := w.rebuilds ++ keys.map .ofKey } := by
  induction keys generalizing w with
  | nil =>
    obtain ⟨rfl, rfl⟩ := comes_done.mp comes
    exact ⟨rfl, by rw [List.map_nil, List.append_nil]⟩
  | cons key keys ih =>
    obtain ⟨_, _, ⟨_, met⟩, goesOn⟩ := comes_ask.mp comes
    cases met
    obtain ⟨rfl, rfl⟩ := ih goesOn
    exact ⟨rfl, by simp⟩

theorem comes_requestAll {requested : Except Failure Nat}
    (comes : (requestAll c ns).Comes (World.Healthily answers) w requested w') :
    (∀ failure, answers.listed ns = .error failure → requested = .error failure ∧ w' = w) ∧
      ∀ keys, answers.listed ns = .ok keys → requested = .ok keys.length ∧
        w' = { w with rebuilds := w.rebuilds ++ keys.map .ofKey } := by
  rcases comes_bind.mp comes with ⟨keys, _, lists, goesOn⟩ | ⟨failure, rfl, lists⟩
  · obtain ⟨told, rfl⟩ := comes_expectedKeys lists
    rw [← told]
    refine ⟨nofun, ?_⟩
    rintro _ ⟨⟩
    rcases comes_bind.mp goesOn with ⟨_, _, queues, ends⟩ | ⟨_, _, queues⟩
    · obtain ⟨_, rfl⟩ := comes_requestEach queues
      exact comes_done.mp ends
    · obtain ⟨impossible, _⟩ := comes_requestEach queues
      cases impossible
  · obtain ⟨told, rfl⟩ := comes_expectedKeys lists
    rw [← told]
    refine ⟨?_, nofun⟩
    rintro _ ⟨⟩
    exact ⟨rfl, rfl⟩

def jobs (c : Config) (order : List Rebuild) : List (Rebuild × Program Unit) :=
  order.map fun job => (job, carryOut c job)

theorem carryOut_of_target {job : Rebuild} {key : Key} (about : job.target? = some key) :
    carryOut c job = do let _ ← rebuild c key; return () := by
  simp only [carryOut, about]

theorem stampsLast_carryOut {job : Rebuild} (about : job.target? = some job.key) :
    StampsLast c (carryOut c job) := by
  rw [carryOut_of_target about]
  exact stampsLast_rebuild c job.key ()

theorem within_carryOut {job : Rebuild} (about : job.target? = some job.key) :
    Abides (asking (Within job.key.text)) (carryOut c job) := by
  rw [carryOut_of_target about]
  exact (within_rebuild c job.key).andThen fun _ => True.intro

theorem isolated_of_jobs {order : List Rebuild} (distinct : order.Nodup)
    (about : ∀ job ∈ order, job.target? = some job.key)
    {results : List (Rebuild × Except Failure Unit)}
    (comes : OneByOne (World.Healthily answers) (jobs c order) w results w') :
    Isolated (fun _ _ => none) answers (fun job : Rebuild => job.key.text) (carryOut c) order w
      results w' := by
  have inevitable : Inevitably (World.Regularly (fun _ _ => none) answers)
      (Isolated (fun _ _ => none) answers (fun job : Rebuild => job.key.text) (carryOut c) order w)
      (jobs c order) w :=
    inevitably_isolated Rebuild.text_injective
      (fun job there => stampsLast_carryOut (about job there))
      (fun job there => within_carryOut (about job there)) distinct
  exact inevitable.oneByOne comes

def asJob (visit : Visit) : Rebuild × Except Failure Unit :=
  (.ofKey visit.key, visit.result.map fun _ => ())

def tally (results : List (Rebuild × Except Failure Unit)) : SweepSummary :=
  ⟨results.countP (·.2.isOk), results.filterMap Rebuild.failed?⟩

theorem tally_asJob (visits : List Visit) : tally (visits.map asJob) = summary visits := by
  have failed (visit : Visit) : Rebuild.failed? (asJob visit) = visit.skipped? := by
    unfold Rebuild.failed? skipped? asJob
    cases visit.result <;> rfl
  have succeeded (visit : Visit) : (asJob visit).2.isOk = visit.skipped?.isNone := by
    unfold skipped? asJob
    cases visit.result <;> rfl
  simp only [tally, summary, List.countP_map, List.filterMap_map, Function.comp_def, failed,
    succeeded]

theorem inReach_of_healthily {visits : List Visit}
    (each : ∀ visit ∈ visits, (rebuild c visit.key).Runs visit.exchanges (some visit.result))
    (follows : Follows (World.Healthily answers) w (exchanged visits) w') : InReach visits := by
  have inTurn := inTurn_of_follows each follows
  clear each follows
  induction inTurn with
  | nil => exact inReach_nil
  | cons first _ ih =>
    refine List.forall_mem_cons.mpr ⟨fun reason out => ?_, ih⟩
    obtain ⟨runs, own⟩ := first
    have spares := (writesLast_rebuild c _).spares runs (World.meets_of_healthily own)
    obtain ⟨call, failed⟩ := spares.blamed reason out
    exact World.served_of_healthily own failed

theorem oneByOne_of_visits {visits : List Visit}
    (named : ∀ visit ∈ visits, (Rebuild.ofKey visit.key).target? = some visit.key)
    (each : ∀ visit ∈ visits, (rebuild c visit.key).Runs visit.exchanges (some visit.result))
    (follows : Follows (World.Healthily answers) w (exchanged visits) w') :
    OneByOne (World.Healthily answers) (jobs c (visits.map fun visit => .ofKey visit.key)) w
      (visits.map asJob) w' := by
  have inTurn := inTurn_of_follows each follows
  clear each follows
  induction inTurn with
  | nil => exact .nil _
  | @cons w between w' visit visits first _ ih =>
    obtain ⟨mine, others⟩ := List.forall_mem_cons.mp named
    refine .cons ?_ (ih others)
    rw [carryOut_of_target mine]
    have comes : (rebuild c visit.key).Comes (World.Healthily answers) w visit.result between :=
      ⟨_, first⟩
    cases told : visit.result with
    | ok value =>
      rw [told] at comes
      exact comes_bind.mpr (.inl ⟨value, between, comes, comes_done.mpr ⟨rfl, rfl⟩⟩)
    | error failure =>
      rw [told] at comes
      exact comes_bind.mpr (.inr ⟨failure, rfl, comes⟩)

theorem comes_rebuildEach {keys : List Key}
    (named : ∀ key ∈ keys, (Rebuild.ofKey key).target? = some key)
    {ending : Except Failure SweepSummary}
    (comes : (rebuildEach c keys ⟨0, []⟩).Comes (World.Healthily answers) w ending w') :
    ∃ results, OneByOne (World.Healthily answers) (jobs c (keys.map .ofKey)) w results w' ∧
      ending = .ok (tally results) ∧
      (tally results).rebuilt + (tally results).skipped.length = keys.length := by
  obtain ⟨_, runs, follows⟩ := comes
  obtain ⟨visits, _, passes, rfl, rfl, each⟩ := runs_rebuildEach runs
  have reached := inReach_of_healthily each follows
  cases passes with
  | completed =>
    refine ⟨visits.map asJob, ?_, ?_, ?_⟩
    · rw [List.map_map]
      exact oneByOne_of_visits (List.forall_mem_map.mp named) each follows
    · rw [tally_asJob]
      simp [Except.map, SweepSummary.plus]
    · rw [tally_asJob, summary_counts, List.length_map]
  | aborted _ out =>
    exact absurd out (reached _ (List.mem_append_right _ List.mem_cons_self) _)

def followUps (ns : Namespace) : List Rebuild :=
  if ns = .collections then [.sweep .autoCollects] else []

theorem comes_sweep {swept : Except Failure SweepSummary}
    (comes : (sweep c ns).Comes (World.Healthily answers) w swept w') :
    (∀ failure, answers.listed ns = .error failure → swept = .error failure ∧ w' = w) ∧
      ∀ keys, answers.listed ns = .ok keys → ∃ results between,
        OneByOne (World.Healthily answers) (jobs c (keys.map .ofKey)) w results between ∧
        swept = .ok (tally results) ∧
        (tally results).rebuilt + (tally results).skipped.length = keys.length ∧
        w' = { between with rebuilds := between.rebuilds ++ followUps ns } := by
  rcases comes_bind.mp comes with ⟨keys, _, lists, goesOn⟩ | ⟨failure, rfl, lists⟩
  · obtain ⟨told, rfl⟩ := comes_expectedKeys lists
    rw [← told]
    refine ⟨nofun, ?_⟩
    rintro _ ⟨⟩
    have named := Answers.named_of_listed told.symm
    rcases comes_bind.mp goesOn with ⟨_, between, each, xs, runs, follows⟩ | ⟨_, _, each⟩
    · obtain ⟨results, oneByOne, same, counts⟩ := comes_rebuildEach named each
      cases same
      obtain ⟨rfl, ⟨rfl, taken, rfl⟩ | ⟨plain, rfl⟩⟩ := runs_followUp runs
      · cases follows with | cons offer rest =>
        cases rest
        obtain ⟨_, met⟩ := offer
        cases met
        exact ⟨results, between, oneByOne, rfl, counts, rfl⟩
      · cases follows
        refine ⟨results, _, oneByOne, rfl, counts, ?_⟩
        rw [followUps, if_neg plain, List.append_nil]
    · obtain ⟨_, _, impossible, _⟩ := comes_rebuildEach named each
      cases impossible
  · obtain ⟨told, rfl⟩ := comes_expectedKeys lists
    rw [← told]
    refine ⟨?_, nofun⟩
    rintro _ ⟨⟩
    exact ⟨rfl, rfl⟩

theorem exists_oneByOne (answers : Answers) (c : Config) (order : List Rebuild) (w : World) :
    ∃ results w', OneByOne (World.Healthily answers) (jobs c order) w results w' := by
  induction order generalizing w with
  | nil => exact ⟨[], w, .nil w⟩
  | cons job order ih =>
    obtain ⟨_, between, first⟩ := World.exists_comes answers (carryOut c job) w
    obtain ⟨_, w', rest⟩ := ih between
    exact ⟨_, w', .cons first rest⟩

/-- The jobs of a namespace have come to what a sweep of it has come to, from the same start. -/
structure Matches (c : Config) (w : World) (summary : SweepSummary) (swept : World)
    (results : List (Rebuild × Except Failure Unit)) (w' : World) : Prop where
  rebuilt : results.countP (·.2.isOk) = summary.rebuilt
  skipped : (results.filterMap Rebuild.failed?).Perm summary.skipped
  entries : ∀ name, ∃ time time',
    Restamped c time time' (swept.entries.get? name) (w'.entries.get? name)
  rest : w' = { w with entries := w'.entries }

theorem matches_of_jobs {order order' : List Rebuild}
    {results results' : List (Rebuild × Except Failure Unit)} {w₁ w₂ : World}
    (distinct : order.Nodup) (about : ∀ job ∈ order, job.target? = some job.key)
    (permuted : order'.Perm order)
    (first : OneByOne (World.Healthily answers) (jobs c order) w results w₁)
    (second : OneByOne (World.Healthily answers) (jobs c order') w results' w₂) :
    Matches c w (tally results) w₁ results' w₂ := by
  have about' : ∀ job ∈ order', job.target? = some job.key :=
    fun job there => about job (permuted.mem_iff.mp there)
  have alone := isolated_of_jobs distinct about first
  have alone' := isolated_of_jobs (permuted.nodup_iff.mpr distinct) about' second
  have outcomes : results'.Perm results := by
    rw [alone.outcomes, alone'.outcomes]
    exact permuted.map _
  refine ⟨outcomes.countP_eq _, outcomes.filterMap _, ?_, alone'.rest⟩
  refine restamped_of_alone ?_ permuted.symm alone.entries alone'.entries alone.others
    alone'.others
  intro job there time time'
  exact ((stampsLast_carryOut (about job there)).restamped _ w time time').2

/-- While the store is served and the queue is open, and whatever the source answers as long as it
lists no key twice: a sweep, and a job for every key with the jobs carried out one by one in any
order, come to the same entries but for the stamps. No time passes for the entries in either. The
jobs are as many as the keys that the sweep has counted, as many succeed as it has rebuilt, and
those fail that it has skipped. The sweep of the listings that embed collections is all that a sweep
queues besides. -/
theorem sweep_eq_jobs (c : Config) (w : World) (distinct : answers.Distinct ns) :
    (∃ swept w₁, (sweep c ns).Comes (World.Healthily answers) w swept w₁) ∧
    (∃ requested w₂, (requestAll c ns).Comes (World.Healthily answers) w requested w₂) ∧
    ∀ swept w₁ requested w₂, (sweep c ns).Comes (World.Healthily answers) w swept w₁ →
      (requestAll c ns).Comes (World.Healthily answers) w requested w₂ →
      (∀ failure, answers.listed ns = .error failure →
        swept = .error failure ∧ w₁ = w ∧ requested = .error failure ∧ w₂ = w) ∧
      ∀ keys, answers.listed ns = .ok keys → ∃ summary, swept = .ok summary ∧
        w₁ = { w with entries := w₁.entries, rebuilds := w.rebuilds ++ followUps ns } ∧
        requested = .ok (summary.rebuilt + summary.skipped.length) ∧
        w₂ = { w with rebuilds := w.rebuilds ++ keys.map .ofKey } ∧
        ∀ order : List Rebuild, order.Perm (keys.map .ofKey) →
          let queued : World := { w₂ with rebuilds := w.rebuilds }
          (∃ results w₃,
            OneByOne (World.Healthily answers) (jobs c order) queued results w₃) ∧
          ∀ results w₃, OneByOne (World.Healthily answers) (jobs c order) queued results w₃ →
            Matches c w summary w₁ results w₃ := by
  refine ⟨World.exists_comes answers _ w, World.exists_comes answers _ w, ?_⟩
  intro swept w₁ requested w₂ sweeps requests
  obtain ⟨unswept, sweeps⟩ := comes_sweep sweeps
  obtain ⟨unrequested, requests⟩ := comes_requestAll requests
  refine ⟨fun failure fails => ?_, fun keys lists => ?_⟩
  · obtain ⟨noSummary, same⟩ := unswept failure fails
    obtain ⟨noCount, same'⟩ := unrequested failure fails
    exact ⟨noSummary, same, noCount, same'⟩
  · obtain ⟨inTurn, between, oneByOne, rfl, counts, rfl⟩ := sweeps keys lists
    obtain ⟨rfl, rfl⟩ := requests keys lists
    have unique : (keys.map Rebuild.ofKey).Nodup :=
      List.Nodup.map Rebuild.ofKey_injective (distinct.nodup lists)
    have about : ∀ job ∈ keys.map Rebuild.ofKey, job.target? = some job.key :=
      List.forall_mem_map.mpr (Answers.named_of_listed lists)
    -- the sweep itself carries out the jobs, in the order of the keys
    have alone := isolated_of_jobs unique about oneByOne
    refine ⟨tally inTurn, rfl, ?_, by rw [counts], rfl, fun order permuted => ?_⟩
    · rw [alone.rest]
    · refine ⟨exists_oneByOne answers c order w, fun results w₃ comes => ?_⟩
      obtain ⟨rebuilt, skipped, entries, rest⟩ :=
        matches_of_jobs unique about permuted oneByOne comes
      exact ⟨rebuilt, skipped, entries, rest⟩

/-- The listings of three users, of which one has no name and one is not known to the source. -/
theorem sweep_eq_jobs_unknown :
    let answers : Answers := fun
      | .users => .ok ["7", "", "8"]
      | .collections user => .ok (if user = "8" then none else some [])
      | _ => .error "unknown"
    let order : List Rebuild := ["8", "", "7"].map fun user => .ofKey (.of .collections user)
    (∃ results w, OneByOne (World.Healthily answers) (jobs .standard order) .empty results w) ∧
      ∀ results w, OneByOne (World.Healthily answers) (jobs .standard order) .empty results w →
        results.countP (·.2.isOk) = 1 ∧
        (results.filterMap Rebuild.failed?).Perm ["collections:", "collections:8"] := by
  intro answers order
  have distinct : answers.Distinct .collections := by
    refine ⟨nofun, fun ids _ same => ?_⟩
    cases same
    exact ⟨by decide, nofun⟩
  have permuted : order.Perm
      (["7", "", "8"].map fun user => .ofKey (.of .collections user)) := by decide
  obtain ⟨_, ⟨requested, w₂, requests⟩, agree⟩ := sweep_eq_jobs .standard .empty distinct
  have sweeps := World.comes_finish answers "" (sweep .standard .collections) .empty
  obtain ⟨_, agree⟩ := agree _ _ _ _ sweeps requests
  obtain ⟨summary, told, _, _, rfl, agree⟩ := agree _ rfl
  obtain ⟨possible, agree⟩ := agree order permuted
  have counted : summary = ⟨1, ["collections:", "collections:8"]⟩ :=
    (Except.ok.inj told).symm
  subst counted
  exact ⟨possible, fun results w comes => ⟨(agree results w comes).rebuilt,
    (agree results w comes).skipped⟩⟩

end Cache

end CacheAside
