import CacheAside.Proofs.Cache.Reading
import CacheAside.Proofs.Cache.Rebuilding

namespace CacheAside

def SweepSummary.plus (first second : SweepSummary) : SweepSummary :=
  ⟨first.rebuilt + second.rebuilt, first.skipped ++ second.skipped⟩

theorem SweepSummary.plus_assoc (a b c : SweepSummary) :
    (a.plus b).plus c = a.plus (b.plus c) := by
  simp only [plus, Nat.add_assoc, List.append_assoc]

/-- The rebuild of one key in the course of a sweep: what it exchanged, and what it came to. -/
structure Visit where
  key : Key
  exchanges : List Exchange
  result : Except Failure Json

namespace Visit

def skipped? (visit : Visit) : Option String :=
  match visit.result with
  | .ok _ => none
  | .error _ => some visit.key.text

def exchanged (visits : List Visit) : List Exchange := visits.flatMap (·.exchanges)

def summary (visits : List Visit) : SweepSummary :=
  ⟨visits.countP (·.skipped?.isNone), visits.filterMap skipped?⟩

theorem summary_ok {visit : Visit} {value : Json} (told : visit.result = .ok value) :
    summary [visit] = ⟨1, []⟩ := by
  simp [summary, skipped?, told]

theorem summary_error {visit : Visit} {failure : Failure} (told : visit.result = .error failure) :
    summary [visit] = ⟨0, [visit.key.text]⟩ := by
  simp [summary, skipped?, told]

theorem summary_append (visits visits' : List Visit) :
    summary (visits ++ visits') = (summary visits).plus (summary visits') := by
  simp only [summary, SweepSummary.plus, List.countP_append, List.filterMap_append]

theorem summary_counts (visits : List Visit) :
    (summary visits).rebuilt + (summary visits).skipped.length = visits.length := by
  induction visits with
  | nil => rfl
  | cons visit visits ih =>
    have split := summary_append [visit] visits
    rw [List.singleton_append] at split
    cases told : visit.result with
    | ok value =>
      simp only [split, summary_ok told, SweepSummary.plus, List.nil_append, List.length_cons]
      omega
    | error failure =>
      simp only [split, summary_error told, SweepSummary.plus, List.singleton_append,
        List.length_cons]
      omega

def InReach (visits : List Visit) : Prop :=
  ∀ visit ∈ visits, ∀ reason, visit.result ≠ .error (.storeUnavailable reason)

theorem inReach_nil : InReach [] := List.forall_mem_nil _

/-- How far the visits go through the keys, and what comes of them. -/
inductive Passes : List Key → List Visit → Except Failure SweepSummary → Prop
  | completed {visits : List Visit} (reached : InReach visits) :
    Passes (visits.map (·.key)) visits (.ok (summary visits))
  | aborted {before : List Visit} {last : Visit} {reason : String} (reached : InReach before)
    (out : last.result = .error (.storeUnavailable reason)) (after : List Key) :
    Passes (before.map (·.key) ++ last.key :: after) (before ++ [last])
      (.error (.storeUnavailable reason))

theorem Passes.cons {visit : Visit} {keys : List Key} {visits : List Visit}
    {ending : Except Failure SweepSummary} (passes : Passes keys visits ending)
    (reached : ∀ reason, visit.result ≠ .error (.storeUnavailable reason)) :
    Passes (visit.key :: keys) (visit :: visits) (ending.map (summary [visit]).plus) := by
  cases passes with
  | completed others =>
    rw [Except.map, ← summary_append]
    exact .completed (List.forall_mem_cons.mpr ⟨reached, others⟩)
  | aborted others out after =>
    have all := List.forall_mem_cons.mpr ⟨reached, others⟩
    exact .aborted all out after

inductive InTurn {σ : Type} (takes : σ → Visit → σ → Prop) : σ → List Visit → σ → Prop
  | nil (s : σ) : InTurn takes s [] s
  | cons {s s' s'' : σ} {visit : Visit} {visits : List Visit} (first : takes s visit s')
    (rest : InTurn takes s' visits s'') : InTurn takes s (visit :: visits) s''

theorem InTurn.mono {σ : Type} {takes takes' : σ → Visit → σ → Prop} {s s' : σ}
    {visits : List Visit} (inTurn : InTurn takes s visits s')
    (implied : ∀ s visit s', takes s visit s' → takes' s visit s') : InTurn takes' s visits s' := by
  induction inTurn with
  | nil s => exact .nil s
  | cons first _ ih => exact .cons (implied _ _ _ first) ih

end Visit

namespace Cache

open Program Exchange Visit

variable {c : Config} {ns : Namespace} {σ : Type} {answering : Answering}

theorem afterVisit_eq (visit : Visit) (keys : List Key) (begun : SweepSummary)
    (reached : ∀ reason, visit.result ≠ .error (.storeUnavailable reason)) :
    (match visit.result with
      | .ok _ => rebuildEach c keys { begun with rebuilt := begun.rebuilt + 1 }
      | .error (.storeUnavailable reason) => fail (.storeUnavailable reason)
      | .error _ =>
        rebuildEach c keys { begun with skipped := begun.skipped ++ [visit.key.text] }) =
      rebuildEach c keys (begun.plus (summary [visit])) := by
  split
  · rename_i told
    rw [summary_ok told, SweepSummary.plus, List.append_nil]
  · rename_i reason told
    exact absurd told (reached reason)
  · rename_i told
    rw [summary_error told]
    rfl

theorem runs_afterVisit (visit : Visit) {keys : List Key} {begun : SweepSummary}
    {xs : List Exchange} {ending : Except Failure SweepSummary}
    (runs : Program.Runs (match visit.result with
      | .ok _ => rebuildEach c keys { begun with rebuilt := begun.rebuilt + 1 }
      | .error (.storeUnavailable reason) => fail (.storeUnavailable reason)
      | .error _ => rebuildEach c keys { begun with skipped := begun.skipped ++ [visit.key.text] })
      xs (some ending)) :
    (∀ reason, visit.result ≠ .error (.storeUnavailable reason)) ∧
        (rebuildEach c keys (begun.plus (summary [visit]))).Runs xs (some ending) ∨
      ∃ reason, visit.result = .error (.storeUnavailable reason) ∧ xs = [] ∧
        ending = .error (.storeUnavailable reason) := by
  by_cases out : ∃ reason, visit.result = .error (.storeUnavailable reason)
  · obtain ⟨reason, told⟩ := out
    rw [told] at runs
    obtain ⟨rfl, rfl⟩ := runs_done.mp runs
    exact .inr ⟨reason, told, rfl, rfl⟩
  · have reached := not_exists.mp out
    have goesOn := afterVisit_eq (c := c) visit keys begun reached
    exact .inl ⟨reached, goesOn ▸ runs⟩

theorem runs_rebuildEach {keys : List Key} {begun : SweepSummary} {xs : List Exchange}
    {ending : Except Failure SweepSummary}
    (runs : (rebuildEach c keys begun).Runs xs (some ending)) :
    ∃ visits passed, Passes keys visits passed ∧ ending = passed.map begun.plus ∧
      xs = exchanged visits ∧
      ∀ visit ∈ visits, (rebuild c visit.key).Runs visit.exchanges (some visit.result) := by
  induction keys generalizing begun xs with
  | nil =>
    obtain ⟨rfl, rfl⟩ := runs_done.mp runs
    refine ⟨[], _, .completed inReach_nil, ?_, rfl, List.forall_mem_nil _⟩
    simp [Except.map, summary, SweepSummary.plus]
  | cons key keys ih =>
    rcases runs_bind.mp runs with ⟨result, own, others, rfl, takes, goesOn⟩ | ⟨_, _, takes⟩
    · obtain ⟨_, ⟨⟩, takes⟩ := runs_attempt.mp takes
      let visit : Visit := ⟨key, own, result⟩
      rcases runs_afterVisit visit goesOn with ⟨reached, goesOn⟩ | ⟨reason, out, rfl, rfl⟩
      · obtain ⟨visits, passed, passes, rfl, rfl, each⟩ := ih goesOn
        refine ⟨visit :: visits, _, passes.cons reached, ?_, rfl,
          List.forall_mem_cons.mpr ⟨takes, each⟩⟩
        cases passed with
        | ok summary => simp only [Except.map, SweepSummary.plus_assoc]
        | error failure => rfl
      · exact ⟨[visit], _, .aborted inReach_nil out keys, rfl, rfl,
          List.forall_mem_singleton.mpr takes⟩
    · obtain ⟨_, impossible, _⟩ := runs_attempt.mp takes
      cases impossible

theorem runs_expectedKeys {xs : List Exchange} {ending : Except Failure (List Key)}
    (runs : (expectedKeys ns).Runs xs (some ending)) : (∀ x ∈ xs, x.isQuestion = true) ∧
      ∀ failure, ending = .error failure →
        ∃ reason, failure = .source ns.name (.backend reason) := by
  have asked : ∀ (question : Question) (f : question.Answer → List Key) {xs : List Exchange},
      (do return f (← source ns.name question) : Program (List Key)).Runs xs (some ending) →
        (∀ x ∈ xs, x.isQuestion = true) ∧ ∀ failure, ending = .error failure →
          ∃ reason, failure = .source ns.name (.backend reason) := by
    intro question f xs runs
    obtain ⟨reply, rest, rfl, ends⟩ := runs_ask.mp runs
    cases reply with
    | ok answer =>
      obtain ⟨rfl, rfl⟩ := runs_done.mp ends
      exact ⟨List.forall_mem_singleton.mpr rfl, fun _ same => nomatch same⟩
    | error reason =>
      obtain ⟨rfl, rfl⟩ := runs_done.mp ends
      refine ⟨List.forall_mem_singleton.mpr rfl, fun _ same => ?_⟩
      exact ⟨reason, (Except.error.inj same).symm⟩
  unfold expectedKeys at runs
  split at runs
  · obtain ⟨rfl, rfl⟩ := runs_done.mp runs
    exact ⟨List.forall_mem_nil _, fun _ same => nomatch same⟩
  · exact asked .tokens _ runs
  · exact asked .users (fun ids =>
      if ns = .insights then ids.map (.of ns) ++ [.of ns everyone] else ids.map (.of ns)) runs

theorem inTurn_of_follows {step : σ → Exchange → σ → Prop} {visits : List Visit} {s s' : σ}
    (each : ∀ visit ∈ visits, (rebuild c visit.key).Runs visit.exchanges (some visit.result))
    (follows : Follows step s (exchanged visits) s') :
    InTurn (fun s visit s' => (rebuild c visit.key).Runs visit.exchanges (some visit.result) ∧
      Follows step s visit.exchanges s') s visits s' := by
  induction visits generalizing s with
  | nil =>
    cases follows
    exact .nil _
  | cons visit visits ih =>
    obtain ⟨runs, others⟩ := List.forall_mem_cons.mp each
    obtain ⟨between, own, rest⟩ := follows_append.mp follows
    exact .cons ⟨runs, own⟩ (ih others rest)

/-- One visit of a sweep: it is a rebuild of its key, and where that fails everything stays as it
is. -/
structure Takes (c : Config) (around : Surroundings answering σ) (s : σ) (visit : Visit) (s' : σ) :
    Prop where
  runs : (rebuild c visit.key).Runs visit.exchanges (some visit.result)
  follows : around.Follows s visit.exchanges s'
  spares : Spares (around.world s) visit.exchanges visit.result (around.world s')

/-- What a sweep does once it knows the keys. -/
structure Swept (c : Config) (ns : Namespace) (around : Surroundings answering σ) (s : σ)
    (keys : List Key) (xs : List Exchange) (ending : Except Failure SweepSummary) (s' : σ) :
    Prop where
  visits : ∃ visits offered between, xs = exchanged visits ++ offered ∧ Passes keys visits ending ∧
    InTurn (Takes c around) s visits between ∧ around.Follows between offered s' ∧
    (around.world s').entries = (around.world between).entries ∧
    ∀ x ∈ offered, x.offer?.isSome = true
  counts : ∀ summary, ending = .ok summary →
    summary.rebuilt + summary.skipped.length = keys.length
  offers : (offers xs).map (·.1) =
    if ns = .collections ∧ ending.isOk = true then [.sweep .autoCollects] else []
  rebuilds : (around.world s').rebuilds =
    (around.world s).rebuilds ++ ((Exchange.offers xs).filter (·.2)).map (·.1)
  patches : (around.world s').patches = (around.world s).patches

variable {around : Surroundings answering σ} {s s' : σ} {visits : List Visit}

theorem takes_of_follows
    (each : ∀ visit ∈ visits, (rebuild c visit.key).Runs visit.exchanges (some visit.result))
    (follows : around.Follows s (exchanged visits) s') : InTurn (Takes c around) s visits s' := by
  refine (inTurn_of_follows each follows).mono ?_
  rintro s visit s' ⟨runs, own⟩
  have met := Surroundings.Follows.meets own
  exact ⟨runs, own, (writesLast_rebuild c visit.key).spares runs met⟩

theorem queues_of_takes (takes : InTurn (Takes c around) s visits s') :
    offers (exchanged visits) = [] ∧
      (around.world s').rebuilds = (around.world s).rebuilds ∧
      (around.world s').patches = (around.world s).patches := by
  induction takes with
  | nil => exact ⟨rfl, rfl, rfl⟩
  | cons first _ ih =>
    obtain ⟨none, rebuilds, patches⟩ := ih
    refine ⟨?_, rebuilds.trans first.spares.rebuilds, patches.trans first.spares.patches⟩
    rw [exchanged, List.flatMap_cons, offers, List.filterMap_append]
    exact List.append_eq_nil_iff.mpr ⟨first.spares.offersNone, none⟩

theorem counts_of_passes {keys : List Key} {ending : Except Failure SweepSummary}
    (passes : Passes keys visits ending) {summary : SweepSummary} (done : ending = .ok summary) :
    summary.rebuilt + summary.skipped.length = keys.length := by
  cases passes with
  | completed =>
    cases done
    rw [summary_counts, List.length_map]
  | aborted => cases done

theorem runs_followUp {summary : SweepSummary} {xs : List Exchange}
    {ending : Except Failure SweepSummary}
    (runs : (do
      if ns = .collections then
        let _ ← offerRebuild (.sweep .autoCollects)
      return summary : Program SweepSummary).Runs xs (some ending)) :
    ending = .ok summary ∧ (ns = .collections ∧
        (∃ taken : Bool, xs = [⟨.offerRebuild (.sweep .autoCollects), taken⟩]) ∨
      ns ≠ .collections ∧ xs = []) := by
  split at runs
  · rename_i embedded
    rcases runs_bind.mp runs with ⟨_, _, _, rfl, offers, ends⟩ | ⟨_, _, offers⟩
    · obtain ⟨taken, rfl, _⟩ := runs_offerRebuild.mp offers
      obtain ⟨rfl, rfl⟩ := runs_done.mp ends
      exact ⟨rfl, .inl ⟨embedded, taken, rfl⟩⟩
    · obtain ⟨_, _, impossible⟩ := runs_offerRebuild.mp offers
      cases impossible
  · rename_i plain
    obtain ⟨rfl, rfl⟩ := runs_done.mp runs
    exact ⟨rfl, .inr ⟨plain, rfl⟩⟩

theorem swept_of_runs {keys : List Key} {xs : List Exchange} {ending : Except Failure SweepSummary}
    (runs : (do
      let summary ← rebuildEach c keys ⟨0, []⟩
      if ns = .collections then
        let _ ← offerRebuild (.sweep .autoCollects)
      return summary : Program SweepSummary).Runs xs (some ending))
    (follows : around.Follows s xs s') : Swept c ns around s keys xs ending s' := by
  have unchanged : ∀ passed : Except Failure SweepSummary,
      passed.map (SweepSummary.plus ⟨0, []⟩) = passed := by
    intro passed
    cases passed <;> simp [Except.map, SweepSummary.plus]
  rcases runs_bind.mp runs with ⟨summary, _, _, rfl, each, ends⟩ | ⟨failure, rfl, each⟩
  · obtain ⟨visits, passed, passes, same, rfl, ran⟩ := runs_rebuildEach each
    rw [unchanged] at same
    subst same
    obtain ⟨between, own, others⟩ := follows_append.mp follows
    have takes := takes_of_follows ran own
    obtain ⟨none, rebuilds, patches⟩ := queues_of_takes takes
    have before (offered : List Exchange) :
        offers (exchanged visits ++ offered) = offers offered := by
      rw [offers, List.filterMap_append]
      exact (congrArg (· ++ _) none).trans (List.nil_append _)
    obtain ⟨rfl, ⟨embedded, taken, rfl⟩ | ⟨plain, rfl⟩⟩ := runs_followUp ends
    · cases others with | cons offer rest =>
      cases rest
      have met := around.meets (.offerRebuild (.sweep .autoCollects)) between
      rw [offer] at met
      have offered := met.offerRebuild
      refine ⟨⟨visits, _, between, rfl, passes, takes, .cons offer (.nil _), ?_, ?_⟩,
        fun _ => counts_of_passes passes, ?_, ?_, ?_⟩
      · rw [offered]
      · exact List.forall_mem_singleton.mpr rfl
      · rw [before]
        simp [embedded, Except.isOk, Except.toBool, offers, offer?]
      · rw [before, offered, rebuilds]
        cases taken <;> simp [offers, offer?]
      · rw [offered, patches]
    · cases others
      refine ⟨⟨visits, [], _, rfl, passes, takes, .nil _, rfl, List.forall_mem_nil _⟩,
        fun _ => counts_of_passes passes, ?_, ?_, patches⟩
      · rw [before]
        simp [plain, offers]
      · rw [before, rebuilds]
        simp [offers]
  · obtain ⟨visits, passed, passes, same, rfl, ran⟩ := runs_rebuildEach each
    rw [unchanged] at same
    subst same
    have takes := takes_of_follows ran follows
    obtain ⟨none, rebuilds, patches⟩ := queues_of_takes takes
    refine ⟨⟨visits, [], s', by simp, passes, takes, .nil s', rfl, List.forall_mem_nil _⟩,
      fun _ => counts_of_passes passes, ?_, ?_, patches⟩
    · simp [none, Except.isOk, Except.toBool]
    · simp [none, rebuilds]

/-- A sweep always ends. If the source does not list the keys it fails before anything else;
otherwise it goes through the keys in turn. -/
theorem sweep_effects (around : Surroundings answering σ) (c : Config) (ns : Namespace) (s : σ) :
    ∃ xs ending s', (sweep c ns).Runs xs (some ending) ∧ around.Follows s xs s' ∧
      ∃ asked rest listing listed, xs = asked ++ rest ∧
        (expectedKeys ns).Runs asked (some listing) ∧ (∀ x ∈ asked, x.isQuestion = true) ∧
        around.Follows s asked listed ∧ around.world listed = around.world s ∧
        (∀ failure, listing = .error failure →
          (∃ reason, failure = .source ns.name (.backend reason)) ∧
            rest = [] ∧ ending = .error failure ∧ s' = listed) ∧
        ∀ keys, listing = .ok keys → Swept c ns around listed keys rest ending s' := by
  obtain ⟨xs, ending, s', runs, follows⟩ := around.exists_runs (sweep c ns) s
  refine ⟨xs, ending, s', runs, follows, ?_⟩
  rcases runs_bind.mp runs with ⟨keys, asked, rest, rfl, lists, goesOn⟩ | ⟨failure, rfl, lists⟩
  · obtain ⟨quiet, _⟩ := runs_expectedKeys lists
    obtain ⟨listed, asks, others⟩ := follows_append.mp follows
    have same := World.eq_of_questions quiet (Surroundings.Follows.meets asks)
    refine ⟨asked, rest, .ok keys, listed, rfl, lists, quiet, asks, same, nofun, ?_⟩
    rintro _ ⟨⟩
    exact swept_of_runs goesOn others
  · obtain ⟨quiet, faults⟩ := runs_expectedKeys lists
    have same := World.eq_of_questions quiet follows.meets
    refine ⟨xs, [], .error failure, s', (List.append_nil xs).symm, lists, quiet, follows, same, ?_,
      nofun⟩
    rintro _ ⟨⟩
    exact ⟨faults failure rfl, rfl, rfl, rfl⟩

end Cache

end CacheAside
