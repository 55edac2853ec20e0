import CacheAside.Proofs.Cache.Offering
import CacheAside.Proofs.Cache.SweepJobs

namespace CacheAside

namespace Exchange

/-- The rebuilds that their queue took. -/
def queued (xs : List Exchange) : List Rebuild := ((offers xs).filter (·.2)).map (·.1)

theorem queued_cons (x : Exchange) (xs : List Exchange) :
    queued (x :: xs) = queued [x] ++ queued xs := by
  rw [← List.singleton_append]
  simp only [queued, offers, List.filterMap_append, List.filter_append, List.map_append]

end Exchange

theorem World.Meets.queued {answering : Answering} {w w' : World} {x : Exchange}
    (met : w.Meets answering x w') : w'.rebuilds = w.rebuilds ++ Exchange.queued [x] := by
  cases met with
  | rebuildTaken => rfl
  | _ => exact (List.append_nil _).symm

theorem World.queued_of_follows {answering : Answering} {w w' : World} {xs : List Exchange}
    (follows : Exchange.Follows (World.Meets answering) w xs w') :
    w'.rebuilds = w.rebuilds ++ Exchange.queued xs := by
  induction follows with
  | nil w => exact (List.append_nil _).symm
  | cons first _ ih =>
    rw [ih, first.queued, List.append_assoc, ← Exchange.queued_cons]

theorem Rebuild.target?_eq_some {job : Rebuild} {key : Key} (about : job.target? = some key) :
    job.isSweep = false ∧ key = job.key := by
  unfold target? at about
  split at about
  · cases about
  · exact ⟨Bool.eq_false_iff.mpr ‹_›, (Option.some.inj about).symm⟩

namespace Cache

open Program Exchange

variable {c : Config} {job : Rebuild} {key : Key} {ns : Namespace} {xs : List Exchange}

/-- A job about one key: carrying it out has the exchanges of a rebuild of the key, so that it makes
the same calls, leaves the store the same and fails in the same way. -/
structure Addresses (c : Config) (job : Rebuild) (key : Key) : Prop where
  single : job.isSweep = false
  target : job.target? = some key
  runs : ∀ xs ending, (carryOut c job).Runs xs (some ending) ↔
    ∃ result, (rebuild c key).Runs xs (some result) ∧ ending = result.map fun _ => ()

def Sweeps (c : Config) (job : Rebuild) : Prop :=
  ∀ xs ending, (carryOut c job).Runs xs (some ending) ↔
    ∃ summary, (sweep c job.ns).Runs xs (some summary) ∧ ending = summary.map fun _ => ()

structure Requests (c : Config) (key : Key) (xs : List Exchange) : Prop where
  addressed : ∀ offered ∈ offers xs, Addresses c offered.1 key
  refused : ¬ key.Valid → offers xs = []

theorem addresses_of_target (about : job.target? = some key) : Addresses c job key where
  single := (Rebuild.target?_eq_some about).1
  target := about
  runs xs ending := by
    rw [carryOut_of_target about]
    exact runs_andReturn

theorem requests_of_offered {taken : Bool} (valid : key.Valid)
    (offered : offers xs = [(.ofKey key, taken)]) : Requests c key xs where
  addressed := by
    rw [offered]
    exact List.forall_mem_singleton.mpr (addresses_of_target (Rebuild.target?_ofKey valid))
  refused invalid := absurd valid invalid

theorem requests_of_silent (silent : offers xs = []) : Requests c key xs where
  addressed := by
    rw [silent]
    exact List.forall_mem_nil _
  refused _ := silent

theorem offers_miss {taken : Bool} {ys : List Exchange} {derived : Except Failure Json}
    (derives : (derive c key).Runs ys (some derived)) :
    offers (⟨.offerRebuild (.ofKey key), taken⟩ :: ys) = [(.ofKey key, taken)] :=
  congrArg ((Rebuild.ofKey key, taken) :: ·) (offers_of_questions (questions_of_derives derives).1)

theorem Reads.requests {ending : Except Failure Reading} (reads : Reads c key xs ending) :
    Requests c key xs := by
  cases reads with
  | refused | hit => exact requests_of_silent rfl
  | @miss ys _ valid taken derives =>
    have offered : offers (⟨.store (.get key.text), .ok none⟩ ::
        ⟨.offerRebuild (.ofKey key), taken⟩ :: ys) = [(.ofKey key, taken)] := offers_miss derives
    exact requests_of_offered valid offered
  | @unreadable text ys _ valid _ erased taken derives =>
    have offered : offers (⟨.store (.get key.text), .ok (some text)⟩ ::
        ⟨.store (.erase key.text), erased⟩ :: ⟨.offerRebuild (.ofKey key), taken⟩ :: ys) =
        [(.ofKey key, taken)] := offers_miss derives
    exact requests_of_offered valid offered
  | @outOfReach reason ys _ _ derives =>
    have quiet : offers ys = [] := offers_of_questions (questions_of_derives derives).1
    have silent : offers (⟨.store (.get key.text), .error reason⟩ :: ys) = [] := quiet
    exact requests_of_silent silent

theorem runs_request {ending : Except Failure Unit}
    (runs : (request c job).Runs xs (some ending)) :
    ∃ taken, offers xs = [(job, taken)] ∧ (ending = .ok () → taken = true) := by
  rcases runs_bind.mp runs with ⟨taken, _, rest, rfl, offer, goesOn⟩ | ⟨_, _, offer⟩
  · obtain ⟨_, rfl, same⟩ := runs_offerRebuild.mp offer
    cases same
    cases taken <;>
    · obtain ⟨rfl, rfl⟩ := runs_done.mp goesOn
      exact ⟨_, rfl, by simp⟩
  · obtain ⟨_, _, impossible⟩ := runs_offerRebuild.mp offer
    cases impossible

theorem runs_requestRebuild {ending : Except Failure Unit}
    (runs : (requestRebuild c key).Runs xs (some ending)) : Requests c key xs := by
  rcases runs_checked.mp runs with ⟨valid, requests⟩ | ⟨_, _, rfl, _⟩
  · obtain ⟨taken, offered, _⟩ := runs_request requests
    exact requests_of_offered valid offered
  · exact requests_of_silent rfl

theorem runs_requestEach {keys : List Key} {ending : Except Failure Unit}
    (runs : (requestEach c keys).Runs xs (some ending)) :
    (offers xs).map (·.1) <+: keys.map .ofKey ∧
      (ending = .ok () → offers xs = keys.map fun key => (.ofKey key, true)) := by
  induction keys generalizing xs with
  | nil =>
    obtain ⟨rfl, rfl⟩ := runs_done.mp runs
    exact ⟨List.nil_prefix, fun _ => rfl⟩
  | cons key keys ih =>
    rcases runs_bind.mp runs with ⟨_, first, rest, rfl, requests, others⟩ | ⟨_, rfl, requests⟩
    · obtain ⟨taken, offered, went⟩ := runs_request requests
      cases went rfl
      obtain ⟨inOrder, all⟩ := ih others
      have split : offers (first ++ rest) = (.ofKey key, true) :: offers rest := by
        rw [offers, List.filterMap_append]
        exact congrArg (· ++ _) offered
      rw [split]
      exact ⟨List.prefix_cons_inj _ |>.mpr inOrder, fun done => congrArg _ (all done)⟩
    · obtain ⟨taken, offered, _⟩ := runs_request requests
      rw [offered]
      refine ⟨List.prefix_cons_inj _ |>.mpr List.nil_prefix, fun impossible => ?_⟩
      cases impossible

/-- What is offered for the keys of a namespace: jobs about them in their order, one for each unless
the queue takes no more. -/
structure RequestsEach (c : Config) (keys : List Key) (xs : List Exchange)
    (ending : Except Failure Nat) : Prop where
  addressed : ∀ key ∈ keys, Addresses c (.ofKey key) key
  inOrder : (offers xs).map (·.1) <+: keys.map .ofKey
  complete : ∀ count, ending = .ok count → offers xs = keys.map fun key => (.ofKey key, true)

theorem keeps_expectedKeys (ns : Namespace) :
    (expectedKeys ns).Keeps questionsOnly
      (fun keys => ∀ key ∈ keys, key.id.isSome = true ∨ key.ns.isSingle = true)
      (fun _ => True) := by
  have named (ids : List String) :
      ∀ key ∈ ids.map (Key.of ns), key.id.isSome = true ∨ key.ns.isSingle = true :=
    List.forall_mem_map.mpr fun _ _ => .inl rfl
  have asked (question : Question) : questionsOnly.asks (.source question) := ⟨question, rfl⟩
  unfold expectedKeys
  split
  · rename_i alone
    refine List.forall_mem_singleton.mpr (.inr ?_)
    simp [Key.only, Namespace.isSingle, alone]
  · exact (keeps_source (asked .tokens) fun _ => True.intro).bind fun ids _ => named ids
  · refine (keeps_source (asked .users) fun _ => True.intro).bind fun ids _ => ?_
    change ∀ key ∈ (if ns = .insights then ids.map (.of ns) ++ [.of ns everyone]
      else ids.map (.of ns) : List Key), _
    split
    · exact List.forall_mem_append.mpr
        ⟨named ids, List.forall_mem_singleton.mpr (.inl rfl)⟩
    · exact named ids

theorem runs_requestAll {ending : Except Failure Nat}
    (runs : (requestAll c ns).Runs xs (some ending)) :
    ∃ asked rest listing, xs = asked ++ rest ∧ (expectedKeys ns).Runs asked (some listing) ∧
      (∀ failure, listing = .error failure → offers xs = []) ∧
      ∀ keys, listing = .ok keys → RequestsEach c keys xs ending := by
  rcases runs_bind.mp runs with ⟨keys, asked, rest, rfl, lists, goesOn⟩ | ⟨failure, rfl, lists⟩
  · obtain ⟨quiet, _⟩ := runs_expectedKeys lists
    have split : offers (asked ++ rest) = offers rest := by
      rw [offers, List.filterMap_append]
      exact (congrArg (· ++ _) (offers_of_questions quiet)).trans (List.nil_append _)
    obtain ⟨_, named⟩ := (keeps_expectedKeys ns).ends lists fun _ _ => True.intro
    have addressed : ∀ key ∈ keys, Addresses c (.ofKey key) key := fun key there =>
      addresses_of_target (Rebuild.target?_ofKey_of_named (named key there))
    obtain ⟨result, requests, rfl⟩ := runs_andReturn.mp goesOn
    obtain ⟨inOrder, complete⟩ := runs_requestEach requests
    rw [← split] at inOrder complete
    refine ⟨asked, rest, .ok keys, rfl, lists, fun _ impossible => ?_, ?_⟩
    · cases impossible
    · rintro _ ⟨⟩
      refine ⟨addressed, inOrder, fun count done => complete ?_⟩
      cases result with
      | ok => rfl
      | error => cases done
  · obtain ⟨quiet, _⟩ := runs_expectedKeys lists
    have silent : offers xs = [] := offers_of_questions quiet
    refine ⟨xs, [], .error failure, (List.append_nil xs).symm, lists, fun _ _ => silent, ?_⟩
    rintro _ ⟨⟩

theorem behind_of_rebuild {ending : Except Failure Json}
    (runs : (rebuild c key).Runs xs (some ending)) :
    ∀ question ∈ questions xs, Behind c key question := by
  let terms : Terms :=
    asking fun request => ∀ question, request = .source question → Behind c key question
  have derives : Abides terms (derive c key) := by
    apply abides_derive
    rintro question behind _ ⟨⟩
    exact behind
  have saves (v : Json) : Abides terms (save c key v) := by
    refine abides_save ?_ ?_ (fun _ _ => ?_) fun _ => ?_
    all_goals rintro _ ⟨⟩
  have abides : Abides terms (rebuild c key) :=
    (abides_check key).andThen fun _ => derives.andThen saves
  obtain ⟨asked, _⟩ := abides.ends runs fun _ _ => True.intro
  intro question there
  obtain ⟨⟨request, reply⟩, exchanged, same⟩ := List.mem_filterMap.mp there
  cases request with
  | source =>
    cases same
    exact asked _ exchanged question rfl
  | _ => cases same

theorem not_sweeps_of_several (about : job.target? = some job.key)
    (several : job.ns.isSingle = false) : ¬ Sweeps c job := by
  intro sweeps
  have listing : ∃ question : Question, ¬ Behind c job.key question ∧
      (sweep c job.ns).Runs [⟨.source question, .error ""⟩]
        (some (.error (.source job.ns.name (.backend "")))) := by
    obtain ⟨ns, id⟩ := job
    cases ns with
    | state => cases several
    | shareLinks => exact ⟨.tokens, nofun, .ask _ (.done _)⟩
    | _ => exact ⟨.users, nofun, .ask _ (.done _)⟩
  obtain ⟨question, foreign, runs⟩ := listing
  have carried := (sweeps _ _).mpr ⟨_, runs, rfl⟩
  obtain ⟨_, rebuilds, _⟩ := ((addresses_of_target about).runs _ _).mp carried
  exact foreign (behind_of_rebuild rebuilds question List.mem_cons_self)

theorem not_sweeps_of_single (about : job.target? = some job.key)
    (single : job.ns.isSingle = true) : ¬ Sweeps c job := by
  intro sweeps
  have runs := (addresses_of_target (c := c) about).runs
  obtain ⟨ns, id⟩ := job
  cases ns with
  | state =>
    cases id with
    | none =>
      have fails : (rebuild c (.only .state)).Runs [⟨.source .state, .error ""⟩]
          (some (.error (.source (Key.only .state).text (.backend "")))) := .ask _ (.done _)
      have carried := (runs _ _).mpr ⟨_, fails, rfl⟩
      obtain ⟨summary, swept, same⟩ := (sweeps _ _).mp carried
      obtain ⟨_, _, ⟨⟩, ends⟩ := runs_ask.mp swept
      obtain ⟨_, rfl⟩ := runs_done.mp ends
      cases same
    | some id =>
      have fails : (rebuild c (.of .state id)).Runs []
          (some (.error (.invalidKey (.unexpectedIdentifier .state)))) := .done _
      have carried := (runs _ _).mpr ⟨_, fails, rfl⟩
      obtain ⟨_, swept, _⟩ := (sweeps _ _).mp carried
      obtain ⟨_, _, impossible, _⟩ := runs_ask.mp swept
      cases impossible
  | _ => cases single

theorem sweeps_iff : Sweeps c job ↔ job.id = none ∧ job.ns.isSingle = false := by
  constructor
  · intro sweeps
    cases about : job.target? with
    | some key =>
      obtain ⟨_, rfl⟩ := Rebuild.target?_eq_some about
      cases single : job.ns.isSingle with
      | true => exact absurd sweeps (not_sweeps_of_single about single)
      | false => exact absurd sweeps (not_sweeps_of_several about single)
    | none =>
      unfold Rebuild.target? Rebuild.isSweep at about
      simpa using about
  · rintro ⟨unnamed, several⟩
    have all : job.target? = none := by simp [Rebuild.target?, Rebuild.isSweep, unnamed, several]
    intro xs ending
    simp only [carryOut, all]
    exact runs_andReturn

/-- Whatever is replied to them, a read and a request for one key offer the queue no jobs but about
that key, and none for a key that is not valid; a request for all keys of a namespace offers jobs
about the keys that are listed, in their order. What the queue holds afterwards are the jobs that it
took. A job about a key is no sweep and is carried out as a rebuild of the key; a sweep takes a job
without an identifier, in a namespace that has several entries. -/
theorem request_never_sweeps (c : Config) :
    (∀ key xs ending, (read c key).Runs xs (some ending) → Requests c key xs) ∧
    (∀ key xs ending, (requestRebuild c key).Runs xs (some ending) → Requests c key xs) ∧
    (∀ ns xs ending, (requestAll c ns).Runs xs (some ending) →
      ∃ asked rest listing, xs = asked ++ rest ∧ (expectedKeys ns).Runs asked (some listing) ∧
        (∀ failure, listing = .error failure → offers xs = []) ∧
        ∀ keys, listing = .ok keys → RequestsEach c keys xs ending) ∧
    (∀ answering w xs w', Follows (World.Meets answering) w xs w' →
      w'.rebuilds = w.rebuilds ++ queued xs) ∧
    ∀ job, Sweeps c job ↔ job.id = none ∧ job.ns.isSingle = false :=
  ⟨fun _ _ _ runs => (reads_of_runs runs).requests, fun _ _ _ => runs_requestRebuild,
    fun _ _ _ => runs_requestAll, fun _ _ _ _ => World.queued_of_follows, fun _ => sweeps_iff⟩

/-- The only entry of its namespace has no identifier, nor has the job that is queued on a miss. A
listing without an identifier is not requested, and of two users one without a name is. -/
theorem request_never_sweeps_unnamed :
    Addresses .standard (.ofKey (.only .state)) (.only .state) ∧
    Requests .standard (.only .collections) [] ∧
    RequestsEach .standard [.of .userStats "7", .of .userStats ""]
      [⟨.source .users, .ok ["7", ""]⟩, ⟨.offerRebuild ⟨.userStats, some "7"⟩, true⟩,
        ⟨.offerRebuild ⟨.userStats, some ""⟩, true⟩] (.ok 2) ∧
    Sweeps .standard (.sweep .userStats) := by
  obtain ⟨reads, requests, requestsAll, _, sweeps⟩ := request_never_sweeps .standard
  have misses : (read .standard (.only .state)).Runs
      [⟨.store (.get "state"), .ok none⟩, ⟨.offerRebuild (.ofKey (.only .state)), true⟩,
        ⟨.source .state, .error ""⟩]
      (some (.error (.source "state" (.backend "")))) :=
    .ask _ (.ask _ (.ask _ (.done _)))
  have refuses : (requestRebuild .standard (.only .collections)).Runs []
      (some (.error (.invalidKey (.missingIdentifier .collections)))) := .done _
  have takes : (requestAll .standard .userStats).Runs
      [⟨.source .users, .ok ["7", ""]⟩, ⟨.offerRebuild ⟨.userStats, some "7"⟩, true⟩,
        ⟨.offerRebuild ⟨.userStats, some ""⟩, true⟩] (some (.ok 2)) :=
    .ask _ (.ask _ (.ask _ (.done _)))
  obtain ⟨asked, rest, _, split, lists, _, each⟩ := requestsAll _ _ _ takes
  obtain ⟨reply, others, rfl, told⟩ := runs_ask.mp lists
  obtain ⟨same, _⟩ := List.cons.inj split
  cases same
  obtain ⟨_, rfl⟩ := runs_done.mp told
  exact ⟨(reads _ _ _ misses).addressed (_, true) List.mem_cons_self, requests _ _ _ refuses,
    each _ rfl, (sweeps _).mpr ⟨rfl, rfl⟩⟩

end Cache

end CacheAside
