import CacheAside.Proofs.Cache.Operations
import CacheAside.Proofs.World

namespace CacheAside

namespace Cache

open Program Simulation

/-- A source that gives one value for each valid key whenever it gives any. It may fail at any time
or not know of an entity, and it may list other identifiers each time. -/
def Settled (c : Config) (answering : Answering) (truth : Key → Option Json) : Prop :=
  ∀ key : Key, key.Valid → ∀ xs v, (derive c key).Runs xs (some (.ok v)) →
    (∀ question answer, ⟨.source question, answer⟩ ∈ xs → answering question answer) →
    truth key = some v

def Exact (truth : Key → Option Json) : Prop :=
  ∀ key : Key, key.Valid → ∀ v, truth key = some v → v.Integral ∧ v.Sorted

def Agrees (c : Config) (truth : Key → Option Json) (key : Key) (value : Json) : Prop :=
  ∃ v, truth key = some v ∧ payload c value = payload c v

def TextAgrees (c : Config) (truth : Key → Option Json) (key : Key) (text : String) : Prop :=
  ∀ value, Json.ofText? text = some value → Agrees c truth key value

/-- Every text at a valid key says what the source says, if it can be read. -/
def Faithful (c : Config) (truth : Key → Option Json) (w : World) : Prop :=
  ∀ key : Key, key.Valid → ∀ text, w.stored? key = some text → TextAgrees c truth key text

def faithfully (c : Config) (answering : Answering) (truth : Key → Option Json) : Terms where
  asks
    | .store (.set name text _) =>
      ∀ key : Key, key.Valid → key.text = name → TextAgrees c truth key text
    | _ => True
  replies
    | .store (.get name), .ok (some text) =>
      ∀ key : Key, key.Valid → key.text = name → TextAgrees c truth key text
    | .source question, answer => answering question answer
    | _, _ => True

theorem settled_of_steady (c : Config) (answers : Answers) :
    Settled c answers.Steady (answers.value? c) := by
  intro key _ xs v runs within
  have keeps : (derive c key).Keeps answers.steadily ((derive c key).Gives answers) fun _ => True :=
    (lookups_derive c key).keeps_steady (fun _ => True.intro) (fun _ _ may => may)
      fun _ => True.intro
  have replied : ∀ x ∈ xs, answers.steadily.replies x.request x.reply := by
    intro x there
    obtain ⟨request, reply⟩ := x
    cases request with
    | source question => exact within question reply there
    | _ => exact True.intro
  exact Answers.value?_eq_some (keeps.ends runs replied).2

variable {c : Config} {answering : Answering} {truth : Key → Option Json} {key : Key} {v : Json}

theorem obliging_faithfully : Obliging (faithfully c answering truth) :=
  ⟨fun _ => True.intro, fun _ => True.intro, fun _ => True.intro, fun _ => True.intro,
    fun _ => True.intro, True.intro⟩

theorem granted_faithfully (key : Key) : Granted (faithfully c answering truth) c key :=
  ⟨True.intro, True.intro, fun _ => True.intro, True.intro, fun _ agrees => agrees⟩

theorem Exact.writable (exactly : Exact truth) (valid : key.Valid) (value : truth key = some v) :
    Writable (faithfully c answering truth) c key v := by
  obtain ⟨integral, sorted⟩ := exactly key valid v value
  intro time other _ same
  rw [Key.text_injective same]
  intro read found
  rw [ofText?_written integral sorted] at found
  split at found
  · cases found
    exact ⟨v, value, payload_written c time v⟩
  · cases found

theorem Settled.truth_of_derivable (settled : Settled c answering truth) (valid : key.Valid)
    (derived : Derivable (faithfully c answering truth) c key v) : truth key = some v := by
  obtain ⟨xs, runs, replied⟩ := derived
  apply settled key valid xs v runs
  intro question answer there
  exact replied ⟨.source question, answer⟩ there

theorem Settled.rebuild (settled : Settled c answering truth) (exactly : Exact truth) (key : Key) :
    Abides (faithfully c answering truth) (Cache.rebuild c key) :=
  (granted_faithfully key).rebuild fun valid _ derived =>
    exactly.writable valid (settled.truth_of_derivable valid derived)

theorem keeps_read (settled : Settled c answering truth) :
    (read c key).Keeps (faithfully c answering truth)
      (fun reading => Agrees c truth key reading.value) fun _ => True := by
  apply (keeps_check fun _ _ => True.intro).bind
  intro _ valid
  have answer : ∀ provenance : Provenance, (do
      return ⟨← derive c key, provenance⟩ : Program Reading).Keeps (faithfully c answering truth)
        (fun reading => Agrees c truth key reading.value) fun _ => True := by
    intro provenance
    apply (keeps_derive_within fun _ => True.intro).bind
    intro v derived
    exact ⟨v, settled.truth_of_derivable valid derived, rfl⟩
  apply (keeps_load_within True.intro True.intro).attempt.bind
  intro found told
  cases found with
  | error failure => exact answer .bypassed
  | ok found =>
    cases found with
    | some value =>
      obtain ⟨text, agrees, parsed⟩ := told value rfl
      exact agrees key valid rfl value parsed
    | none =>
      apply (keeps_offerRebuild True.intro).bind
      intro _ _
      exact answer .derived

/-- Every operation but an edit keeps the store faithful, and a read answers what the source
says. -/
theorem keeps_operation (settled : Settled c answering truth) (exactly : Exact truth)
    {operation : Operation} (unedited : ∀ job, operation ≠ .editAll job) :
    (operation.program c).Keeps (faithfully c answering truth)
      (fun answer => ∀ key reading, operation = .read key → answer = .reading reading →
        Agrees c truth key reading.value) fun _ => True := by
  by_cases reads : ∃ key, operation = .read key
  · obtain ⟨key, rfl⟩ := reads
    apply (keeps_read settled).bind
    intro reading agrees key' reading' sameKey sameReading
    cases sameKey
    cases sameReading
    exact agrees
  · have abides : Abides (faithfully c answering truth) (operation.program c) :=
      obliging_faithfully.operation (settled.rebuild exactly)
        (fun job edits => absurd edits (unedited job)) fun _ _ => True.intro
    exact abides.mono (fun _ _ key _ isRead => absurd ⟨key, isRead⟩ reads) fun _ failed => failed

theorem Faithful.lapses {w w' : World} (faithful : Faithful c truth w) (passed : w.Lapses w') :
    Faithful c truth w' := fun key valid text found =>
  faithful key valid text (passed.stored? found)

theorem stable_faithfully :
    Stable answering (faithfully c answering truth) (Faithful c truth) where
  lapses _ _ faithful passed := faithful.lapses passed
  replied w x w' faithful met := by
    cases met with
    | served call =>
      cases call with
      | get name =>
        cases found : w.entries.find? w.now name with
        | none => simp only [faithfully, Entries.serve, found]
        | some text =>
          simp only [faithfully, Entries.serve, found]
          intro key valid same
          subst same
          exact faithful key valid text found
      | _ => exact True.intro
    | failed call reason => cases call <;> exact True.intro
    | answered may => exact may
    | _ => exact True.intro
  kept w x w' faithful asked met := by
    intro key valid text found
    rcases met.stored? found with before | ⟨lifetime, set⟩
    · exact faithful key valid text before
    · rw [set] at asked
      exact asked key valid rfl

theorem faithful_of_runs (settled : Settled c answering truth) (exactly : Exact truth)
    {operation : Operation} (unedited : ∀ job, operation ≠ .editAll job) {w w' : World}
    {xs : List Exchange} {result : Option (Except Failure Answer)} (faithful : Faithful c truth w)
    (runs : (operation.program c).Runs xs result)
    (follows : Exchange.Follows (World.Passes answering) w xs w') :
    Faithful c truth w' ∧ ∀ key reading, operation = .read key →
      result = some (.ok (.reading reading)) → Agrees c truth key reading.value := by
  have keeps := keeps_operation settled exactly unedited
  obtain ⟨after, answers, _⟩ := stable_faithfully.run keeps faithful runs follows
  refine ⟨after, ?_⟩
  intro key reading isRead answered
  exact answers _ answered key reading isRead rfl

/-- Whatever was done to a cache over a source that never changes its mind, and wherever it was
broken off, every entry that can be read says what the source says, and so does every answer that a
reader was given. -/
theorem faithful_of_history (settled : Settled c answering truth) (exactly : Exact truth)
    {w w' : World} {events : List Event} (history : History c answering w events w')
    (faithful : Faithful c truth w)
    (unedited : ∀ event ∈ events, ∀ job, event.operation ≠ .editAll job) :
    Faithful c truth w' ∧
      ∀ key reading, ⟨.read key, some (.ok (.reading reading))⟩ ∈ events →
        Agrees c truth key reading.value := by
  induction history with
  | nil w => exact ⟨faithful, nofun⟩
  | lapse passed rest ih => exact ih (faithful.lapses passed) unedited
  | perform runs follows rest ih =>
    obtain ⟨first, others⟩ := List.forall_mem_cons.mp unedited
    obtain ⟨after, answers⟩ := faithful_of_runs settled exactly first faithful runs follows
    obtain ⟨last, later⟩ := ih after others
    refine ⟨last, ?_⟩
    intro key reading there
    rcases List.mem_cons.mp there with same | there
    · cases same
      exact answers key reading rfl rfl
    · exact later key reading there
  | @workRebuild w _ _ before behind _ _ _ _ queued runs follows rest ih =>
    obtain ⟨first, others⟩ := List.forall_mem_cons.mp unedited
    have taken : Faithful c truth { w with rebuilds := before ++ behind } := faithful
    obtain ⟨after, _⟩ := faithful_of_runs settled exactly first taken runs follows
    obtain ⟨last, later⟩ := ih after others
    refine ⟨last, ?_⟩
    intro key reading there
    rcases List.mem_cons.mp there with same | there
    · cases same
    · exact later key reading there
  | workPatch queued runs follows rest ih =>
    exact absurd rfl (unedited _ List.mem_cons_self _)

theorem exact_statistics {v : Json} (integral : v.Integral) (sorted : v.Sorted)
    (covered : c.periods ≠ []) : Exact ((Answers.statistics v).value? c) := by
  intro key _ value gives
  obtain ⟨ns, id⟩ := key
  cases ns with
  | userStats =>
    cases gives
    exact ⟨integral, sorted⟩
  | insights =>
    obtain ⟨period, periods, some⟩ := List.exists_cons_of_ne_nil covered
    simp only [Answers.value?, derive, some] at gives
    cases gives
  | _ => cases gives

/-- A reader finds nothing, and a worker writes what the reader was told. -/
theorem faithful_after_work :
    let key := Key.of .userStats "7"
    let answers := Answers.statistics Json.uploads
    let events : List Event := [⟨.read key, some (.ok (.reading ⟨Json.uploads, .derived⟩))⟩,
      ⟨.carryOut (.ofKey key), some (.ok .done)⟩]
    ∃ w, History .standard answers.Steady .empty events w ∧
      Faithful .standard (answers.value? .standard) w ∧
      Agrees .standard (answers.value? .standard) key Json.uploads := by
  intro key answers events
  let stored := (stamped "_cachedAt" "2026" [("uploads", .nat 3)]).text
  let queued : World := { World.empty with rebuilds := [.ofKey key] }
  let healed : World := { World.empty with entries := Entries.empty.set 0 key.text stored none }
  let reading : List Exchange := [⟨.store (.get key.text), .ok none⟩,
    ⟨.offerRebuild (.ofKey key), true⟩, ⟨.source (.stats "7"), .ok (some Json.uploads)⟩]
  let working : List Exchange := [⟨.source (.stats "7"), .ok (some Json.uploads)⟩,
    ⟨.store (.get key.text), .ok none⟩, ⟨.timestamp, "2026"⟩,
    ⟨.store (.set key.text stored none), .ok ()⟩]
  have told : answers.Steady (.stats "7") (.ok (some Json.uploads)) := fun _ same => same
  have reads : ((Operation.read key).program .standard).Runs reading
      (some (.ok (.reading ⟨Json.uploads, .derived⟩))) := .ask _ (.ask _ (.ask _ (.done _)))
  have works : ((Operation.carryOut (.ofKey key)).program .standard).Runs working
      (some (.ok .done)) := .ask _ (.ask _ (.ask _ (.ask _ (.done _))))
  have first : Exchange.Follows (World.Passes answers.Steady) .empty reading queued :=
    .cons (World.Meets.served _ _).passes (.cons (World.Meets.rebuildTaken _ _).passes
      (.cons (World.Meets.answered _ told).passes (.nil _)))
  have second : Exchange.Follows (World.Passes answers.Steady)
      { queued with rebuilds := [] ++ [] } working healed :=
    .cons (World.Meets.answered _ told).passes (.cons (World.Meets.served _ _).passes
      (.cons (World.Meets.told _ _).passes (.cons (World.Meets.served _ _).passes (.nil _))))
  have history : History .standard answers.Steady .empty events healed :=
    .perform reads first (.workRebuild rfl works second (.nil healed))
  have faithful : Faithful .standard (answers.value? .standard) .empty := nofun
  have unedited : ∀ event ∈ events, ∀ job, event.operation ≠ .editAll job := by
    simp [events]
  have exactly : Exact (answers.value? .standard) :=
    exact_statistics Json.integral_uploads Json.sorted_uploads (List.cons_ne_nil _ _)
  obtain ⟨after, agree⟩ := faithful_of_history (settled_of_steady .standard answers) exactly
    history faithful unedited
  exact ⟨healed, history, after, agree key ⟨Json.uploads, .derived⟩ List.mem_cons_self⟩

end Cache

end CacheAside
