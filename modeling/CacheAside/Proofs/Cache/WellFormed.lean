import CacheAside.Proofs.Cache.Transparency
import CacheAside.Proofs.Course
import CacheAside.Proofs.Edits

namespace CacheAside

open Json (Fields)

structure Listable (v : Json) : Prop where
  integral : v.Integral
  sorted : v.Sorted
  shallow : v.depth + 1 ≤ Json.nestingLimit

namespace SharedCollection

variable {shared : SharedCollection}

theorem document_eq (p : Permissions) : p.document = .object [("configure", .bool p.configure),
    ("read", .bool p.read), ("write", .bool p.write)] := rfl

theorem sorted_document (p : Permissions) : p.document.Sorted := by
  rw [document_eq]
  refine ⟨?_, True.intro, True.intro, True.intro, True.intro⟩
  simp only [Fields.Ordered, List.pairwise_cons, List.forall_mem_cons]
  decide

theorem listable_copyFor (listable : Listable shared.collection) (member : Member) :
    Listable (shared.copyFor member) := by
  obtain ⟨collection, owner, members⟩ := shared
  cases collection with
  | object fields =>
    obtain ⟨integral, sorted, shallow⟩ := listable
    have integral_document : member.permissions.document.Integral :=
      ⟨True.intro, True.intro, True.intro, True.intro⟩
    refine ⟨Json.integralFields_insert integral_document integral,
      ⟨sorted.1.insert permissionsField _,
        Json.sortedFields_insert (sorted_document member.permissions) sorted.2⟩, ?_⟩
    have flat : member.permissions.document.depth ≤ 125 := by
      rw [document_eq]
      simp [Json.depth, Json.depthFields]
    have limit : Json.nestingLimit = 127 := rfl
    have shallow_fields : Json.depthFields fields ≤ 125 := by
      simp only [Json.depth] at shallow
      omega
    have copied : Json.depthFields
        (Fields.insert permissionsField member.permissions.document fields) ≤ 125 := by
      refine Json.depthFields_le_iff.mpr ?_
      exact Json.forall_mem_insert (p := fun v => v.depth ≤ 125) flat
        (Json.depthFields_le_iff.mp shallow_fields)
    simp only [copyFor, Json.depth]
    omega
  | _ => exact listable

end SharedCollection

namespace Cache

open Program Simulation

/-- A value that can be stored and read again: only integers, in objects that are maps, and the
entry is not nested too deep. -/
structure Storable (c : Config) (v : Json) : Prop where
  integral : v.Integral
  sorted : v.Sorted
  shallow : (payload c v).depth ≤ Json.nestingLimit

/-- A source whose values can be stored. It may fail at any time, not know of an entity and list
any identifiers, also empty ones. -/
structure Supplies (c : Config) (answering : Answering) : Prop where
  entries : ∀ key : Key, key.Valid → ∀ xs v, (derive c key).Runs xs (some (.ok v)) →
    (∀ question answer, ⟨.source question, answer⟩ ∈ xs → answering question answer) →
      Storable c v
  shared : ∀ id shared, answering (.collection id) (.ok (some shared)) → Listable shared.collection

/-- A patch whose values can be stored, and that puts nothing but lists in the place of lists. -/
def Sound (c : Config) (job : Patch) : Prop :=
  match job.edit with
  | .upsert entity => Listable entity
  | .replace value => Storable c value ∧ (job.ns.shape = .list → ∃ items, value = .array items)
  | .remove => True
  | .removeChild .. => True

def Brings (c : Config) : Operation → Prop
  | .editAll job => Sound c job
  | .submit job => Sound c job
  | _ => True

/-- A value that a reader of the namespace can make something of. -/
structure Proper (c : Config) (ns : Namespace) (v : Json) : Prop where
  listed : ns.shape = .list → ∃ items, v = .array items
  stamped : ∀ stampField fields, c.stampField = some stampField → v = .object fields →
    (Fields.find? fields stampField).isSome

def Formed (c : Config) (name text : String) : Prop :=
  ∃ key : Key, key.Valid ∧ key.text = name ∧
    ∃ v, Json.ofText? text = some v ∧ Proper c key.ns v

/-- Every entry that has not ended stands at a valid key, and its text can be read as a proper
value. -/
def WellFormed (c : Config) (w : World) : Prop :=
  ∀ name text, w.entries.find? w.now name = some text → Formed c name text

def orderly (c : Config) (answering : Answering) : Terms where
  asks
    | .store (.set name text _) => Formed c name text
    | .offerPatch job => Sound c job
    | _ => True
  replies
    | .store (.get name), .ok (some text) => Formed c name text
    | .source question, answer => answering question answer
    | _, _ => True

variable {c : Config} {answering : Answering} {key : Key} {job : Patch} {v : Json}

theorem obliging_orderly : Obliging (orderly c answering) :=
  ⟨fun _ => True.intro, fun _ => True.intro, fun _ => True.intro, fun _ => True.intro,
    fun _ => True.intro, True.intro⟩

theorem granted_orderly (key : Key) : Granted (orderly c answering) c key :=
  ⟨True.intro, True.intro, fun _ => True.intro, True.intro, fun _ formed => formed⟩

theorem Storable.writable (storable : Storable c v) (valid : key.Valid)
    (listed : key.ns.shape = .list → ∃ items, v = .array items) :
    Writable (orderly c answering) c key v := by
  intro time
  have read : Json.ofText? (written c time v).text = some (written c time v) := by
    rw [ofText?_written storable.integral storable.sorted, if_pos storable.shallow]
  refine ⟨key, valid, rfl, _, read, ?_, ?_⟩
  · intro list
    obtain ⟨items, rfl⟩ := listed list
    exact ⟨items, rfl⟩
  · intro stampField fields configured same
    rw [find?_written configured same]
    rfl

theorem writable_array {items : List Json}
    (legible : (Json.array items).Legible Json.nestingLimit) (valid : key.Valid) :
    Writable (orderly c answering) c key (.array items) := by
  intro time
  refine ⟨key, valid, rfl, _, legible.ofText?_text, fun _ => ⟨_, rfl⟩, ?_⟩
  intro stampField fields _ impossible
  cases impossible

theorem keeps_derive_listed {terms : Terms} (question : ∀ question, terms.asks (.source question))
    (key : Key) :
    (derive c key).Keeps terms (fun v => key.ns.shape = .list → ∃ items, v = .array items)
      fun _ => True := by
  have scalar : key.ns.shape = .scalar → (derive c key).Keeps terms
      (fun v => key.ns.shape = .list → ∃ items, v = .array items) fun _ => True := by
    intro scalar
    have asks : Abides terms (derive c key) :=
      (lookups_derive c key).keeps question fun _ => True.intro
    refine asks.mono (fun _ _ list => ?_) fun _ failed => failed
    rw [scalar] at list
    cases list
  obtain ⟨ns, id⟩ := key
  cases ns with
  | collections =>
    apply (keeps_source (question _) fun _ => True.intro).bind
    intro o _
    apply (keeps_found fun _ => True.intro).bind
    exact fun items _ _ => ⟨items, rfl⟩
  | autoCollects =>
    apply (keeps_source (question _) fun _ => True.intro).bind
    intro o _
    apply (keeps_found fun _ => True.intro).bind
    exact fun items _ _ => ⟨items, rfl⟩
  | _ => exact scalar rfl

theorem Supplies.writable (supplies : Supplies c answering) (valid : key.Valid)
    (derived : Derivable (orderly c answering) c key v) :
    Writable (orderly c answering) c key v := by
  obtain ⟨xs, runs, replied⟩ := derived
  have storable := supplies.entries key valid xs v runs fun question answer there =>
    replied ⟨.source question, answer⟩ there
  have listed : (derive c key).Keeps (orderly c answering)
      (fun v => key.ns.shape = .list → ∃ items, v = .array items) fun _ => True :=
    keeps_derive_listed (fun _ => True.intro) key
  exact storable.writable valid (listed.ends runs replied).2

theorem supplies_of_answers {answers : Answers}
    (values : ∀ key : Key, key.Valid → ∀ v, answers.value? c key = some v → Storable c v)
    (shared : ∀ id shared, answers (.collection id) = .ok (some shared) →
      Listable shared.collection) :
    Supplies c fun question answer => answer = answers question where
  entries key valid xs v runs told := by
    refine values key valid v (settled_of_steady c answers key valid xs v runs ?_)
    intro question answer there value given
    rw [← told question answer there]
    exact given
  shared id shared' told := shared id shared' told.symm

theorem Supplies.rebuild (supplies : Supplies c answering) (key : Key) :
    Abides (orderly c answering) (Cache.rebuild c key) :=
  (granted_orderly key).rebuild fun valid _ derived => supplies.writable valid derived

theorem Sound.writable (sound : Sound c job) (ns : key.ns = job.ns) (valid : key.Valid)
    {text : String} {entry : Json} (read : Json.ofText? text = some entry)
    (edited : job.edit.apply job.entity entry = some (true, v)) :
    Writable (orderly c answering) c key v := by
  have legible := Json.legible_ofText? read
  have editsList : (∀ value, job.edit ≠ .replace value) →
      (∀ entity, job.edit = .upsert entity → entity.Legible 126) →
        Writable (orderly c answering) c key v := by
    intro single brought
    obtain ⟨items, edited, rfl, applied, rfl⟩ := Edit.apply_eq_changed single edited
    exact writable_array (Edit.legible_editList applied legible brought) valid
  unfold Sound at sound
  cases edit : job.edit with
  | replace value =>
    rw [edit] at sound edited
    obtain ⟨storable, listed⟩ := sound
    simp only [Edit.apply, Option.some.injEq] at edited
    split at edited
    · cases edited
    · cases edited
      exact storable.writable valid fun list => listed (ns ▸ list)
  | upsert entity =>
    rw [edit] at sound
    refine editsList (by simp [edit]) ?_
    intro entity' same
    cases edit.symm.trans same
    exact Json.Integral.legible sound.integral sound.sorted (Nat.le_of_succ_le_succ sound.shallow)
  | remove => exact editsList (by simp [edit]) (by simp [edit])
  | removeChild field child => exact editsList (by simp [edit]) (by simp [edit])

theorem Supplies.editEntry (supplies : Supplies c answering) (sound : Sound c job)
    (ns : key.ns = job.ns) : Abides (orderly c answering) (Cache.editEntry c job key) :=
  (granted_orderly key).editEntry (fun valid _ derived => supplies.writable valid derived)
    fun valid _ _ _ _ read edited => sound.writable ns valid read edited

theorem ns_of_mem_targets {target : String × Key} (there : target ∈ job.targets) :
    target.2.ns = job.ns := by
  unfold Patch.targets at there
  split at there
  · obtain rfl := List.mem_singleton.mp there
    rfl
  · obtain ⟨owner, _, rfl⟩ := List.mem_map.mp there
    rfl

theorem Supplies.parts (supplies : Supplies c answering) (sound : Sound c job) :
    ∀ part ∈ parts c job, Abides (orderly c answering) part.2 := by
  intro part there
  obtain ⟨⟨owner, key⟩, target, rfl⟩ := List.mem_map.mp there
  exact supplies.editEntry sound (ns_of_mem_targets target)

theorem Supplies.sound_of_offers (supplies : Supplies c answering) {operation : Operation}
    (brings : Brings c operation) (offers : Offers (orderly c answering) job operation) :
    Sound c job := by
  cases operation with
  | submit job' =>
    cases offers
    exact brings
  | withdraw id users =>
    cases offers
    exact True.intro
  | settleApproval user id approval =>
    cases offers
    exact True.intro
  | redistribute id =>
    obtain ⟨shared, told, member, _, rfl⟩ := offers
    exact SharedCollection.listable_copyFor (supplies.shared id shared told) member
  | _ => exact offers.elim

theorem Supplies.operation (supplies : Supplies c answering) {operation : Operation}
    (brings : Brings c operation) : Abides (orderly c answering) (operation.program c) := by
  refine obliging_orderly.operation supplies.rebuild ?_ fun job => supplies.sound_of_offers brings
  rintro job rfl
  exact supplies.parts brings

def Tidy (c : Config) (w : World) : Prop :=
  WellFormed c w ∧ ∀ job ∈ w.patches, Sound c job

theorem stable_orderly : Stable answering (orderly c answering) (Tidy c) where
  lapses w w' tidy passed := by
    obtain ⟨stays, now, later, rfl⟩ := passed
    refine ⟨?_, tidy.2⟩
    intro name text found
    exact tidy.1 name text (Entries.find?_of_find?_keep later found)
  replied w x w' tidy met := by
    cases met with
    | served call =>
      cases call with
      | get name =>
        cases found : w.entries.find? w.now name with
        | none => simp only [orderly, Entries.serve, found]
        | some text =>
          simp only [orderly, Entries.serve, found]
          exact tidy.1 name text found
      | _ => exact True.intro
    | failed call reason => cases call <;> exact True.intro
    | answered may => exact may
    | _ => exact True.intro
  kept w x w' tidy asked met := by
    cases met with
    | served call =>
      refine ⟨?_, tidy.2⟩
      intro name text found
      rcases Entries.find?_of_find?_serve found with before | ⟨lifetime, rfl⟩
      · exact tidy.1 name text before
      · exact asked
    | patchTaken job =>
      refine ⟨tidy.1, List.forall_mem_append.mpr ⟨tidy.2, ?_⟩⟩
      intro job' same
      obtain rfl := List.mem_singleton.mp same
      exact asked
    | _ => exact tidy

theorem Supplies.shares (supplies : Supplies c answering) (sound : Sound c job) :
    ∀ p ∈ shares c job, Abides (orderly c answering) p := by
  intro p there
  obtain ⟨part, among, rfl⟩ := List.mem_map.mp there
  exact (supplies.parts sound part among).andThen fun _ => True.intro

theorem Supplies.staffed (supplies : Supplies c answering) :
    Staffed c (Brings c) (orderly c answering) (Tidy c) where
  operations operation brings := supplies.operation brings
  parts job brings := supplies.shares brings
  rebuilds w before job after tidy _ := by
    have brings : Brings c (.carryOut job) := True.intro
    exact ⟨tidy, supplies.operation brings⟩
  patches w before job after tidy queued := by
    obtain ⟨wellFormed, sound⟩ := tidy
    rw [queued] at sound
    obtain ⟨first, others⟩ := List.forall_mem_append.mp sound
    obtain ⟨taken, last⟩ := List.forall_mem_cons.mp others
    exact ⟨⟨wellFormed, List.forall_mem_append.mpr ⟨first, last⟩⟩, supplies.shares taken⟩

/-- From every well-formed store, whatever operations are started, whatever jobs the workers take,
however they take turns and wherever they fail or stop, the store stays well-formed. -/
theorem wellFormed_of_course (supplies : Supplies c answering) {w w' : World}
    {ps : List (Program Answer)} (course : Course c answering (Brings c) w [] w' ps)
    (wellFormed : WellFormed c w) (queued : ∀ job ∈ w.patches, Sound c job) :
    WellFormed c w' := by
  obtain ⟨tidy, _⟩ := course.abide stable_orderly supplies.staffed ⟨wellFormed, queued⟩
    (List.forall_mem_nil _)
  exact tidy.1

/-- A worker takes a queued patch and puts the first entity into a listing that is stored. -/
theorem wellFormed_after_patch :
    let answers : Answers := fun
      | .collections _ => .ok (some [Json.uploads])
      | _ => .error "unknown"
    let answering : Answering := fun question answer => answer = answers question
    let job : Patch := ⟨.collections, ["7"], "5", .upsert Json.uploads⟩
    let start : World :=
      { World.empty with
        entries := .ofList [("collections:7", (Json.array []).text)]
        patches := [job] }
    let text := (Json.array [Json.uploads]).text
    let after : World :=
      { World.empty with entries := start.entries.set 0 "collections:7" text none }
    WellFormed .standard start ∧ (∀ job ∈ start.patches, Sound .standard job) ∧
      Course .standard answering (Brings .standard) start [] after [] ∧
      after.entries.find? 0 "collections:7" = some text ∧ WellFormed .standard after := by
  intro answers answering job start text after
  let key := Key.of .collections "7"
  have valid : key.Valid := by decide
  have there : start.entries.get? "collections:7" = some ⟨(Json.array []).text, none⟩ :=
    Entries.get?_insert_self ..
  have read : Json.ofText? (Json.array []).text = some (.array []) :=
    Json.Legible.ofText?_text (Json.legible_array.mpr nofun)
  have wellFormed : WellFormed .standard start := by
    intro name found stored
    obtain ⟨entry, present, _, rfl⟩ := Entries.live_of_find? stored
    by_cases here : name = "collections:7"
    · subst here
      cases there.symm.trans present
      exact ⟨key, valid, rfl, _, read, fun _ => ⟨[], rfl⟩, nofun⟩
    · cases (Entries.get?_insert_of_ne here _ _).symm.trans present
  have listable : Listable Json.uploads :=
    ⟨Json.integral_uploads, Json.sorted_uploads, by decide⟩
  have queued : ∀ job ∈ start.patches, Sound .standard job :=
    List.forall_mem_singleton.mpr listable
  have supplies : Supplies .standard answering := by
    refine supplies_of_answers ?_ fun _ _ impossible => nomatch impossible
    intro key _ v gives
    obtain ⟨ns, id⟩ := key
    cases ns with
    | collections =>
      cases gives
      exact ⟨⟨Json.integral_uploads, True.intro⟩, ⟨Json.sorted_uploads, True.intro⟩, by decide⟩
    | _ => cases gives
  let xs : List Exchange :=
    [⟨.store (.get "collections:7"), .ok (some (Json.array []).text)⟩,
      ⟨.store (.set "collections:7" text none), .ok ()⟩]
  have edits : (editEntry .standard job key).Runs xs (some (.ok .applied)) :=
    .ask _ (.ask _ (.done _))
  have shared : (do let _ ← editEntry .standard job key; return .done : Program Answer).Runs xs
      (some (.ok .done)) := runs_andReturn.mpr ⟨_, edits, rfl⟩
  have follows : Exchange.Follows (World.Passes answering) { start with patches := [] } xs after :=
    .cons (World.Meets.served _ _).passes (.cons (World.Meets.served _ _).passes (.nil _))
  have course : Course .standard answering (Brings .standard) start [] after [] :=
    .moves (@Moves.takePatch _ _ _ _ _ [] [] job rfl) (.goesOn shared follows (.stays _ _))
  exact ⟨wellFormed, queued, course, rfl, wellFormed_of_course supplies course wellFormed queued⟩

end Cache

end CacheAside
