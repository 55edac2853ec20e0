import CacheAside.Proofs.Cache.Purging
import CacheAside.Proofs.Cache.Redistribution
import CacheAside.Proofs.Program.Records

namespace CacheAside

open Simulation (Operation Answer)

namespace World

variable {answers : Answers} {w w' : World}

theorem healthily_served (answers : Answers) (w : World) (call : StoreCall) :
    Healthily answers w ⟨.store call, .ok (w.entries.serve w.now call).1⟩
      { w with entries := (w.entries.serve w.now call).2 } := ⟨"", rfl⟩

theorem perform_eq_finish {α : Type} (answers : Answers) (time : String) (p : Program α)
    (w : World) :
    w.perform answers time p =
      (some ((regular (fun _ _ => none) answers time).finish p w).1,
        ((regular (fun _ _ => none) answers time).finish p w).2) := by
  induction p generalizing w with
  | done result => rfl
  | ask request next ih => cases request <;> exact ih _ _

end World

namespace Cache

open Program Exchange

variable {α β : Type} {answers : Answers} {c : Config} {ns : Namespace} {key : Key} {job : Patch}
  {owner entity : String} {edit : Edit} {w w' : World} {xs ys : List Exchange}

theorem derived_listing (list : ns.shape = .list) {derived : Except Failure Json}
    (runs : (derive c (.of ns owner)).Runs xs (some derived))
    (follows : Follows (World.Healthily answers) w xs w') :
    storeCalls xs = [] ∧ w' = w ∧ derived = match answers.listing ns owner with
      | .ok items => .ok (.array items)
      | .error fault => .error (.source (Key.of ns owner).text fault) := by
  have questions := (questions_of_derives runs).1
  have calm : StampsLast c (derive c (.of ns owner)) := by
    rw [← bind_pure (derive c (.of ns owner))]
    exact .bind (keeps_derive_within timeless_source).abides fun _ => .done _
  obtain ⟨time, finished⟩ := calm.finish_of_comes ⟨xs, runs, follows⟩
  have performed : w.perform answers time (derive c (.of ns owner)) = _ :=
    perform_derive_listing list
  rw [World.perform_eq_finish, finished] at performed
  obtain ⟨same, rfl⟩ := Prod.mk.inj performed
  exact ⟨storeCalls_of_questions questions, rfl, Option.some.inj same⟩

def listEntry (c : Config) (now : Nat) (items : List Json) : Entry :=
  ⟨(Json.array items).text, c.lifetime.map fun span => now + span.toNanos⟩

def listCall (c : Config) (key : Key) (items : List Json) : StoreCall :=
  .set key.text (Json.array items).text c.lifetime

theorem follows_rebuild_listing (list : ns.shape = .list) (named : owner ≠ "")
    {rebuilt : Except Failure Json}
    (runs : (rebuild c (.of ns owner)).Runs xs (some rebuilt))
    (follows : Follows (World.Healthily answers) w xs w') :
    (∃ items, answers.listing ns owner = .ok items ∧
        storeCalls xs = [listCall c (.of ns owner) items] ∧
        w' = { w with
          entries := w.entries.set w.now (Key.of ns owner).text (Json.array items).text
            c.lifetime }) ∨
      ∃ fault, answers.listing ns owner = .error fault ∧ storeCalls xs = [] ∧ w' = w := by
  rcases runs_checked.mp runs with ⟨_, goesOn⟩ | ⟨_, fails, _⟩
  · rcases runs_bind.mp goesOn with ⟨v, before, after, rfl, derives, saves⟩ | ⟨_, rfl, derives⟩
    · obtain ⟨between, asked, written⟩ := follows_append.mp follows
      obtain ⟨silent, rfl, told⟩ := derived_listing list derives asked
      cases listed : answers.listing ns owner with
      | error fault =>
        rw [listed] at told
        cases told
      | ok items =>
        rw [listed] at told
        cases told
        obtain ⟨reply, rfl⟩ := runs_save_array saves
        cases written with | cons set rest =>
        cases rest
        obtain ⟨_, rfl⟩ := set.served
        refine .inl ⟨items, rfl, ?_, rfl⟩
        rw [storeCalls, List.filterMap_append]
        exact congrArg (· ++ _) silent
    · obtain ⟨silent, rfl, told⟩ := derived_listing list derives follows
      cases listed : answers.listing ns owner with
      | error fault => exact .inr ⟨fault, rfl, silent, rfl⟩
      | ok items =>
        rw [listed] at told
        cases told
  · cases fails.symm.trans (valid_of_list list named)

inductive Writer where
  | purge
  | patch
  deriving DecidableEq

/-- A purge of an owner's listing and a patch of it, side by side. -/
def purgeAndPatch (c : Config) (ns : Namespace) (owner entity : String) (edit : Edit) :
    List (Writer × Program Simulation.Answer) :=
  [(.purge, (Operation.purge (.of ns owner)).program c),
    (.patch, (Operation.editAll ⟨ns, [owner], entity, edit⟩).program c)]

/-- What the calls of a purge and a patch leave at a key, by their order. What is put back after the
purge is the listing of the source, unless the purge came between the two calls of the patch. -/
inductive Leaves (c : Config) (key : Key) (now : Nat)
    (listing : Except SourceFault (List Json)) (edited : Option (List Json)) :
    List StoreCall → Option Entry → Prop
  | relisted {items : List Json} (lists : listing = .ok items) :
    Leaves c key now listing edited [.erase key.text, .get key.text, listCall c key items]
      (some (listEntry c now items))
  | unlisted {fault : SourceFault} (fails : listing = .error fault) :
    Leaves c key now listing edited [.erase key.text, .get key.text] none
  | unchanged (same : edited = none) :
    Leaves c key now listing edited [.get key.text, .erase key.text] none
  | purgedLast {items : List Json} (changes : edited = some items) :
    Leaves c key now listing edited [.get key.text, listCall c key items, .erase key.text] none
  | purgedBetween {items : List Json} (changes : edited = some items) :
    Leaves c key now listing edited [.get key.text, .erase key.text, listCall c key items]
      (some (listEntry c now items))

theorem runs_purge {result : Except Failure Simulation.Answer} (valid : key.Valid)
    (runs : ((Operation.purge key).program c).Runs xs (some result)) :
    ∃ reply : Except String Unit, xs = [⟨.store (.erase key.text), reply⟩] := by
  obtain ⟨_, purges, _⟩ := runs_andReturn.mp runs
  rcases runs_checked.mp purges with ⟨_, erases⟩ | ⟨_, fails, _⟩
  · obtain ⟨reply, rfl, _⟩ := runs_store.mp erases
    exact ⟨reply, rfl⟩
  · cases fails.symm.trans valid

theorem runs_patch {result : Except Failure Simulation.Answer} (list : ns.shape = .list)
    (runs : ((Operation.editAll ⟨ns, [owner], entity, edit⟩).program c).Runs xs (some result)) :
    ∃ outcome, (editEntry c ⟨ns, [owner], entity, edit⟩ (.of ns owner)).Runs xs (some outcome) := by
  rcases runs_bind.mp runs with ⟨report, _, _, rfl, edits, ends⟩ | ⟨failure, rfl, edits⟩
  · obtain ⟨rfl, _⟩ := runs_done.mp ends
    obtain ⟨outcome, _, edits⟩ := runs_editAll_only list edits
    rw [List.append_nil]
    exact ⟨outcome, edits⟩
  · rw [editAll_only (isSingle_of_list list)] at edits
    rcases runs_bind.mp edits with ⟨_, _, _, _, _, impossible⟩ | ⟨_, _, attempts⟩
    · cases (runs_done.mp impossible).2
    · obtain ⟨_, impossible, _⟩ := runs_attempt.mp attempts
      cases impossible

theorem follows_edit_missing {outcome : Except Failure Outcome} (list : ns.shape = .list)
    (named : owner ≠ "") (missing : w.entries.get? (Key.of ns owner).text = none)
    (runs : (editEntry c job (.of ns owner)).Runs xs (some outcome))
    (follows : Follows (World.Healthily answers) w xs w') :
    (∃ items, answers.listing ns owner = .ok items ∧
        storeCalls xs = [.get (Key.of ns owner).text, listCall c (.of ns owner) items] ∧
        w'.entries.get? (Key.of ns owner).text = some (listEntry c w.now items)) ∨
      ∃ fault, answers.listing ns owner = .error fault ∧
        storeCalls xs = [.get (Key.of ns owner).text] ∧
        w'.entries.get? (Key.of ns owner).text = none := by
  have unfound : w.entries.find? w.now (Key.of ns owner).text = none := by
    rw [Entries.find?, missing]
  cases edits_of_runs (valid_of_list list named) runs with
  | missing rebuilds =>
    cases follows with | cons get rest =>
    obtain ⟨_, rfl⟩ := get.served
    rcases follows_rebuild_listing list named rebuilds rest with
      ⟨items, lists, calls, rfl⟩ | ⟨fault, fails, calls, rfl⟩
    · exact .inl ⟨items, lists, congrArg (_ :: ·) calls, Entries.get?_insert_self ..⟩
    · exact .inr ⟨fault, fails, congrArg (_ :: ·) calls, missing⟩
  | _ =>
    cases follows with | cons get rest =>
    cases get.served.1.trans (congrArg Except.ok unfound)

theorem runs_edit_list {outcome : Except Failure Outcome} {items : List Json} {text : String}
    (list : ns.shape = .list) (named : owner ≠ "") (single : ∀ value, job.edit ≠ .replace value)
    (read : Json.ofText? text = some (.array items))
    (runs : (editEntry c job (.of ns owner)).Runs
      (⟨.store (.get (Key.of ns owner).text), .ok (some text)⟩ :: xs) (some outcome)) :
    (xs = [] ∧ job.edit.editList job.entity items = none) ∨
      ∃ edited, job.edit.editList job.entity items = some edited ∧
        ∃ reply : Except String Unit,
          xs = [⟨.store (listCall c (.of ns owner) edited), reply⟩] := by
  have applies := Edit.apply_array single job.entity items
  generalize same : (⟨.store (.get (Key.of ns owner).text), .ok (some text)⟩ : Exchange) :: xs = ys
    at runs
  cases edits_of_runs (valid_of_list list named) runs with
  | outOfReach => cases same
  | missing => cases same
  | unreadable unread =>
    cases same
    cases read.symm.trans unread
  | notAList again refused =>
    cases same
    cases read.symm.trans again
    rw [applies] at refused
    split at refused <;> cases refused
  | unchanged again stays =>
    cases same
    cases read.symm.trans again
    rw [applies] at stays
    split at stays
    · cases stays
    · rename_i unedited
      exact .inl ⟨rfl, unedited⟩
  | changed again changes saves =>
    cases same
    cases read.symm.trans again
    rw [applies] at changes
    split at changes
    · rename_i edited edits
      cases changes
      obtain ⟨reply, rfl⟩ := runs_save_array saves
      exact .inr ⟨edited, edits, reply, rfl⟩
    · cases changes

theorem first_of_edit {outcome : Except Failure Outcome} {text : String} {x : Exchange}
    (valid : key.Valid) (found : w.stored? key = some text)
    (runs : (editEntry c job key).Runs (x :: xs) (some outcome))
    (met : World.Healthily answers w x w') :
    x = ⟨.store (.get key.text), .ok (some text)⟩ ∧ w' = w := by
  have asks : ∃ reply : Except String (Option String), x = ⟨.store (.get key.text), reply⟩ := by
    generalize same : x :: xs = ys at runs
    cases edits_of_runs valid runs <;>
    · obtain ⟨rfl, _⟩ := List.cons.inj same
      exact ⟨_, rfl⟩
  obtain ⟨_, rfl⟩ := asks
  obtain ⟨rfl, rfl⟩ := met.served
  exact ⟨by rw [← found]; rfl, rfl⟩

section Interleaved

variable {items : List Json} {text : String} {record : List (Writer × Exchange)}
  {results : List (Writer × Except Failure Simulation.Answer)}

theorem leaves_of_runs {outcome : Except Failure Outcome} {reply : Except String Unit}
    (list : ns.shape = .list) (named : owner ≠ "") (single : ∀ value, job.edit ≠ .replace value)
    (found : w.stored? (.of ns owner) = some text) (read : Json.ofText? text = some (.array items))
    (edits : (editEntry c job (.of ns owner)).Runs (xs ++ ys) (some outcome))
    (follows : Follows (World.Healthily answers) w
      (xs ++ ⟨.store (.erase (Key.of ns owner).text), reply⟩ :: ys) w') :
    Leaves c (.of ns owner) w.now (answers.listing ns owner) (job.edit.editList job.entity items)
      (storeCalls (xs ++ ⟨.store (.erase (Key.of ns owner).text), reply⟩ :: ys))
      (w'.entries.get? (Key.of ns owner).text) := by
  obtain ⟨between, before, follows⟩ := follows_append.mp follows
  cases follows with | cons erases after =>
  obtain ⟨_, rfl⟩ := erases.served
  cases xs with
  | nil =>
    cases before
    rw [List.nil_append] at edits
    change Leaves _ _ _ _ _ (_ :: storeCalls ys) _
    rcases follows_edit_missing list named (Entries.get?_erase_self ..) edits after with
      ⟨listed, lists, calls, left⟩ | ⟨fault, fails, calls, left⟩
    · rw [calls, left]
      exact .relisted lists
    · rw [calls, left]
      exact .unlisted fails
  | cons x xs =>
    cases before with | cons get before =>
    obtain ⟨rfl, rfl⟩ := first_of_edit (valid_of_list list named) found edits get
    rcases runs_edit_list list named single read edits with
      ⟨silent, unedited⟩ | ⟨edited, changes, _, writes⟩
    · obtain ⟨rfl, rfl⟩ := List.append_eq_nil_iff.mp silent
      cases before
      cases after
      rw [Entries.serve, Entries.get?_erase_self]
      exact .unchanged unedited
    · rcases List.append_eq_singleton_iff.mp writes with ⟨rfl, rfl⟩ | ⟨rfl, rfl⟩
      · cases before
        cases after with | cons set ends =>
        cases ends
        obtain ⟨_, rfl⟩ := set.served
        simp only [listCall, Entries.serve, Entries.set, Entries.get?_insert_self]
        exact .purgedBetween changes
      · cases before with | cons set ends =>
        cases ends
        cases after
        rw [Entries.serve, Entries.get?_erase_self]
        exact .purgedLast changes

theorem now_of_healthily (follows : Follows (World.Healthily answers) w xs w') :
    w'.now = w.now := by
  induction follows with
  | nil => rfl
  | @cons w _ _ x _ first _ ih =>
    obtain ⟨_, replied⟩ := first
    rw [ih]
    cases x with
    | mk request reply => cases request <;> cases replied <;> rfl

theorem hit_of_stored {value : Json} {ending : Except Failure Reading} (valid : key.Valid)
    (found : w.stored? key = some text) (read : Json.ofText? text = some value)
    (runs : (Cache.read c key).Runs xs (some ending))
    (follows : Follows (World.Healthily answers) w xs w') : ending = .ok ⟨value, .stored⟩ := by
  obtain ⟨reply, rest, rfl, aftermath⟩ :=
    (reads_of_runs runs).aftermath valid (World.meets_of_healthily follows)
  refine (aftermath.hit text value ?_ read).2
  rcases aftermath.told with told | ⟨reason, told⟩
  · rw [told, found]
  · subst told
    exact absurd List.mem_cons_self (World.served_of_healthily follows)

theorem leaves_of_recorded (list : ns.shape = .list) (named : owner ≠ "")
    (single : ∀ value, edit ≠ .replace value)
    (found : w.stored? (.of ns owner) = some text) (read : Json.ofText? text = some (.array items))
    (recorded : Recorded (World.Healthily answers) (purgeAndPatch c ns owner entity edit) w record
      (ended results) w') :
    Leaves c (.of ns owner) w.now (answers.listing ns owner) (edit.editList entity items)
      (storeCalls (record.map (·.2))) (w'.entries.get? (Key.of ns owner).text) := by
  have distinct : ((purgeAndPatch c ns owner entity edit).map (·.1)).Nodup := by
    simp [purgeAndPatch]
  have parties : ∀ entry ∈ record, entry.1 = .purge ∨ entry.1 = .patch := by
    intro entry there
    simpa [purgeAndPatch] using recorded.named entry there
  obtain ⟨_, _, purges⟩ := recorded.runs distinct List.mem_cons_self
  obtain ⟨_, _, patches⟩ := recorded.runs distinct (List.mem_cons_of_mem _ List.mem_cons_self)
  obtain ⟨reply, once⟩ := runs_purge (valid_of_list list named) purges
  obtain ⟨outcome, edits⟩ := runs_patch list patches
  obtain ⟨before, after, split, rest⟩ := split_of_own (by decide) parties once
  have follows := recorded.follows
  rw [rest] at edits
  rw [split] at follows ⊢
  exact leaves_of_runs list named single found read edits follows

theorem exists_purgedBetween {edited : List Json} (list : ns.shape = .list) (named : owner ≠ "")
    (single : ∀ value, edit ≠ .replace value)
    (found : w.stored? (.of ns owner) = some text) (read : Json.ofText? text = some (.array items))
    (changes : edit.editList entity items = some edited) :
    ∃ record results w', Recorded (World.Healthily answers)
        (purgeAndPatch c ns owner entity edit) w record (ended results) w' ∧
      storeCalls (record.map (·.2)) = [.get (Key.of ns owner).text, .erase (Key.of ns owner).text,
        listCall c (.of ns owner) edited] := by
  have valid := valid_of_list list named
  obtain ⟨_, _, xs, patches, follows⟩ := World.exists_comes answers
    ((Operation.editAll ⟨ns, [owner], entity, edit⟩).program c) w
  obtain ⟨_, _, ys, purges, follows'⟩ := World.exists_comes answers
    ((Operation.purge (.of ns owner)).program c) w
  obtain ⟨_, rfl⟩ := runs_purge valid purges
  obtain ⟨_, edits⟩ := runs_patch list patches
  cases xs with
  | nil => cases edits_of_runs valid edits
  | cons x xs =>
    cases follows with | cons get rest =>
    obtain ⟨rfl, same⟩ := first_of_edit valid found edits get
    rw [same] at get
    rcases runs_edit_list list named single read edits with
      ⟨_, unedited⟩ | ⟨edited', changes', _, rfl⟩
    · cases changes.symm.trans unedited
    · cases changes.symm.trans changes'
      cases follows' with | @cons _ erased _ _ _ erase _ =>
      cases rest with | cons set _ =>
      obtain ⟨rfl, _⟩ := set.served
      have put := World.healthily_served answers erased (listCall c (.of ns owner) edited)
      have follows := Follows.cons get (.cons erase (.cons put (.nil _)))
      exact ⟨_, _, _, @recorded_between _ _ _ _ _ _ _ _ [_] [_] [_] _ _ _ _ purges patches follows,
        rfl⟩

theorem stored_of_purgedBetween {edited : List Json} (list : ns.shape = .list) (named : owner ≠ "")
    (single : ∀ value, edit ≠ .replace value)
    (found : w.stored? (.of ns owner) = some text) (read : Json.ofText? text = some (.array items))
    (recorded : Recorded (World.Healthily answers) (purgeAndPatch c ns owner entity edit) w record
      (ended results) w')
    (between : storeCalls (record.map (·.2)) = [.get (Key.of ns owner).text,
      .erase (Key.of ns owner).text, listCall c (.of ns owner) edited])
    (lasting : ∀ l, c.lifetime = some l → 0 < l.toNanos) :
    w'.stored? (.of ns owner) = some (Json.array edited).text := by
  have leaves := leaves_of_recorded list named single found read recorded
  rw [between] at leaves
  generalize told : listCall c (.of ns owner) edited = call at leaves
  generalize left : w'.entries.get? (Key.of ns owner).text = entry at leaves
  cases leaves with
  | purgedBetween =>
    simp only [listCall, StoreCall.set.injEq] at told
    rw [listEntry, ← told.2.1, ← now_of_healthily recorded.follows] at left
    exact Entries.find?_of_live left (live_set lasting _ _)

end Interleaved

/-- What a reader finds after a purge and a patch of one listing have both returned. It is the
listing of the source, unless the purge came between the two calls of the patch; then the listing
that was purged is there again, edited. That can happen with every edit that changes the listing. -/
theorem purge_final_unless_between {items : List Json} {text : String} (list : ns.shape = .list)
    (named : owner ≠ "") (single : ∀ value, edit ≠ .replace value)
    (found : w.stored? (.of ns owner) = some text)
    (read : Json.ofText? text = some (.array items)) :
    let key := Key.of ns owner
    let between (edited : List Json) : List StoreCall :=
      [.get key.text, .erase key.text, listCall c key edited]
    (∀ record results w', Recorded (World.Healthily answers)
        (purgeAndPatch c ns owner entity edit) w record (ended results) w' →
      let calls := storeCalls (record.map (·.2))
      Leaves c key w.now (answers.listing ns owner) (edit.editList entity items) calls
        (w'.entries.get? key.text) ∧
      (∀ answering xs reading later, (Cache.read c key).Runs xs (some (.ok reading)) →
        Follows (World.Passes answering) w' xs later → reading.provenance = .stored →
        (∃ listed, answers.listing ns owner = .ok listed ∧
          Json.ofText? (Json.array listed).text = some reading.value) ∨
        ∃ edited, edit.editList entity items = some edited ∧ calls = between edited ∧
          Json.ofText? (Json.array edited).text = some reading.value) ∧
      ∀ edited value, calls = between edited → (∀ l, c.lifetime = some l → 0 < l.toNanos) →
        Json.ofText? (Json.array edited).text = some value →
        ∀ xs ending later, (Cache.read c key).Runs xs (some ending) →
          Follows (World.Healthily answers) w' xs later → ending = .ok ⟨value, .stored⟩) ∧
    ∀ edited, edit.editList entity items = some edited → ∃ record results w',
      Recorded (World.Healthily answers) (purgeAndPatch c ns owner entity edit) w record
        (ended results) w' ∧ storeCalls (record.map (·.2)) = between edited := by
  intro key between
  refine ⟨fun record results w' recorded => ?_, fun edited changes => ?_⟩
  · have leaves := leaves_of_recorded list named single found read recorded
    refine ⟨leaves, fun answering xs reading later runs follows hit => ?_, ?_⟩
    · obtain ⟨stored, there, value⟩ := stored_of_hit runs follows hit
      obtain ⟨entry, held, _, rfl⟩ := Entries.live_of_find? there
      rw [held] at leaves
      generalize storeCalls (record.map (·.2)) = calls at leaves ⊢
      cases leaves with
      | relisted lists => exact .inl ⟨_, lists, value⟩
      | purgedBetween changes => exact .inr ⟨_, changes, rfl, value⟩
    · intro edited value same lasting legible xs ending later runs follows
      have stored := stored_of_purgedBetween list named single found read recorded same lasting
      exact hit_of_stored (valid_of_list list named) stored legible runs follows
  · exact exists_purgedBetween list named single found read changes

def oneListed : World :=
  { World.empty with
    entries := .ofList [((Key.of .collections "42").text, (Json.array [bare "A"]).text)] }

theorem stored_oneListed :
    oneListed.stored? (.of .collections "42") = some (Json.array [bare "A"]).text :=
  Entries.find?_of_live (Entries.get?_insert_self ..) rfl

theorem read_bare (ids : List String) :
    Json.ofText? (Json.array (ids.map bare)).text = some (.array (ids.map bare)) := by
  have integral : (Json.array (ids.map bare)).Integral :=
    Json.integralItems_iff.mpr (List.forall_mem_map.mpr fun id _ => (itemwise_bare id).1)
  have sorted : (Json.array (ids.map bare)).Sorted :=
    Json.sortedItems_iff.mpr (List.forall_mem_map.mpr fun id _ => (itemwise_bare id).2)
  have items : Json.depthItems (ids.map bare) ≤ 126 :=
    Json.depthItems_le_iff.mpr (List.forall_mem_map.mpr fun id _ => (by decide : 1 ≤ 126))
  have shallow : (Json.array (ids.map bare)).depth ≤ Json.nestingLimit := Nat.succ_le_succ items
  rw [Json.ofText?_text integral sorted, if_pos shallow]

/-- A collection is put into a listing that is purged at the same time, and that the source has
empty. -/
theorem purge_final_unless_between_bare :
    ∃ record results w', Recorded (World.Healthily nothingListed)
        (purgeAndPatch .standard .collections "42" "E" (.upsert (bare "E"))) oneListed record
        (ended results) w' ∧
      ∀ xs ending later, (Cache.read .standard (.of .collections "42")).Runs xs (some ending) →
        Follows (World.Healthily nothingListed) w' xs later →
        ending = .ok ⟨.array [bare "A", bare "E"], .stored⟩ := by
  have named : "42" ≠ "" := by decide
  obtain ⟨all, possible⟩ := @purge_final_unless_between nothingListed .standard .collections "42"
    "E" (.upsert (bare "E")) oneListed [bare "A"] _ rfl named nofun stored_oneListed
    (read_bare ["A"])
  obtain ⟨record, results, w', recorded, between⟩ := possible _ rfl
  obtain ⟨_, _, hit⟩ := all record results w' recorded
  exact ⟨record, results, w', recorded, fun xs ending later =>
    hit _ _ between nofun (read_bare ["A", "E"]) xs ending later⟩

/-- So it is not true that after a purge only what the source lists can be found. -/
theorem purge_not_final :
    ¬ ∀ record results w', Recorded (World.Healthily nothingListed)
        (purgeAndPatch .standard .collections "42" "E" (.upsert (bare "E"))) oneListed record
        (ended results) w' →
      ∀ xs reading later, (Cache.read .standard (.of .collections "42")).Runs xs
          (some (.ok reading)) →
        Follows (World.Healthily nothingListed) w' xs later → reading.provenance = .stored →
        reading.value = .array [] := by
  intro final
  have named : "42" ≠ "" := by decide
  have single : ∀ value, Edit.upsert (bare "E") ≠ .replace value := nofun
  obtain ⟨record, results, w', recorded, between⟩ := @exists_purgedBetween nothingListed .standard
    .collections "42" "E" _ oneListed _ _ _ rfl named single stored_oneListed (read_bare ["A"]) rfl
  have stored := stored_of_purgedBetween rfl named single stored_oneListed (read_bare ["A"])
    recorded between nofun
  obtain ⟨ending, later, xs, runs, follows⟩ := World.exists_comes nothingListed
    (Cache.read .standard (.of .collections "42")) w'
  have hit := hit_of_stored (valid_of_list rfl named) stored (read_bare ["A", "E"]) runs follows
  subst hit
  cases final record results w' recorded xs _ later runs follows rfl

end Cache

end CacheAside
