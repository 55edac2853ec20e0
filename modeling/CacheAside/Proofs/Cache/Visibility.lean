import CacheAside.Proofs.Cache.Finality
import CacheAside.Proofs.Edits.Places

namespace CacheAside

namespace Cache

open Program Exchange

variable {c : Config} {key : Key} {job : Patch} {owner : String} {text text' : String}
  {items : List Json} {xs : List Exchange}

/-- Whoever looks for an entity in the entry with this text finds it so, in a single call of the
store. -/
def Finds (c : Config) (key : Key) (text id : String) (entity : Option Json) : Prop :=
  ∀ {σ : Type} {answering : Answering} (around : Surroundings answering σ), around.Healthy →
    ∀ s, (around.world s).stored? key = some text →
      ∃ s', (readEntity c key id).Runs [⟨.store (.get key.text), .ok (some text)⟩]
          (some (.ok entity)) ∧
        around.Follows s [⟨.store (.get key.text), .ok (some text)⟩] s' ∧
        around.world s' = around.world s

theorem finds_of_read (valid : key.Valid) (read : Json.ofText? text = some (.array items))
    (id : String) : Finds c key text id (Entity.find? id items) := by
  intro σ answering around healthy s found
  obtain ⟨xs, ending, s', runs, follows⟩ := around.exists_runs (readEntity c key id) s
  rcases runs_bind.mp runs with ⟨reading, _, _, rfl, reads, ends⟩ | ⟨_, _, reads⟩
  · obtain ⟨between, looks, follows'⟩ := follows_append.mp follows
    obtain ⟨rfl, told, stays⟩ := (reads_of_runs reads).of_stored healthy valid found read looks
    cases told
    obtain ⟨rfl, rfl⟩ := runs_done.mp ends
    cases follows'
    exact ⟨_, runs, follows, stays⟩
  · obtain ⟨_, impossible, _⟩ := (reads_of_runs reads).of_stored healthy valid found read follows
    cases impossible

/-- What is found of a list before and after a patch of it. -/
structure Visible (c : Config) (key : Key) (job : Patch) (items : List Json)
    (before after : String) : Prop where
  unpatched : ∀ id, Finds c key before id (Entity.find? id items)
  upserted : ∀ entity, job.edit = .upsert entity → Entity.hasId job.entity entity = true →
    Finds c key after job.entity (some entity)
  removed : job.edit = .remove →
    Finds c key after job.entity (items.filter (Entity.hasId job.entity))[1]?
  others : ∀ id, id ≠ job.entity →
    (∀ entity, job.edit = .upsert entity → Entity.hasId id entity = false) →
    Finds c key after id (Entity.find? id items)

theorem settle_unnamed (itemwise : job.edit.Itemwise) {id : String} (different : job.entity ≠ id)
    (brought : ∀ entity, job.edit = .upsert entity → Entity.hasId id entity = false)
    (items : List Json) :
    ∀ v ∈ job.edit.settle (Entity.find? job.entity items), Entity.hasId id v = false := by
  have exceptUpsert (aims : job.edit.Aims job.entity) :
      ∀ v ∈ job.edit.settle (Entity.find? job.entity items), Entity.hasId id v = false :=
    fun v there => Entity.not_hasId_of_ne different (aims.settle_find? items v there)
  cases edits : job.edit with
  | upsert entity =>
    rw [edits] at itemwise
    rw [Edit.settle_upsert fun _ _ same => (Json.same_iff_eq itemwise.1).mp same]
    rintro _ ⟨rfl⟩
    exact brought entity edits
  | remove | removeChild =>
    rw [← edits]
    exact exceptUpsert (by rw [edits]; exact True.intro)
  | replace value =>
    rw [edits] at itemwise
    exact itemwise.elim

theorem visible_of_read (valid : key.Valid) (itemwise : job.edit.Itemwise)
    (read : Json.ofText? text = some (.array items))
    (readAfter : Json.ofText? text' = some (.array
      (Entity.put job.entity (job.edit.settle (Entity.find? job.entity items)) items))) :
    Visible c key job items text text' where
  unpatched := finds_of_read valid read
  upserted entity edits named := by
    have found : Finds c key text' job.entity _ := finds_of_read valid readAfter job.entity
    rw [edits] at itemwise found
    rwa [Edit.settle_upsert fun _ _ same => (Json.same_iff_eq itemwise.1).mp same,
      Entity.find?_put named] at found
  removed edits := by
    have found : Finds c key text' job.entity _ := finds_of_read valid readAfter job.entity
    rwa [edits, Edit.settle_remove, Entity.find?_put_none] at found
  others id different brought := by
    have found : Finds c key text' id _ := finds_of_read valid readAfter id
    rwa [Entity.find?_put_of_unnamed different.symm
      (settle_unnamed itemwise different.symm brought items)] at found

/-- While every call of the store is served, a patch of a stored list ends well, with calls of the
store alone. Whatever the configuration, whoever looks for an entity of the list finds, as long as
the patched entry can be read and again with calls of the store alone: the entity that was put in
its place; in the place of a removed one the next one with its identifier; and every other entity as
before, unless the entity that was put there has its identifier. -/
theorem patch_visible {σ : Type} {answering : Answering} {around : Surroundings answering σ}
    (healthy : around.Healthy) {s : σ} (valid : key.Valid)
    (target : job.targets = [(owner, key)])
    (found : (around.world s).stored? key = some text)
    (read : Json.ofText? text = some (.array items)) (integral : (Json.array items).Integral)
    (itemwise : job.edit.Itemwise)
    (shallow : (job.edit.edited job.entity (.array items)).depth ≤ Json.nestingLimit) :
    ∃ xs outcome s' entry, (editAll c job).Runs xs (some (.ok (.only owner (.ok outcome)))) ∧
      around.Follows s xs s' ∧ (∀ x ∈ xs, x.storeCall?.isSome = true) ∧
      (around.world s').entries.get? key.text = some entry ∧
      ((∀ l, c.lifetime = some l → 0 < l.toNanos) →
        (around.world s').stored? key = some entry.text) ∧
      Visible c key job items text entry.text := by
  have applies := Edit.apply_place itemwise.ne_replace job.entity items
  rw [Edit.edited_of_apply applies] at shallow
  obtain ⟨xs, ending, s', runs, follows⟩ := around.exists_runs (editAll c job) s
  obtain ⟨outcome, rfl, edits⟩ := (runs_editAll_of_target target).mp runs
  obtain ⟨ys, between, rfl, stays, rest, refused | ⟨same, stay, rfl, rfl⟩ |
    ⟨edited, saved, changes, saves, rfl⟩⟩ :=
      (edits_of_runs valid edits).of_stored healthy found read follows
  · cases applies.symm.trans refused.1
  · cases rest
    obtain ⟨entry, there, _, rfl⟩ := Entries.live_of_find? found
    obtain ⟨idle, _⟩ := Prod.mk.inj (Option.some.inj (applies.symm.trans stay))
    have still : job.edit.act (Entity.find? job.entity items) = none := by simpa using idle
    have readAfter : Json.ofText? entry.text = some (.array (Entity.put job.entity
        (job.edit.settle (Entity.find? job.entity items)) items)) := by
      rw [Edit.settle, still, Option.getD_none, Entity.put_find?, read]
    refine ⟨_, _, s', entry, runs, follows, List.forall_mem_singleton.mpr rfl, ?_, fun _ => ?_,
      visible_of_read valid itemwise read readAfter⟩
    · rw [stays, there]
    · rw [stays, found]
  · obtain ⟨_, listed, ⟨⟩, edits', rfl⟩ := Edit.apply_eq_changed itemwise.ne_replace changes
    -- A list carries no stamp, so that the write is a single call.
    cases saves with | plain _ reply =>
    cases rest with | cons set rest =>
    cases rest
    obtain ⟨rfl, after⟩ := healthy.served set
    have sorted := itemwise.sorted edits' (Json.sorted_ofText? read)
    obtain ⟨_, placed⟩ := Prod.mk.inj (Option.some.inj (changes.symm.trans applies))
    have readAfter : Json.ofText? (Json.array listed).text = some (.array (Entity.put job.entity
        (job.edit.settle (Entity.find? job.entity items)) items)) := by
      rw [← placed] at shallow ⊢
      rw [Json.ofText?_text (itemwise.integral edits' integral) sorted, if_pos shallow]
    have there : (around.world s').entries.get? key.text = some ⟨(Json.array listed).text,
        c.lifetime.map fun span => (around.world between).now + span.toNanos⟩ := by
      rw [after]
      exact Entries.get?_insert_self ..
    refine ⟨_, _, s', _, runs, follows, ?_, there, fun lasting => ?_,
      visible_of_read valid itemwise read readAfter⟩
    · exact List.forall_mem_cons.mpr ⟨rfl, List.forall_mem_singleton.mpr rfl⟩
    · rw [after] at there ⊢
      exact Entries.find?_of_live there (live_set lasting _ _)

def listing (ids : List String) : World :=
  { World.empty with
    entries := .ofList [((Key.of .collections "42").text, (Json.array (ids.map bare)).text)] }

theorem stored_listing (ids : List String) :
    (listing ids).stored? (.of .collections "42") = some (Json.array (ids.map bare)).text :=
  Entries.find?_of_live (Entries.get?_insert_self ..) rfl

/-- A collection is listed twice with another one between; one of the two is taken away. -/
theorem patch_visible_twice :
    let key := Key.of .collections "42"
    ∃ xs outcome w' text,
      (editAll .standard ⟨.collections, ["42"], "A", .remove⟩).Runs xs
        (some (.ok (.only "42" (.ok outcome)))) ∧
      (World.healthy nothingListed "2025").Follows (listing ["A", "B", "A"]) xs w' ∧
      w'.stored? key = some text ∧ Finds .standard key text "A" (some (bare "A")) ∧
      Finds .standard key text "B" (some (bare "B")) := by
  intro key
  have valid : key.Valid := by decide
  have integral : (Json.array (["A", "B", "A"].map bare)).Integral :=
    Json.integralItems_iff.mpr (List.forall_mem_map.mpr fun id _ => (itemwise_bare id).1)
  have shallow : (Edit.remove.edited "A" (.array (["A", "B", "A"].map bare))).depth ≤
      Json.nestingLimit := by decide
  obtain ⟨xs, outcome, w', entry, runs, follows, _, _, stored, visible⟩ :=
    @patch_visible .standard key ⟨.collections, ["42"], "A", .remove⟩ "42" _ _ _ _ _
      (World.healthy_serves nothingListed "2025") _ valid rfl (stored_listing ["A", "B", "A"])
      (read_bare ["A", "B", "A"]) integral True.intro shallow
  exact ⟨xs, outcome, w', entry.text, runs, follows, stored nofun, visible.removed rfl,
    visible.others "B" (by decide) nofun⟩

/-- Where entries last for no time, an entity that was put into a list is not found there, but
looked up at the source; and an entity that is put under the name of another one is found under its
own. -/
theorem patch_not_visible :
    let key := Key.of .collections "42"
    let look (c : Config) (id : String) (w : World) :=
      w.perform nothingListed "2025" (readEntity c key id)
    let patch (c : Config) (target id : String) (w : World) :=
      w.perform nothingListed "2025" (editAll c ⟨.collections, ["42"], target, .upsert (bare id)⟩)
    (∃ w' w'', patch fleeting "E" "E" (listing []) =
        (some (.ok (.only "42" (.ok .applied))), w') ∧
      look fleeting "E" w' = (some (.ok none), w'') ∧ w''.rebuilds = [.ofKey key]) ∧
    ∃ w', look .standard "B" (listing []) = (some (.ok none), listing []) ∧
      patch .standard "A" "B" (listing []) = (some (.ok (.only "42" (.ok .applied))), w') ∧
      look .standard "B" w' = (some (.ok (some (bare "B"))), w') := by
  intro key look patch
  have valid : key.Valid := by decide
  let put (c : Config) (id : String) : World := { listing [] with
    entries := (listing []).entries.set 0 key.text (Json.array [bare id]).text c.lifetime }
  have patched (c : Config) (target id : String) :
      patch c target id (listing []) = (some (.ok (.only "42" (.ok .applied))), put c id) :=
    perform_editAll_only rfl
      (perform_editEntry_applied valid (stored_listing []) (read_bare []) rfl)
  have gone : (put fleeting "E").stored? key = none := Entries.find?_set_zero ..
  have looksAgain : look fleeting "E" (put fleeting "E") = (some (.ok none),
      { (put fleeting "E").looked key with rebuilds := [.ofKey key] }) :=
    World.perform_bind (perform_read_of_missing (v := .array []) valid rfl
      (congrArg (·.bind Json.ofText?) gone))
  have before : look .standard "B" (listing []) = (some (.ok none), listing []) :=
    World.perform_bind (perform_read_of_stored valid (stored_listing []) (read_bare []))
  have there : (put .standard "B").stored? key = some (Json.array [bare "B"]).text :=
    Entries.find?_of_live (Entries.get?_insert_self ..) rfl
  have after : look .standard "B" (put .standard "B") =
      (some (.ok (some (bare "B"))), put .standard "B") :=
    World.perform_bind (perform_read_of_stored valid there (read_bare ["B"]))
  exact ⟨⟨_, _, patched fleeting "E" "E", looksAgain, rfl⟩, _, before, patched .standard "A" "B",
    after⟩

end Cache

end CacheAside
