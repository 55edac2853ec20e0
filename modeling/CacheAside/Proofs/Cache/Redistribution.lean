import CacheAside.Proofs.Cache.Elapsing
import CacheAside.Proofs.Cache.Patching
import CacheAside.Proofs.Cache.WellFormed
import CacheAside.Proofs.Edits.Exactness

namespace CacheAside

open Json (Fields)

namespace Edit

variable {id : String} {entity : Json} {items : List Json}

def upserted (id : String) (entity : Json) : List Json → List Json
  | [] => [entity]
  | e :: es => if Entity.hasId id e then entity :: es else e :: upserted id entity es

theorem upserted_eq (id : String) (entity : Json) (items : List Json) :
    upserted id entity items = Entity.put id (some entity) items := by
  induction items with
  | nil => rfl
  | cons e es ih =>
    rw [upserted, Entity.put, ih]
    rfl

theorem apply_upsert (id : String) (entity : Json) (items : List Json) :
    (Edit.upsert entity).apply id (.array items) =
        some (true, .array (upserted id entity items)) ∨
      (Edit.upsert entity).apply id (.array items) = some (false, .array items) ∧
        (Json.array items).same (.array (upserted id entity items)) = true := by
  have single : ∀ value, Edit.upsert entity ≠ .replace value := nofun
  rw [apply_array single, editList_eq, upserted_eq]
  cases found : Entity.find? id items with
  | none => exact .inl rfl
  | some e =>
    cases same : e.same entity with
    | false => exact .inl (by simp [act, same])
    | true =>
      obtain ⟨front, back, rfl, first⟩ := Entity.exists_first found
      refine .inr ⟨by simp [act, same], ?_⟩
      rw [first.put, Json.same, Json.sameItems_append_left]
      exact Bool.and_eq_true_iff.mpr ⟨same, Json.sameItems_self back⟩

end Edit

namespace SharedCollection

variable {shared : SharedCollection} {fields : Fields}

/-- A copy of an object that tells these permissions, and is the same without them. -/
def Tells (fields : Fields) (p : Permissions) (copy : Json) : Prop :=
  ∃ copied, copy = .object copied ∧
    Fields.find? copied permissionsField = some (.object [("configure", .bool p.configure),
      ("read", .bool p.read), ("write", .bool p.write)]) ∧
    Fields.erase permissionsField copied = Fields.erase permissionsField fields

theorem tells_copyFor (object : shared.collection = .object fields) (member : Member) :
    Tells fields member.permissions (shared.copyFor member) := by
  refine ⟨Fields.insert permissionsField member.permissions.document fields, ?_, ?_, ?_⟩
  · simp only [copyFor, object]
  · rw [Fields.find?_insert_self, document_eq]
  · exact Fields.erase_insert_self permissionsField _ fields

theorem legible_document (p : Permissions) (room : Nat) : p.document.Legible (room + 1) := by
  have sorted := sorted_document p
  rw [document_eq] at sorted ⊢
  refine Json.legible_object.mpr ⟨sorted.1, fun member there => ?_⟩
  simp only [List.mem_cons, List.not_mem_nil, or_false] at there
  rcases there with rfl | rfl | rfl <;>
    exact ⟨True.intro, True.intro, Nat.zero_le room⟩

theorem legible_copyFor {room : Nat} (legible : shared.collection.Legible (room + 2))
    (member : Member) : (shared.copyFor member).Legible (room + 2) := by
  unfold copyFor
  split
  · rename_i fields object
    rw [object] at legible
    exact legible.insert permissionsField (legible_document member.permissions room)
  · exact legible

theorem users_audience (distinct : (shared.members.map (·.user)).Nodup) :
    (shared.audience.map (·.user)).Nodup := by
  have others : ((shared.members.filter (·.user ≠ shared.owner)).map (·.user)).Nodup :=
    distinct.sublist (List.filter_sublist.map _)
  rw [audience, List.map_append, List.map_singleton]
  refine others.append (List.nodup_singleton _) (List.disjoint_singleton.mpr ?_)
  intro there
  obtain ⟨member, sees, same⟩ := List.mem_map.mp there
  simpa [same] using (List.mem_filter.mp sees).2

end SharedCollection

namespace Cache

open Program Simulation

variable {α β : Type} {answers : Answers} {c : Config} {w w' : World} {id : String}
  {shared : SharedCollection}

theorem editAll_only {ns : Namespace} (several : ns.isSingle = false) (owner entity : String)
    (edit : Edit) :
    editAll c ⟨ns, [owner], entity, edit⟩ = do
      return .only owner
        (← attempt (editEntry c ⟨ns, [owner], entity, edit⟩ (.of ns owner))) := by
  exact editAll_of_target (targets_only several owner entity edit)

theorem within_editAll_only {ns : Namespace} (several : ns.isSingle = false)
    (owner entity : String) (edit : Edit) :
    Abides (asking (Within (Key.of ns owner).text)) (editAll c ⟨ns, [owner], entity, edit⟩) := by
  rw [editAll_only several]
  exact (within_editEntry c _ _).attempt.bind fun _ _ => True.intro

theorem comes_submitEach {jobs : List Patch} {ending : Except Failure Unit}
    (comes : (submitEach c jobs).Comes (World.Elapses answers) w ending w') :
    ending = .ok () ∧ w.now ≤ w'.now ∧
      w' = { w with now := w'.now, patches := w.patches ++ jobs } := by
  induction jobs generalizing w with
  | nil =>
    obtain ⟨rfl, rfl⟩ := comes_done.mp comes
    exact ⟨rfl, Nat.le_refl _, by rw [List.append_nil]⟩
  | cons job jobs ih =>
    obtain ⟨_, between, met, goesOn⟩ := comes_ask.mp comes
    obtain ⟨rfl, later, taken⟩ := met.offerPatch
    obtain ⟨rfl, since, rest⟩ := ih goesOn
    refine ⟨rfl, Nat.le_trans later since, ?_⟩
    rw [rest, taken]
    simp

theorem comes_redistribute (answered : answers (.collection id) = .ok (some shared))
    {ending : Except Failure Nat}
    (comes : (redistribute c id).Comes (World.Elapses answers) w ending w') :
    ending = .ok shared.audience.length ∧ w.now ≤ w'.now ∧ w' = { w with
      now := w'.now
      patches := w.patches ++ shared.audience.map (copyPatch id shared) } := by
  obtain ⟨_, between, met, goesOn⟩ := comes_ask.mp comes
  obtain ⟨rfl, later, stays⟩ := met.source
  rw [answered] at goesOn
  have queues : (submitEach c (shared.audience.map (copyPatch id shared)) >>= fun _ =>
      (pure shared.audience.length : Program Nat)).Comes (World.Elapses answers) between ending w' :=
    goesOn
  rcases comes_bind.mp queues with ⟨_, _, submits, ends⟩ | ⟨_, _, submits⟩
  · obtain ⟨rfl, rfl⟩ := comes_done.mp ends
    obtain ⟨_, since, rest⟩ := comes_submitEach submits
    refine ⟨rfl, Nat.le_trans later since, ?_⟩
    rw [rest, stays]
  · obtain ⟨impossible, _⟩ := comes_submitEach submits
    cases impossible

theorem comes_redistribute_iff (answered : answers (.collection id) = .ok (some shared))
    {ending : Except Failure Nat} :
    (redistribute c id).Comes (World.Elapses answers) w ending w' ↔
      ending = .ok shared.audience.length ∧ w.now ≤ w'.now ∧ w' = { w with
        now := w'.now
        patches := w.patches ++ shared.audience.map (copyPatch id shared) } := by
  refine ⟨comes_redistribute answered, ?_⟩
  rintro ⟨rfl, later, after⟩
  have comes := World.comes_finish answers "" (redistribute c id) { w with now := w'.now }
  have now := World.now_finish (fun _ _ => none) answers "" (redistribute c id)
    { w with now := w'.now }
  generalize (World.regular (fun _ _ => none) answers "").finish (redistribute c id)
    { w with now := w'.now } = finished at comes now
  obtain ⟨ending, final⟩ := finished
  have elapsed : (redistribute c id).Comes (World.Elapses answers) w ending final :=
    World.elapses_of_healthily later comes
  obtain ⟨rfl, _, same⟩ := comes_redistribute answered elapsed
  have same : final = w' := by
    rw [same, after, now]
  exact same ▸ elapsed

theorem finish_redistribute_closed {answering : Answering} {σ : Type}
    (around : Surroundings answering σ) {s : σ}
    (told : (around.reply (.source (.collection id)) s).1 = .ok (some shared))
    (closed : ∀ job s, (around.reply (.offerPatch job) s).1 = false) :
    (around.finish (redistribute c id) s).1 = .error (.queueClosed c.patches.name) ∧
      around.world (around.finish (redistribute c id) s).2 = around.world s := by
  have seen : shared.audience ≠ [] := by simp [SharedCollection.audience]
  obtain ⟨member, others, audience⟩ := List.exists_cons_of_ne_nil seen
  let job := copyPatch id shared member
  let between := (around.reply (.source (.collection id)) s).2
  have asks : around.finish (Program.source ("collection:" ++ id) (.collection id)) s =
      (.ok (some shared), between) := by
    rw [Program.source, Surroundings.finish, told]
    rfl
  have refused : around.finish (submit c job) between =
      (.error (.queueClosed c.patches.name), (around.reply (.offerPatch job) between).2) := by
    change around.finish (.ask (.offerPatch job) _) between = _
    rw [Surroundings.finish, closed]
    rfl
  have ends : around.finish (redistribute c id) s =
      (.error (.queueClosed c.patches.name), (around.reply (.offerPatch job) between).2) := by
    rw [redistribute, Surroundings.finish_bind, asks]
    change around.finish (submitEach c (shared.audience.map (copyPatch id shared)) >>= _) between = _
    rw [audience, List.map_cons, submitEach, Surroundings.finish_bind, Surroundings.finish_bind,
      refused]
  rw [ends]
  refine ⟨rfl, ?_⟩
  have met := around.meets (.offerPatch job) between
  rw [closed] at met
  have unqueued := met.offerPatch
  rw [if_neg Bool.false_ne_true, List.append_nil] at unqueued
  exact unqueued.trans (around.meets (.source (.collection id)) s).source

/-- What the entry of a listing has become: it is written anew, to last from then on as long as the
cache is set up for, and can be read if the collection can; or it has stayed as it was because its
list said the same already. -/
inductive Relisted (c : Config) (shared : SharedCollection) (start finish : Nat) (before : Entry)
    (items edited : List Json) (after : Entry) : Prop
  | written {instant : Nat} (during : start ≤ instant ∧ instant ≤ finish)
    (entry : after =
      ⟨(Json.array edited).text, c.lifetime.map fun span => instant + span.toNanos⟩)
    (reads : shared.collection.Legible (Json.nestingLimit - 1) →
      Json.ofText? after.text = some (Json.array edited).reread)
  | kept (entry : after = before) (same : (Json.array items).same (.array edited) = true)

theorem Relisted.mono {start between finish : Nat} {before after : Entry}
    {items edited : List Json}
    (relisted : Relisted c shared start between before items edited after)
    (later : between ≤ finish) : Relisted c shared start finish before items edited after := by
  cases relisted with
  | written during entry reads =>
    exact .written ⟨during.1, Nat.le_trans during.2 later⟩ entry reads
  | kept entry same => exact .kept entry same

/-- A shared collection has reached everyone who sees it and whose listing had not expired when it
was looked at, and nothing else has changed. -/
structure Redistributed (c : Config) (id : String) (shared : SharedCollection)
    (seen : List Member) (w : World) (s : Watched) : Prop where
  listings : ∀ member ∈ seen, ∀ before items,
    w.entries.get? (Key.of .collections member.user).text = some before →
    Json.ofText? before.text = some (.array items) →
    (∀ instant, ((Key.of .collections member.user).text, instant) ∈ s.looks →
      before.isLive instant = true) →
    ∃ after, s.world.entries.get? (Key.of .collections member.user).text = some after ∧
      Relisted c shared w.now s.world.now before items
        (Edit.upserted id (shared.copyFor member) items) after
  others : ∀ name, (∀ member ∈ seen, name ≠ (Key.of .collections member.user).text) →
    s.world.entries.get? name = w.entries.get? name
  looks : ∀ look ∈ s.looks, w.now ≤ look.2 ∧ look.2 ≤ s.world.now
  later : w.now ≤ s.world.now
  rest : s.world = { w with entries := s.world.entries, now := s.world.now }

theorem legible_upserted {entity : Json} {items : List Json} {room : Nat}
    (before : (Json.array items).Legible (room + 1)) (brought : entity.Legible room) :
    (Json.array (Edit.upserted id entity items)).Legible (room + 1) := by
  have each := Json.legible_array.mp before
  refine Json.legible_array.mpr ?_
  clear before
  induction items with
  | nil => exact List.forall_mem_singleton.mpr brought
  | cons e items ih =>
    obtain ⟨first, others⟩ := List.forall_mem_cons.mp each
    rw [Edit.upserted]
    split
    · exact List.forall_mem_cons.mpr ⟨brought, others⟩
    · exact List.forall_mem_cons.mpr ⟨first, ih others⟩

theorem relisted_of_comes {member : Member} {before : Entry} {items : List Json}
    {ending : Except Failure Report} {u : Watched} (named : member.user ≠ "")
    (there : w.entries.get? (Key.of .collections member.user).text = some before)
    (read : Json.ofText? before.text = some (.array items))
    (comes : (editAll c (copyPatch id shared member)).Comes (Watched.Elapses answers) ⟨w, []⟩
      ending u)
    (live : ∀ instant, ((Key.of .collections member.user).text, instant) ∈ u.looks →
      before.isLive instant = true) :
    ∃ after, u.world.entries.get? (Key.of .collections member.user).text = some after ∧
      Relisted c shared w.now u.world.now before items
        (Edit.upserted id (shared.copyFor member) items) after := by
  let entity := shared.copyFor member
  have several : Namespace.collections.isSingle = false := rfl
  have target := targets_only several member.user id (.upsert entity)
  obtain ⟨xs, runs, follows⟩ := comes
  obtain ⟨outcome, _, edits⟩ := (runs_editAll_of_target target).mp runs
  have edits := edits_of_runs (valid_of_list rfl named) edits
  obtain ⟨reply, ys, rfl⟩ := edits.looks
  cases follows with | @cons _ between _ _ _ first rest =>
  obtain ⟨rfl, later, stays⟩ := first.found there fun instant looked =>
    live instant (Watched.looks_subset rest looked)
  rcases edits.of_found read with ⟨refused, _⟩ | ⟨_, unchanged, rfl, _⟩ |
    ⟨edited, _, changed, saves, _⟩ <;>
    rcases Edit.apply_upsert id entity items with puts | ⟨leaves, same⟩
  · cases refused.symm.trans puts
  · cases refused.symm.trans leaves
  · cases unchanged.symm.trans puts
  · cases rest
    refine ⟨before, ?_, .kept rfl same⟩
    rw [stays]
    exact there
  · obtain rfl : edited = .array _ := (Prod.mk.inj (Option.some.inj (changed.symm.trans puts))).2
    cases saves with | plain _ reply =>
    cases rest with | cons set ends =>
    cases ends
    obtain ⟨since, _, after⟩ := set.1.served
    refine ⟨_, ?_, .written ⟨Nat.le_trans later since, Nat.le_refl _⟩ rfl fun legible => ?_⟩
    · rw [after]
      exact Entries.get?_insert_self ..
    · have copied : entity.Legible (Json.nestingLimit - 1) :=
        SharedCollection.legible_copyFor legible member
      exact (legible_upserted (Json.legible_ofText? read) copied).ofText?_text
  · cases changed.symm.trans leaves

def seenBy (seen : List Member) (user : String) : Member :=
  (seen.find? (·.user = user)).getD ⟨user, .owner⟩

theorem seenBy_user {seen : List Member} (distinct : (seen.map (·.user)).Nodup) {member : Member}
    (sees : member ∈ seen) : seenBy seen member.user = member := by
  unfold seenBy
  cases found : seen.find? (·.user = member.user) with
  | none => simpa using List.find?_eq_none.mp found member sees
  | some other =>
    have same : other.user = member.user := by simpa using List.find?_some found
    exact List.inj_on_of_nodup_map distinct (List.mem_of_find?_eq_some found) sees same

theorem inevitably_redistributed {seen order : List Member}
    (distinct : (seen.map (·.user)).Nodup) (named : ∀ member ∈ seen, member.user ≠ "")
    (permuted : order.Perm seen) :
    Inevitably (Watched.Elapses answers) (fun _ => Redistributed c id shared seen w)
      (order.map fun member => (member.user, editAll c (copyPatch id shared member))) ⟨w, []⟩ := by
  have several : Namespace.collections.isSingle = false := rfl
  -- The programs are told apart by their users, so each copy is looked up by its user.
  let program (user : String) : Program Report :=
    editAll c ⟨.collections, [user], id, .upsert (shared.copyFor (seenBy seen user))⟩
  have there : ∀ member ∈ order, member ∈ seen := fun member => permuted.mem_iff.mp
  have own : ∀ member ∈ seen,
      program member.user = editAll c (copyPatch id shared member) := by
    intro member sees
    simp only [program, seenBy_user distinct sees, copyPatch]
  have renamed : (order.map fun member => (member.user, editAll c (copyPatch id shared member))) =
      (order.map (·.user)).map fun user => (user, program user) := by
    rw [List.map_map]
    apply List.map_congr_left
    intro member sees
    rw [Function.comp_apply, own member (there member sees)]
  have unique : (order.map (·.user)).Nodup := (permuted.map _).nodup_iff.mpr distinct
  have undisturbed : Inevitably (Watched.Elapses answers)
      (fun _ => Watched.Undisturbed answers (fun user => (Key.of .collections user).text) program
        (order.map (·.user)) w) ((order.map (·.user)).map fun user => (user, program user)) ⟨w, []⟩ :=
    Watched.inevitably_undisturbed answers owner_of_text
      (fun user _ => within_editAll_only several user id _) unique w
  rw [renamed]
  apply undisturbed.mono
  rintro _ s ⟨alone, others, looks, later, rest⟩
  refine ⟨?_, ?_, looks, later, rest⟩
  · intro member sees before items stored read live
    obtain ⟨ending, u, comes, level⟩ :=
      alone member.user (List.mem_map_of_mem (permuted.mem_iff.mpr sees))
    rw [own member sees] at comes
    obtain ⟨after, left, relisted⟩ := relisted_of_comes (named member sees) stored read comes
      fun instant looked => live instant ((level.looks instant).mpr looked)
    exact ⟨after, level.entry.trans left, relisted.mono level.later⟩
  · intro name apart
    apply others name
    intro user listed
    obtain ⟨member, sees, rfl⟩ := List.mem_map.mp listed
    exact apart member (there member sees)

/-- A shared collection that is an object, with one row for each of its members, is read anew. An
open queue is given one copy for each member but the owner, in their order, and then one for the
owner, each with that user's own permissions; a closed one is given none, and that is the failure.
The copies reach the listings in any order that the jobs are carried out in, each its own, however
much time passes between their calls, as long as a listing has not expired when it is looked at. -/
theorem redistribution_exact {fields : Fields} (object : shared.collection = .object fields)
    (distinct : (shared.members.map (·.user)).Nodup) (owned : shared.owner ≠ "")
    (named : ∀ member ∈ shared.members, member.user ≠ "") (c : Config) (id : String) (w : World) :
    let seen : List Member := shared.members.filter (·.user ≠ shared.owner) ++
      [⟨shared.owner, ⟨true, true, true⟩⟩]
    let job (member : Member) : Patch :=
      ⟨.collections, [member.user], id, .upsert (shared.copyFor member)⟩
    (∀ member, SharedCollection.Tells fields member.permissions (shared.copyFor member)) ∧
    (∀ answers : Answers, answers (.collection id) = .ok (some shared) →
      ∀ ending w', (redistribute c id).Comes (World.Elapses answers) w ending w' ↔
        ending = .ok seen.length ∧ w.now ≤ w'.now ∧
          w' = { w with now := w'.now, patches := w.patches ++ seen.map job }) ∧
    (∀ answering σ (around : Surroundings answering σ) s,
      (around.reply (.source (.collection id)) s).1 = .ok (some shared) →
      (∀ job s, (around.reply (.offerPatch job) s).1 = false) →
      (around.finish (redistribute c id) s).1 = .error (.queueClosed c.patches.name) ∧
        around.world (around.finish (redistribute c id) s).2 = around.world s) ∧
    ∀ (answers : Answers) (order : List Member), order.Perm seen →
      let programs := order.map fun member => (member.user, editAll c (job member))
      Inevitably (Watched.Elapses answers) (fun _ => Redistributed c id shared seen w) programs
          ⟨w, []⟩ ∧
        ∀ results s, OneByOne (Watched.Elapses answers) programs ⟨w, []⟩ results s →
          Redistributed c id shared seen w s := by
  intro seen job
  have users : (seen.map (·.user)).Nodup := SharedCollection.users_audience distinct
  have nonempty : ∀ member ∈ seen, member.user ≠ "" := by
    intro member sees
    rcases List.mem_append.mp sees with other | last
    · exact named member (List.mem_filter.mp other).1
    · obtain rfl := List.mem_singleton.mp last
      exact owned
  refine ⟨SharedCollection.tells_copyFor object, ?_, ?_, ?_⟩
  · intro answers answered ending w'
    exact comes_redistribute_iff answered
  · intro answering σ around s told closed
    exact finish_redistribute_closed around told closed
  · intro answers order permuted programs
    have inevitable : Inevitably (Watched.Elapses answers)
        (fun _ => Redistributed c id shared seen w) programs ⟨w, []⟩ :=
      inevitably_redistributed users nonempty permuted
    exact ⟨inevitable, fun results s comes => inevitable.oneByOne comes⟩

def sharedByTwo : SharedCollection :=
  ⟨bare "5", "1", [⟨"1", ⟨false, false, false⟩⟩, ⟨"42", ⟨true, false, false⟩⟩]⟩

/-- The member's empty listing is to hold a copy with the member's permissions for a nanosecond, and
the owner's own row counts for nothing. -/
theorem redistribution_exact_two :
    let c : Config := { Config.standard with lifetime := some { seconds := 0, nanos := 1 } }
    let answers : Answers := fun
      | .collection _ => .ok (some sharedByTwo)
      | _ => .error "unknown"
    let member : Member := ⟨"42", ⟨true, false, false⟩⟩
    let owner : Member := ⟨"1", ⟨true, true, true⟩⟩
    let jobs := [copyPatch "5" sharedByTwo member, copyPatch "5" sharedByTwo owner]
    (redistribute c "5").Comes (World.Elapses answers) emptyListing (.ok 2)
        { emptyListing with now := 3, patches := jobs } ∧
      Inevitably (Watched.Elapses answers)
        (fun _ s => ∃ instant ≤ s.world.now,
          s.world.entries.get? (Key.of .collections "42").text =
            some ⟨(Json.array [sharedByTwo.copyFor member]).text, some (instant + 1)⟩)
        [("1", editAll c (copyPatch "5" sharedByTwo owner)),
          ("42", editAll c (copyPatch "5" sharedByTwo member))] ⟨emptyListing, []⟩ := by
  intro c answers member owner jobs
  have named : ∀ member ∈ sharedByTwo.members, member.user ≠ "" := by decide
  have distinct : (sharedByTwo.members.map (·.user)).Nodup := by decide
  have object : sharedByTwo.collection = .object _ := rfl
  obtain ⟨_, queues, _, spreads⟩ :=
    redistribution_exact object distinct (by decide) named c "5" emptyListing
  refine ⟨(queues answers rfl _ _).mpr ⟨rfl, by decide, rfl⟩, ?_⟩
  obtain ⟨inevitable, _⟩ := spreads answers [owner, member] (List.Perm.swap member owner [])
  apply inevitable.mono
  intro results s reached
  have sees : member ∈ [member, owner] := List.mem_cons_self
  obtain ⟨after, left, relisted⟩ :=
    reached.listings member sees _ _ there_emptyListing read_empty fun _ _ => rfl
  cases relisted with
  | written during entry reads =>
    refine ⟨_, during.2, ?_⟩
    rw [left, entry]
    simp [c, Edit.upserted, Span.toNanos]
  | kept entry same => cases same

/-- Where entries last for no time, a listing is gone when it has its copy, however the run goes. -/
theorem redistribution_fleeting :
    let shared : SharedCollection := ⟨bare "5", "42", []⟩
    let key := Key.of .collections "42"
    emptyListing.stored? key = some (Json.array []).text ∧
      Json.ofText? (Json.array []).text = some (.array []) ∧
      Inevitably (Watched.Elapses nothingListed) (fun _ s => s.world.stored? key = none)
        [("42", editAll fleeting (copyPatch "5" shared ⟨"42", .owner⟩))] ⟨emptyListing, []⟩ := by
  intro shared key
  have found : emptyListing.stored? key = some (Json.array []).text :=
    Entries.find?_of_live there_emptyListing rfl
  refine ⟨found, read_empty, ?_⟩
  have distinct : ([⟨"42", .owner⟩].map Member.user).Nodup := List.nodup_singleton "42"
  have inevitable : Inevitably (Watched.Elapses nothingListed)
      (fun _ => Redistributed fleeting "5" shared [⟨"42", .owner⟩] emptyListing)
      [("42", editAll fleeting (copyPatch "5" shared ⟨"42", .owner⟩))] ⟨emptyListing, []⟩ :=
    inevitably_redistributed distinct (by decide) (List.Perm.refl _)
  apply inevitable.mono
  intro results s reached
  obtain ⟨after, left, relisted⟩ := reached.listings ⟨"42", .owner⟩ List.mem_cons_self _ _
    there_emptyListing read_empty fun _ _ => rfl
  cases relisted with
  | written during entry reads =>
    subst entry
    unfold World.stored? Entries.find?
    rw [left]
    simp [Entry.isLive, fleeting, Span.toNanos, Span.zero, during.2]
  | kept entry same => cases same

end Cache

end CacheAside
