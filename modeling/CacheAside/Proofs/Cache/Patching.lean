import CacheAside.Proofs.Cache.Convergence
import CacheAside.Proofs.Cache.Editing
import CacheAside.Proofs.Edits
import CacheAside.Proofs.Json.Parsed

namespace CacheAside

/-- An edit of one entity, and the time at which its turn comes. -/
structure Turn where
  instant : Nat
  time : String
  entity : String
  edit : Edit

namespace Turn

def edited (turn : Turn) (entry : Json) : Json :=
  match turn.edit.apply turn.entity entry with
  | some (_, edited) => edited
  | none => entry

def outcome (turn : Turn) (key : String) (entry : Json) : Except Failure Outcome :=
  match turn.edit.apply turn.entity entry with
  | some (true, _) => .ok .applied
  | some (false, _) => .ok .unchanged
  | none => .error (.notAList key)

def editedEach (turns : List Turn) (entry : Json) : Json :=
  turns.foldl (fun entry turn => turn.edited entry) entry

def outcomes (key : String) : List Turn → Json → List (Except Failure Outcome)
  | [], _ => []
  | turn :: turns, entry => turn.outcome key entry :: outcomes key turns (turn.edited entry)

end Turn

def SourceFault.listed : Except String (Option (List Json)) → Except SourceFault (List Json)
  | .ok (some items) => .ok items
  | .ok none => .error .notFound
  | .error reason => .error (.backend reason)

def Answers.listing (answers : Answers) (ns : Namespace) (owner : String) :
    Except SourceFault (List Json) :=
  match ns with
  | .autoCollects => SourceFault.listed (answers (.autoCollects owner))
  | _ => SourceFault.listed (answers (.collections owner))

namespace World

variable (answers : Answers) (c : Config) (ns : Namespace) (owner : String)

def patch (turn : Turn) (w : World) : Option (Except Failure Report) × World :=
  { w with now := turn.instant }.perform answers turn.time
    (Cache.editAll c ⟨ns, [owner], turn.entity, turn.edit⟩)

def patchEach : List Turn → World → List (Option (Except Failure Report)) × World
  | [], w => ([], w)
  | turn :: turns, w =>
    let (report, w) := w.patch answers c ns owner turn
    let (reports, w) := patchEach turns w
    (report :: reports, w)

/-- The entry of an owner does not expire before a patch whose turn has come has read it. -/
def Lasts : List Turn → World → Prop
  | [], _ => True
  | turn :: turns, w =>
    (∀ entry, w.entries.get? (Key.of ns owner).text = some entry →
      entry.isLive turn.instant = true) ∧
    Lasts turns (w.patch answers c ns owner turn).2

end World

namespace Cache

open World

variable {answers : Answers} {time : String} {w w' : World} {c : Config} {ns : Namespace}
  {owner : String} {key : Key} {job : Patch} {turn : Turn} {turns : List Turn}

theorem isSingle_of_list (listed : ns.shape = .list) : ns.isSingle = false := by
  cases ns with
  | collections => rfl
  | autoCollects => rfl
  | _ => cases listed

theorem valid_of_list (listed : ns.shape = .list) (named : owner ≠ "") :
    (Key.of ns owner).Valid := by
  unfold Key.Valid Key.check
  simp only [Key.of, isSingle_of_list listed, if_neg named]

theorem perform_editAll_only {result : Except Failure Outcome} {entity : String} {edit : Edit}
    (listed : ns.shape = .list)
    (edits : w.perform answers time (editEntry c ⟨ns, [owner], entity, edit⟩ (.of ns owner)) =
      (some result, w')) :
    w.perform answers time (editAll c ⟨ns, [owner], entity, edit⟩) =
      (some (.ok (.only owner result)), w') := by
  rw [editAll_of_target (targets_only (isSingle_of_list listed) owner entity edit)]
  rw [perform_bind (perform_attempt edits)]
  rfl

theorem perform_save_array {items : List Json} :
    w.perform answers time (save c key (.array items)) = (some (.ok (.array items)),
      { w with entries := w.entries.set w.now key.text (Json.array items).text c.lifetime }) := by
  unfold save
  cases c.stampField <;> rfl

-- What one patch does to an entry that can be read, by what the edit makes of it.

section Read

variable {text : String} {entry edited : Json}

theorem perform_loaded (found : w.stored? key = some text) (read : Json.ofText? text = some entry) :
    w.perform answers time (load key) = (some (.ok (some entry)), w) := by
  rw [perform_load, looked_of_read found read, found, Option.bind_some, read]

theorem perform_editEntry_refused (valid : key.Valid) (found : w.stored? key = some text)
    (read : Json.ofText? text = some entry) (refused : job.edit.apply job.entity entry = none) :
    w.perform answers time (editEntry c job key) = (some (.error (.notAList key.text)), w) := by
  rw [editEntry, perform_bind (perform_check valid), perform_bind (perform_loaded found read)]
  simp only [refused]
  rfl

theorem perform_editEntry_unchanged (valid : key.Valid) (found : w.stored? key = some text)
    (read : Json.ofText? text = some entry)
    (same : job.edit.apply job.entity entry = some (false, edited)) :
    w.perform answers time (editEntry c job key) = (some (.ok .unchanged), w) := by
  rw [editEntry, perform_bind (perform_check valid), perform_bind (perform_loaded found read)]
  simp only [same]
  rfl

theorem perform_editEntry_applied {items : List Json} (valid : key.Valid)
    (found : w.stored? key = some text) (read : Json.ofText? text = some entry)
    (changed : job.edit.apply job.entity entry = some (true, .array items)) :
    w.perform answers time (editEntry c job key) = (some (.ok .applied),
      { w with entries := w.entries.set w.now key.text (Json.array items).text c.lifetime }) := by
  rw [editEntry, perform_bind (perform_check valid), perform_bind (perform_loaded found read)]
  simp only [changed]
  rw [perform_bind perform_save_array]
  rfl

end Read

structure Listed (key : Key) (items : List Json) (entry : Entry) (w : World) : Prop where
  there : w.entries.get? key.text = some entry
  read : Json.ofText? entry.text = some (.array items)
  integral : (Json.array items).Integral

theorem live_set {lifetime : Option Span} (lasting : ∀ l, lifetime = some l → 0 < l.toNanos)
    (now : Nat) (text : String) :
    Entry.isLive now ⟨text, lifetime.map fun span => now + span.toNanos⟩ = true := by
  cases lifetime with
  | none => rfl
  | some l =>
    have positive := lasting l rfl
    simp only [Entry.isLive, Option.map_some, decide_eq_true_eq]
    omega

theorem Listed.patch (answers : Answers) (c : Config) {items : List Json} {entry : Entry}
    (list : ns.shape = .list) (named : owner ≠ "") (listed : Listed (.of ns owner) items entry w)
    (live : entry.isLive turn.instant = true) (itemwise : turn.edit.Itemwise)
    (shallow : (turn.edited (.array items)).depth ≤ Json.nestingLimit) :
    ∃ items' entry' w', turn.edited (.array items) = .array items' ∧
      (turn.outcome (Key.of ns owner).text (.array items) = .ok .applied ∨
        turn.outcome (Key.of ns owner).text (.array items) = .ok .unchanged) ∧
      w.patch answers c ns owner turn =
        (some (.ok (.only owner (turn.outcome (Key.of ns owner).text (.array items)))), w') ∧
      Listed (.of ns owner) items' entry' w' ∧
      ((∀ l, c.lifetime = some l → 0 < l.toNanos) →
        w'.stored? (.of ns owner) = some entry'.text) := by
  have valid := valid_of_list list named
  have found : { w with now := turn.instant }.stored? (.of ns owner) = some entry.text :=
    Entries.find?_of_live listed.there live
  have applies := Edit.apply_array itemwise.ne_replace turn.entity items
  cases edits : turn.edit.editList turn.entity items with
  | none =>
    rw [edits] at applies
    have stays : turn.edited (.array items) = .array items := by simp only [Turn.edited, applies]
    have outcome : turn.outcome (Key.of ns owner).text (.array items) = .ok .unchanged := by
      simp only [Turn.outcome, applies]
    refine ⟨items, entry, { w with now := turn.instant }, stays, .inr outcome, ?_,
      ⟨listed.there, listed.read, listed.integral⟩, fun _ => found⟩
    rw [outcome]
    exact perform_editAll_only list (perform_editEntry_unchanged valid found listed.read applies)
  | some edited =>
    rw [edits] at applies
    have becomes : turn.edited (.array items) = .array edited := by
      simp only [Turn.edited, applies]
    have outcome : turn.outcome (Key.of ns owner).text (.array items) = .ok .applied := by
      simp only [Turn.outcome, applies]
    have integral := itemwise.integral edits listed.integral
    have sorted := itemwise.sorted edits (Json.sorted_ofText? listed.read)
    have read : Json.ofText? (Json.array edited).text = some (.array edited) := by
      rw [Json.ofText?_text integral sorted, if_pos (becomes ▸ shallow)]
    let text := (Json.array edited).text
    let entry' : Entry := ⟨text, c.lifetime.map fun span => turn.instant + span.toNanos⟩
    let w' : World :=
      { w with
        entries := w.entries.set turn.instant (Key.of ns owner).text text c.lifetime
        now := turn.instant }
    have there : w'.entries.get? (Key.of ns owner).text = some entry' := Entries.get?_insert_self ..
    have performed :
        w.patch answers c ns owner turn = (some (.ok (.only owner (.ok .applied))), w') :=
      perform_editAll_only list
        (perform_editEntry_applied valid found listed.read applies)
    refine ⟨edited, entry', w', becomes, .inl outcome, ?_, ⟨there, read, integral⟩, ?_⟩
    · rw [outcome]
      exact performed
    · intro lasting
      exact Entries.find?_of_live there (live_set lasting turn.instant text)

/-- The run: the text keeps step with the list, patch by patch. -/
theorem Listed.patchEach {items : List Json} {entry : Entry} (list : ns.shape = .list)
    (named : owner ≠ "") (listed : Listed (.of ns owner) items entry w)
    (lasts : w.Lasts answers c ns owner turns) (itemwise : ∀ turn ∈ turns, turn.edit.Itemwise)
    (shallow : ∀ before, before <+: turns →
      (Turn.editedEach before (.array items)).depth ≤ Json.nestingLimit) :
    ∃ entry' w', w.patchEach answers c ns owner turns =
        ((Turn.outcomes (Key.of ns owner).text turns (.array items)).map fun outcome =>
          some (.ok (.only owner outcome)), w') ∧
      (∀ outcome ∈ Turn.outcomes (Key.of ns owner).text turns (.array items),
        outcome = .ok .applied ∨ outcome = .ok .unchanged) ∧
      w'.entries.get? (Key.of ns owner).text = some entry' ∧
      Json.ofText? entry'.text = some (Turn.editedEach turns (.array items)) ∧
      (turns ≠ [] → (∀ l, c.lifetime = some l → 0 < l.toNanos) →
        w'.stored? (.of ns owner) = some entry'.text) := by
  induction turns generalizing w items entry with
  | nil =>
    exact ⟨entry, w, rfl, List.forall_mem_nil _, listed.there, listed.read, fun h => absurd rfl h⟩
  | cons turn turns ih =>
    obtain ⟨live, later⟩ := lasts
    obtain ⟨first, others⟩ := List.forall_mem_cons.mp itemwise
    have once : (turn.edited (.array items)).depth ≤ Json.nestingLimit :=
      shallow [turn] ⟨turns, rfl⟩
    obtain ⟨items', entry₁, w₁, becomes, outcome, patched, listed₁, stored₁⟩ :=
      listed.patch answers c list named (live entry listed.there) first once
    rw [patched] at later
    have shallow₁ : ∀ before, before <+: turns →
        (Turn.editedEach before (.array items')).depth ≤ Json.nestingLimit := by
      intro before start
      rw [← becomes]
      exact shallow (turn :: before) (List.prefix_cons_inj turn |>.mpr start)
    obtain ⟨entry', w', run, outcomes, there, read, stored⟩ := ih listed₁ later others shallow₁
    refine ⟨entry', w', ?_, ?_, there, ?_, fun _ lasting => ?_⟩
    · rw [World.patchEach, patched]
      simp only [run, Turn.outcomes, List.map_cons, becomes]
    · rw [Turn.outcomes, becomes]
      exact List.forall_mem_cons.mpr ⟨outcome, outcomes⟩
    · rw [read, ← becomes]
      rfl
    · cases turns with
      | nil =>
        cases run
        cases listed₁.there.symm.trans there
        exact stored₁ lasting
      | cons => exact stored (List.cons_ne_nil _ _) lasting

theorem patchEach_other {entry : Entry} {value : Json} (list : ns.shape = .list)
    (named : owner ≠ "") (there : w.entries.get? (Key.of ns owner).text = some entry)
    (read : Json.ofText? entry.text = some value) (other : ∀ items, value ≠ .array items)
    (lasts : w.Lasts answers c ns owner turns) (itemwise : ∀ turn ∈ turns, turn.edit.Itemwise) :
    ∃ w', w.patchEach answers c ns owner turns =
        (turns.map fun _ =>
          some (.ok (.only owner (.error (.notAList (Key.of ns owner).text)))), w') ∧
      w'.entries = w.entries := by
  induction turns generalizing w with
  | nil => exact ⟨w, rfl, rfl⟩
  | cons turn turns ih =>
    obtain ⟨live, later⟩ := lasts
    obtain ⟨first, others⟩ := List.forall_mem_cons.mp itemwise
    have found : { w with now := turn.instant }.stored? (.of ns owner) = some entry.text :=
      Entries.find?_of_live there (live entry there)
    have patched : w.patch answers c ns owner turn =
        (some (.ok (.only owner (.error (.notAList (Key.of ns owner).text)))),
          { w with now := turn.instant }) :=
      perform_editAll_only list (perform_editEntry_refused (valid_of_list list named) found read
        (Edit.apply_other first.ne_replace turn.entity other))
    rw [patched] at later
    obtain ⟨w', run, same⟩ := ih (w := { w with now := turn.instant }) there later others
    refine ⟨w', ?_, same⟩
    rw [World.patchEach, patched]
    simp only [run, List.map_cons]

theorem perform_source {name : String} {question : Question} :
    w.perform answers time (Program.source name question) =
      (some ((answers question).mapError fun reason => .source name (.backend reason)), w) := by
  cases answered : answers question with
  | ok answer =>
    simp only [World.perform, Program.source, Program.run, World.healthy, answered]
    rfl
  | error reason =>
    simp only [World.perform, Program.source, Program.run, World.healthy, answered]
    rfl

theorem perform_listed {name : String} {p : Program (Option (List Json))}
    {answer : Except String (Option (List Json))}
    (asked : w.perform answers time p =
      (some (answer.mapError fun reason => .source name (.backend reason)), w)) :
    w.perform answers time (do return Json.array (← Program.found name (← p))) =
      (some (match SourceFault.listed answer with
        | .ok items => .ok (.array items)
        | .error fault => .error (.source name fault)), w) := by
  cases answer with
  | error reason => exact perform_bind_error asked
  | ok found =>
    refine (perform_bind asked).trans ?_
    cases found <;> rfl

theorem perform_derive_listing (list : ns.shape = .list) :
    w.perform answers time (derive c (.of ns owner)) =
      (some (match answers.listing ns owner with
        | .ok items => .ok (.array items)
        | .error fault => .error (.source (Key.of ns owner).text fault)), w) := by
  cases ns with
  | collections => exact perform_listed perform_source
  | autoCollects => exact perform_listed perform_source
  | _ => cases list

theorem patch_missing {result : Except Failure Json} (list : ns.shape = .list)
    (named : owner ≠ "")
    (missing : ({ w with now := turn.instant }.stored? (.of ns owner)).bind Json.ofText? = none)
    (rebuilds : ({ w with now := turn.instant }.looked (.of ns owner)).perform answers turn.time
      (rebuild c (.of ns owner)) = (some result, w')) :
    w.patch answers c ns owner turn =
      (some (.ok (.only owner (result.map fun _ => .rebuilt))), w') := by
  let before : World := { w with now := turn.instant }
  have loads : before.perform answers turn.time (load (.of ns owner)) =
      (some (.ok none), before.looked (.of ns owner)) := by
    rw [perform_load, missing]
  refine perform_editAll_only list ?_
  rw [editEntry, perform_bind (perform_check (valid_of_list list named)), perform_bind loads]
  cases result with
  | ok value => exact perform_bind rebuilds
  | error failure => exact perform_bind_error rebuilds

theorem perform_rebuild_listing {items : List Json} (list : ns.shape = .list) (named : owner ≠ "")
    (source : answers.listing ns owner = .ok items) :
    w.perform answers time (rebuild c (.of ns owner)) = (some (.ok (.array items)),
      { w with
        entries :=
          w.entries.set w.now (Key.of ns owner).text (Json.array items).text c.lifetime }) := by
  have derives : w.perform answers time (derive c (.of ns owner)) = _ := perform_derive_listing list
  rw [source] at derives
  rw [rebuild, perform_bind (perform_check (valid_of_list list named)), perform_bind derives]
  exact perform_save_array

theorem perform_rebuild_unlisted {fault : SourceFault} (list : ns.shape = .list)
    (named : owner ≠ "") (source : answers.listing ns owner = .error fault) :
    w.perform answers time (rebuild c (.of ns owner)) =
      (some (.error (.source (Key.of ns owner).text fault)), w) := by
  have derives : w.perform answers time (derive c (.of ns owner)) = _ := perform_derive_listing list
  rw [source] at derives
  rw [rebuild, perform_bind (perform_check (valid_of_list list named))]
  exact perform_bind_error derives

theorem runs_editAll_only {entity : String} {edit : Edit} {xs : List Exchange} {report : Report}
    (list : ns.shape = .list)
    (runs : (editAll c ⟨ns, [owner], entity, edit⟩).Runs xs (some (.ok report))) :
    ∃ outcome, report = .only owner outcome ∧
      (editEntry c ⟨ns, [owner], entity, edit⟩ (.of ns owner)).Runs xs (some outcome) := by
  have target := targets_only (isSingle_of_list list) owner entity edit
  obtain ⟨outcome, same, edits⟩ := (runs_editAll_of_target target).mp runs
  cases same
  exact ⟨outcome, rfl, edits⟩

/-- The text of an owner's listing keeps step with the list itself through any number of patches, as
long as it does not expire in between: every outcome says whether the edit changed the list, and
what changes nothing is not written. An entry that is no list stays byte for byte, and one that is
missing is listed anew instead of edited. -/
theorem patches_fold (list : ns.shape = .list) (named : owner ≠ "")
    (itemwise : ∀ t ∈ turn :: turns, t.edit.Itemwise) :
    let key := Key.of ns owner
    (∀ items entry, w.entries.get? key.text = some entry →
      Json.ofText? entry.text = some (.array items) → (Json.array items).Integral →
      w.Lasts answers c ns owner (turn :: turns) →
      (∀ before, before <+: turn :: turns →
        (Turn.editedEach before (.array items)).depth ≤ Json.nestingLimit) →
      ∃ entry' w', w.patchEach answers c ns owner (turn :: turns) =
          ((Turn.outcomes key.text (turn :: turns) (.array items)).map fun outcome =>
            some (.ok (.only owner outcome)), w') ∧
        (∀ outcome ∈ Turn.outcomes key.text (turn :: turns) (.array items),
          outcome = .ok .applied ∨ outcome = .ok .unchanged) ∧
        w'.entries.get? key.text = some entry' ∧
        Json.ofText? entry'.text = some (Turn.editedEach (turn :: turns) (.array items)) ∧
        ((∀ l, c.lifetime = some l → 0 < l.toNanos) → w'.stored? key = some entry'.text)) ∧
    (∀ t ∈ turn :: turns, ∀ xs,
      (editAll c ⟨ns, [owner], t.entity, t.edit⟩).Runs xs
        (some (.ok (.only owner (.ok .unchanged)))) →
      Exchange.storeCalls xs = [.get key.text]) ∧
    (∀ entry value, w.entries.get? key.text = some entry → Json.ofText? entry.text = some value →
      (∀ items, value ≠ .array items) → w.Lasts answers c ns owner (turn :: turns) →
      ∃ w', w.patchEach answers c ns owner (turn :: turns) =
          ((turn :: turns).map fun _ =>
            some (.ok (.only owner (.error (.notAList key.text)))), w') ∧
        w'.entries = w.entries) ∧
    (({ w with now := turn.instant }.stored? key).bind Json.ofText? = none →
      (∀ items, answers.listing ns owner = .ok items → (Json.array items).Integral →
        (Json.array items).Sorted → (Json.array items).depth ≤ Json.nestingLimit →
        ∃ entry' w',
          w.patch answers c ns owner turn = (some (.ok (.only owner (.ok .rebuilt))), w') ∧
          w'.entries.get? key.text = some entry' ∧
          Json.ofText? entry'.text = some (.array items)) ∧
      (∀ fault, answers.listing ns owner = .error fault →
        ∃ w', w.patch answers c ns owner turn =
            (some (.ok (.only owner (.error (.source key.text fault)))), w') ∧
          w'.stored? key = none)) := by
  intro key
  refine ⟨?_, ?_, ?_, fun missing => ⟨?_, ?_⟩⟩
  · intro items entry there read integral lasts shallow
    obtain ⟨entry', w', run, outcomes, there', read', stored⟩ :=
      Listed.patchEach list named ⟨there, read, integral⟩ lasts itemwise shallow
    exact ⟨entry', w', run, outcomes, there', read', stored (List.cons_ne_nil _ _)⟩
  · intro t _ xs runs
    obtain ⟨outcome, same, edits⟩ := runs_editAll_only list runs
    cases same
    exact runs_editEntry_unchanged edits
  · intro entry value there read other lasts
    exact patchEach_other list named there read other lasts itemwise
  · intro items source integral sorted shallow
    have read : Json.ofText? (Json.array items).text = some (.array items) := by
      rw [Json.ofText?_text integral sorted, if_pos shallow]
    have patched : w.patch answers c ns owner turn = _ :=
      patch_missing list named missing (perform_rebuild_listing list named source)
    exact ⟨_, _, patched, Entries.get?_insert_self .., read⟩
  · intro fault source
    have patched : w.patch answers c ns owner turn = _ :=
      patch_missing list named missing (perform_rebuild_unlisted list named source)
    exact ⟨_, patched, stored?_looked missing⟩

def bare (id : String) : Json := .object [(Entity.idField, .string id)]

theorem itemwise_bare (id : String) : (Edit.upsert (bare id)).Itemwise :=
  ⟨⟨True.intro, True.intro⟩, List.pairwise_singleton _ _, True.intro, True.intro⟩

def nothingListed : Answers
  | .collections _ => .ok (some [])
  | _ => .error "unknown"

theorem integral_empty : (Json.array []).Integral := True.intro

theorem read_empty : Json.ofText? (Json.array []).text = some (.array []) := by
  have sorted : (Json.array []).Sorted := True.intro
  rw [Json.ofText?_text integral_empty sorted]
  rfl

def emptyListing : World :=
  { World.empty with entries := .ofList [((Key.of .collections "42").text, (Json.array []).text)] }

theorem there_emptyListing :
    emptyListing.entries.get? (Key.of .collections "42").text = some ⟨(Json.array []).text, none⟩ :=
  Entries.get?_insert_self ..

theorem patch_emptyListing (c : Config) (time : String) :
    emptyListing.patch nothingListed c .collections "42" ⟨1, time, "1", .upsert (bare "1")⟩ =
      (some (.ok (.only "42" (.ok .applied))),
        { emptyListing with
          entries := emptyListing.entries.set 1 (Key.of .collections "42").text
            (Json.array [bare "1"]).text c.lifetime
          now := 1 }) := by
  have found : { emptyListing with now := 1 }.stored? (.of .collections "42") =
      some (Json.array []).text := Entries.find?_of_live there_emptyListing rfl
  exact perform_editAll_only rfl
    (perform_editEntry_applied (valid_of_list rfl (by decide)) found read_empty rfl)

/-- One collection is put into an empty listing, and then once more. -/
theorem patches_fold_bare :
    let turns : List Turn :=
      [⟨1, "2025", "1", .upsert (bare "1")⟩, ⟨2, "2026", "1", .upsert (bare "1")⟩]
    ∃ (entry : Entry) (w' : World),
      emptyListing.patchEach nothingListed .standard .collections "42" turns =
        ([some (.ok (.only "42" (.ok .applied))), some (.ok (.only "42" (.ok .unchanged)))], w') ∧
      w'.stored? (.of .collections "42") = some entry.text ∧
      Json.ofText? entry.text = some (.array [bare "1"]) := by
  intro turns
  have itemwise : ∀ turn ∈ turns, turn.edit.Itemwise :=
    List.forall_mem_cons.mpr ⟨itemwise_bare "1",
      List.forall_mem_cons.mpr ⟨itemwise_bare "1", List.forall_mem_nil _⟩⟩
  have lasts : emptyListing.Lasts nothingListed .standard .collections "42" turns := by
    refine ⟨fun entry there => ?_, fun entry there => ?_, True.intro⟩
    · cases there_emptyListing.symm.trans there
      rfl
    · rw [patch_emptyListing] at there
      cases (Entries.get?_insert_self ..).symm.trans there
      rfl
  have shallow : ∀ before, before <+: turns →
      (Turn.editedEach before (.array [])).depth ≤ Json.nestingLimit := by
    intro before start
    simp only [turns, List.prefix_cons_iff, List.prefix_nil] at start
    rcases start with rfl | ⟨_, rfl, rfl | ⟨_, rfl, rfl⟩⟩ <;> decide
  obtain ⟨entry, w', run, _, _, read, stored⟩ :=
    (patches_fold rfl (by decide) itemwise).1 [] _ there_emptyListing read_empty integral_empty
      lasts shallow
  exact ⟨entry, w', run, stored nofun, read⟩

/-- Where entries last for no time, a patch that was applied is gone at once, and the next one meets
with no list. -/
theorem patches_fleeting :
    let turns : List Turn :=
      [⟨1, "2025", "1", .upsert (bare "1")⟩, ⟨1, "2025", "2", .upsert (bare "2")⟩]
    Turn.outcomes (Key.of .collections "42").text turns (.array []) = [.ok .applied, .ok .applied] ∧
      ∃ w', emptyListing.patchEach nothingListed fleeting .collections "42" turns =
          ([some (.ok (.only "42" (.ok .applied))), some (.ok (.only "42" (.ok .rebuilt)))], w') ∧
        w'.stored? (.of .collections "42") = none := by
  intro turns
  let key := Key.of .collections "42"
  let w₁ : World :=
    { emptyListing with
      entries := emptyListing.entries.set 1 key.text (Json.array [bare "1"]).text (some .zero)
      now := 1 }
  have first : emptyListing.patch nothingListed fleeting .collections "42"
      ⟨1, "2025", "1", .upsert (bare "1")⟩ = (some (.ok (.only "42" (.ok .applied))), w₁) :=
    patch_emptyListing fleeting "2025"
  have gone : w₁.stored? key = none := Entries.find?_set_zero ..
  let looked := w₁.looked key
  let w₂ : World :=
    { looked with
      entries := looked.entries.set looked.now key.text (Json.array []).text (some .zero) }
  have named : "42" ≠ "" := by decide
  have second : w₁.patch nothingListed fleeting .collections "42"
      ⟨1, "2025", "2", .upsert (bare "2")⟩ = (some (.ok (.only "42" (.ok .rebuilt))), w₂) :=
    patch_missing rfl named (congrArg (·.bind Json.ofText?) gone)
      (perform_rebuild_listing rfl named rfl)
  have gone_again : w₂.stored? key = none := Entries.find?_set_zero ..
  refine ⟨rfl, w₂, ?_, gone_again⟩
  simp only [turns, World.patchEach, first, second]

end Cache

end CacheAside
