import CacheAside.Proofs.Cache.Patching
import CacheAside.Proofs.Cache.Restamping
import CacheAside.Proofs.Edits.Exactness

namespace CacheAside

namespace Cache

open Json (Fields)
open Program Exchange

variable {c : Config} {key : Key} {job : Patch} {owner text time stampField : String}
  {entry v : Json} {fields : Fields} {xs : List Exchange}

/-- A stamped entry says the same as a value, whatever their stamps. -/
def Echoes (c : Config) (entry v : Json) : Prop :=
  ∃ stampField, c.stampField = some stampField ∧ (entry.field? stampField).isSome = true ∧
    (payload c entry).same (payload c v) = true

theorem unchanged?_eq_some_iff (configured : c.stampField = some stampField)
    (read : Json.ofText? text = some entry) {stored : Json} :
    unchanged? stampField (Fields.erase stampField fields) text = some stored ↔
      Echoes c entry (.object fields) ∧ entry = stored := by
  unfold unchanged? Echoes
  rw [read, configured]
  cases entry with
  | object members =>
    simp only [Option.some.injEq, exists_eq_left', Json.field?, payload_object configured,
      Json.same, Option.ite_none_right_eq_some]
  | _ => simp [Json.field?]

theorem not_echoes (unstamped : ∀ stampField fields, c.stampField = some stampField →
    v ≠ .object fields) (entry : Json) : ¬ Echoes c entry v := by
  rintro ⟨stampField, configured, stampedBefore, same⟩
  cases entry with
  | object members =>
    rw [payload_object configured] at same
    cases v with
    | object fields => exact unstamped stampField fields configured rfl
    | _ => cases same
  | _ => cases stampedBefore

theorem same_or_echoes (wellMade : WellMade v)
    (rereads : (payload c v).reread.same (payload c v) = true)
    (read : Json.ofText? (written c time v).text = some entry) :
    entry.same v = true ∨ Echoes c entry v := by
  -- Only an object is written with a stamp; anything else is its own payload.
  by_cases stamps : ∃ stampField fields, c.stampField = some stampField ∧ v = .object fields
  · obtain ⟨stampField, fields, configured, rfl⟩ := stamps
    rw [written_object configured, ofText?_stamped wellMade.1 wellMade.2,
      Option.ite_none_right_eq_some] at read
    obtain rfl := Option.some.inj read.2
    refine .inr ⟨stampField, configured, ?_, ?_⟩
    · rw [Json.field?, find?_retold]
      rfl
    · rw [payload_object configured] at rereads
      rw [payload_object configured, payload_object configured, erase_retold, Fields.erase_idem]
      exact rereads
  · have unstamped : ∀ stampField fields, c.stampField = some stampField → v ≠ .object fields :=
      fun stampField fields configured same => stamps ⟨stampField, fields, configured, same⟩
    rw [payload_of_unstamped unstamped] at rereads
    rw [written_of_unstamped time unstamped, Json.ofText?_text_of_finite wellMade.1 wellMade.2,
      Option.ite_none_right_eq_some] at read
    obtain rfl := Option.some.inj read.2
    exact .inl rereads

theorem wellMade_edited (entryMade : WellMade entry)
    (brought : ∀ value, job.edit = .replace value ∨ job.edit = .upsert value → WellMade value)
    {edited : Json} (changes : job.edit.apply job.entity entry = some (true, edited)) :
    WellMade edited := by
  by_cases whole : ∃ value, job.edit = .replace value
  · obtain ⟨value, replaces⟩ := whole
    rw [replaces, Edit.apply] at changes
    split at changes
    · cases changes
    · cases changes
      exact brought _ (.inl replaces)
  · have single : ∀ value, job.edit ≠ .replace value := fun value same => whole ⟨value, same⟩
    obtain ⟨items, edited, rfl, edits, rfl⟩ := Edit.apply_eq_changed single changes
    have each : ∀ v ∈ edited, WellMade v := by
      refine Edit.forall_mem_editList edits (fun v there => ?_)
        (fun v same => brought v (.inr same)) fun fields field children object found stays => ?_
      · exact ⟨Json.finiteItems_iff.mp entryMade.1 v there,
          Json.sortedItems_iff.mp entryMade.2 v there⟩
      · have legible : (Json.object fields).Legible _ := ⟨object.1, object.2, Nat.le_refl _⟩
        have fewer := legible.filter found stays
        exact ⟨fewer.finite, fewer.sorted⟩
    exact ⟨Json.finiteItems_iff.mpr fun v there => (each v there).1,
      Json.sortedItems_iff.mpr fun v there => (each v there).2⟩

/-- What the outcome of an edit tells about the texts of an entry that is `entry` before it, and is
to be `after`. An entry that changes by its stamp alone is left as it is and counts as edited; apart
from that the outcome says whether the text is another one, as long as the doubles in it are read as
they were written. -/
structure Tells (c : Config) (entry after : Json) (text text' : String) (told : Outcome) :
    Prop where
  untouched : told = .unchanged → text' = text
  restamped : entry.same after = false → Echoes c entry after → told = .applied ∧ text' = text
  truthful : ¬ (entry.same after = false ∧ Echoes c entry after) →
    (payload c after).reread.same (payload c after) = true →
      (told = .applied ↔ text' ≠ text) ∧ (told = .unchanged ↔ text' = text)

theorem Tells.of_unchanged {after : Json} (alike : ¬ entry.same after = false) :
    Tells c entry after text text .unchanged where
  untouched _ := rfl
  restamped differs := absurd differs alike
  truthful _ _ := ⟨iff_of_false nofun fun differs => differs rfl, iff_of_true rfl rfl⟩

theorem Tells.of_kept {after : Json} (differs : entry.same after = false)
    (echoes : Echoes c entry after) : Tells c entry after text text .applied where
  untouched := nofun
  restamped _ _ := ⟨rfl, rfl⟩
  truthful otherwise := absurd ⟨differs, echoes⟩ otherwise

theorem Tells.of_written {after : Json} (read : Json.ofText? text = some entry)
    (wellMade : WellMade after) (differs : entry.same after = false)
    (silent : ¬ Echoes c entry after) (time : String) :
    Tells c entry after text (written c time after).text .applied where
  untouched := nofun
  restamped _ echoes := absurd echoes silent
  truthful _ rereads := by
    have another : (written c time after).text ≠ text := by
      rintro rfl
      rcases same_or_echoes wellMade rereads read with same | echoes
      · exact Bool.false_ne_true (differs.symm.trans same)
      · exact silent echoes
    exact ⟨iff_of_true rfl another, iff_of_false nofun another⟩

section Served

variable {σ : Type} {answering : Answering} {around : Surroundings answering σ} {s s' : σ}

theorem stored_of_set (healthy : around.Healthy) (everlasting : c.lifetime = none)
    {reply : Except String Unit}
    (replied : around.reply (.store (.set key.text text c.lifetime)) s = (reply, s')) :
    reply = .ok () ∧ (around.world s').stored? key = some text := by
  obtain ⟨rfl, after⟩ := healthy.served replied
  refine ⟨rfl, ?_⟩
  rw [after, everlasting]
  exact Entries.find?_of_live (Entries.get?_insert_self ..) rfl

theorem Saves.of_stored (healthy : around.Healthy) (everlasting : c.lifetime = none)
    (found : (around.world s).stored? key = some text) (read : Json.ofText? text = some entry)
    {saved : Except Failure Json} (saves : Saves c key v xs saved)
    (follows : around.Follows s xs s') :
    (Echoes c entry v ∧ saved = .ok entry ∧ (around.world s').stored? key = some text) ∨
      ¬ Echoes c entry v ∧ ∃ time, saved = .ok (written c time v) ∧
        (around.world s').stored? key = some (written c time v).text := by
  cases saves with
  | plain unstamped reply =>
    cases follows with | cons set rest =>
    cases rest
    obtain ⟨rfl, there⟩ := stored_of_set healthy everlasting set
    refine .inr ⟨not_echoes unstamped entry, "", ?_⟩
    rw [written_of_unstamped "" unstamped]
    exact ⟨rfl, there⟩
  | outOfReach configured reason =>
    cases follows with | cons get rest =>
    obtain ⟨impossible, _⟩ := healthy.served get
    cases impossible
  | kept configured _ same =>
    cases follows with | cons get rest =>
    cases rest
    obtain ⟨again, stays⟩ := healthy.served get
    obtain rfl := Option.some.inj ((Except.ok.inj again).trans found)
    obtain ⟨echoes, rfl⟩ := (unchanged?_eq_some_iff configured read).mp same
    refine .inl ⟨echoes, rfl, ?_⟩
    rw [stays]
    exact found
  | prolonged _ lasting => exact absurd everlasting lasting
  | renewed configured changed time reply =>
    cases follows with | cons get rest =>
    cases rest with | cons _ rest =>
    cases rest with | cons set rest =>
    cases rest
    obtain ⟨again, _⟩ := healthy.served get
    obtain rfl := (Except.ok.inj again).trans found
    obtain ⟨rfl, there⟩ := stored_of_set healthy everlasting set
    refine .inr ⟨fun echoes => ?_, time, rfl, there⟩
    cases changed.symm.trans ((unchanged?_eq_some_iff configured read).mpr ⟨echoes, rfl⟩)

/-- While every call of the store is served and entries last, a patch of a stored entry ends: either
it is refused and the text stays, or it tells in this way what has come of the text. -/
theorem patch_tells (healthy : around.Healthy) (valid : key.Valid) (everlasting : c.lifetime = none)
    (target : job.targets = [(owner, key)])
    (found : (around.world s).stored? key = some text) (read : Json.ofText? text = some entry)
    (brought : ∀ value, job.edit = .replace value ∨ job.edit = .upsert value → WellMade value) :
    ∃ xs outcome s' text', (editAll c job).Runs xs (some (.ok (.only owner outcome))) ∧
      around.Follows s xs s' ∧ (around.world s').stored? key = some text' ∧
      ((job.edit.apply job.entity entry = none ∧ outcome = .error (.notAList key.text) ∧
          text' = text) ∨
        ∃ told, outcome = .ok told ∧
          Tells c entry (job.edit.edited job.entity entry) text text' told) := by
  obtain ⟨xs, ending, s', runs, follows⟩ := around.exists_runs (editAll c job) s
  obtain ⟨outcome, rfl, edits⟩ := (runs_editAll_of_target target).mp runs
  obtain ⟨ys, between, rfl, stays, rest, ⟨refused, rfl, rfl⟩ | ⟨same, stay, rfl, rfl⟩ |
    ⟨edited, saved, changes, saves, rfl⟩⟩ :=
      (edits_of_runs valid edits).of_stored healthy found read follows
  · cases rest
    rw [← stays] at found
    exact ⟨_, _, s', text, runs, follows, found, .inl ⟨refused, rfl, rfl⟩⟩
  · cases rest
    rw [← stays] at found
    have alike := (Edit.apply_eq_some_iff.mp stay).changed_iff
    rw [Edit.edited_of_apply stay]
    exact ⟨_, _, s', text, runs, follows, found,
      .inr ⟨_, rfl, .of_unchanged fun differs => Bool.false_ne_true (alike.mpr differs)⟩⟩
  · rw [← stays] at found
    have differs := (Edit.apply_eq_some_iff.mp changes).changed_iff.mp rfl
    have wellMade : WellMade edited :=
      wellMade_edited ⟨Json.finite_ofText? read, Json.sorted_ofText? read⟩ brought changes
    rw [Edit.edited_of_apply changes]
    rcases saves.of_stored healthy everlasting found read rest with
      ⟨echoes, rfl, there⟩ | ⟨silent, time, rfl, there⟩
    · exact ⟨_, _, s', text, runs, follows, there, .inr ⟨_, rfl, .of_kept differs echoes⟩⟩
    · exact ⟨_, _, s', _, runs, follows, there,
        .inr ⟨_, rfl, .of_written read wellMade differs silent time⟩⟩

end Served

def counted : World :=
  { World.empty with
    entries := .ofList [((Key.of .userStats "7").text,
      (written .standard "2020" Json.uploads).text)] }

theorem stored_counted : counted.stored? (.of .userStats "7") =
    some (written .standard "2020" Json.uploads).text :=
  Entries.find?_of_live (Entries.get?_insert_self ..) rfl

theorem read_counted : Json.ofText? (written .standard "2020" Json.uploads).text =
    some (written .standard "2020" Json.uploads) := by
  rw [ofText?_written Json.integral_uploads Json.sorted_uploads, if_pos (by decide)]

/-- Statistics are replaced by others. -/
theorem patch_tells_counted :
    let before := (written .standard "2020" Json.uploads).text
    ∃ xs told w' after,
      (editAll .standard ⟨.userStats, ["7"], "", .replace (.object [])⟩).Runs xs
        (some (.ok (.only "7" (.ok told)))) ∧
      (World.healthy nothingListed "2025").Follows counted xs w' ∧
      w'.stored? (.of .userStats "7") = some after ∧
      (told = .applied ↔ after ≠ before) ∧ (told = .unchanged ↔ after = before) := by
  intro before
  have brought : ∀ value, Edit.replace (.object []) = .replace value ∨
      Edit.replace (.object []) = .upsert value → WellMade value := by
    intro value brings
    obtain rfl : .object [] = value := brings.elim Edit.replace.inj nofun
    exact ⟨True.intro, List.Pairwise.nil, True.intro⟩
  obtain ⟨xs, outcome, w', after, runs, follows, there, ⟨refused, _⟩ | ⟨told, rfl, tells⟩⟩ :=
    @patch_tells .standard (.of .userStats "7") ⟨.userStats, ["7"], "", .replace (.object [])⟩ "7"
      _ _ _ _ _ counted (World.healthy_serves nothingListed "2025") (by decide) rfl rfl
      stored_counted read_counted brought
  · cases refused
  · refine ⟨xs, told, w', after, runs, follows, there, tells.truthful ?_ rfl⟩
    rintro ⟨_, _, ⟨⟩, _, same⟩
    cases same

/-- Statistics that are replaced by the same, but without their stamp, are reported as edited, and
nothing is written. -/
theorem patch_untold :
    let key := Key.of .userStats "7"
    let before := (written .standard "2020" Json.uploads).text
    counted.stored? key = some before ∧
      counted.perform nothingListed "2025"
          (editAll .standard ⟨.userStats, ["7"], "", .replace Json.uploads⟩) =
        (some (.ok (.only "7" (.ok .applied))), counted) := by
  intro key before
  have valid : key.Valid := by decide
  have kept : Kept .standard Json.uploads before (written .standard "2020" Json.uploads) :=
    ⟨"_cachedAt", _, _, rfl, rfl, read_counted, rfl, rfl, rfl⟩
  have edits : counted.perform nothingListed "2025"
      (editEntry .standard ⟨.userStats, ["7"], "", .replace Json.uploads⟩ key) =
        (some (.ok .applied), counted) := by
    rw [editEntry, World.perform_bind (World.perform_check valid),
      World.perform_bind (perform_loaded stored_counted read_counted)]
    exact World.perform_bind (perform_save_kept Json.integral_uploads stored_counted kept)
  refine ⟨stored_counted, ?_⟩
  rw [editAll_of_target (targets_only rfl "7" "" (.replace Json.uploads)),
    World.perform_bind (World.perform_attempt edits)]
  rfl

end Cache

end CacheAside
