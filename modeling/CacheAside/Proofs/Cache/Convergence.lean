import CacheAside.Proofs.Cache.Healthy

namespace CacheAside

namespace Cache

open World

variable {answers : Answers} {w : World} {c : Config} {key : Key} {v : Json}

/-- What holds of a text and the value that it stands for once the value of a key has been rebuilt
to `v`. -/
structure Rebuilt (c : Config) (v : Json) (text : String) (stored : Json) : Prop where
  read : Json.ofText? text = some stored
  payload : payload c stored = payload c v
  plain : (∀ stampField fields, c.stampField = some stampField → v ≠ .object fields) →
    stored = v ∧ text = v.text
  stamped : ∀ stampField fields, c.stampField = some stampField → v = .object fields →
    Kept c v text stored

theorem Kept.rebuilt {text : String} {stored : Json} (kept : Kept c v text stored) :
    Rebuilt c v text stored := by
  refine ⟨kept.read, kept.payload, fun unstamped => ?_, fun _ _ _ _ => kept⟩
  obtain ⟨stampField, fields, _, configured, same, _⟩ := kept
  exact absurd same (unstamped stampField fields configured)

theorem rebuilt_written (integral : v.Integral) (sorted : v.Sorted)
    (shallow : v.depth ≤ Json.nestingLimit) (time : String) :
    Rebuilt c v (written c time v).text (written c time v) := by
  have read : Json.ofText? (written c time v).text = some (written c time v) := by
    rw [ofText?_written integral sorted, if_pos (Nat.le_trans (depth_payload_le c v) shallow)]
  refine ⟨read, payload_written c time v, fun unstamped => ?_, ?_⟩
  · rw [written_of_unstamped time unstamped]
    exact ⟨rfl, rfl⟩
  · intro stampField fields configured same
    subst same
    rw [written_object configured] at read ⊢
    refine ⟨stampField, fields, _, configured, rfl, read, rfl, ?_, ?_⟩
    · rw [Json.Fields.find?_insert_self]
      rfl
    · rw [Json.Fields.erase_insert_self, Json.Fields.erase_idem]

theorem Rebuilt.carries {text stampField : String} {fields : Json.Fields}
    (rebuilt : Rebuilt c v text (.object fields)) (configured : c.stampField = some stampField) :
    (Json.Fields.find? fields stampField).isSome := by
  cases v with
  | object fields' =>
    obtain ⟨_, _, members, configured', _, _, same, stamped, _⟩ :=
      rebuilt.stamped stampField fields' configured rfl
    cases same
    cases configured.symm.trans configured'
    exact stamped
  | _ => cases (rebuilt.plain fun _ _ _ => nofun).1

/-- How long an entry lasts once the value of its key has been rebuilt to `v`. Where entries are to
last for ever, one that is kept still ends when it was to end. -/
structure Renewed (c : Config) (v : Json) (w : World) (key : Key) (text : String)
    (expiry : Option Nat) : Prop where
  lasting : ∀ lifetime, c.lifetime = some lifetime → expiry = some (w.now + lifetime.toNanos)
  kept : c.lifetime = none → ∀ old object, w.stored? key = some old → Kept c v old object →
    w.entries.get? key.text = some ⟨text, expiry⟩
  written : c.lifetime = none →
    (∀ old, w.stored? key = some old → ¬ ∃ object, Kept c v old object) → expiry = none

theorem perform_rebuild_kept {text : String} {stored : Json} (time : String) (valid : key.Valid)
    (value : answers.value? c key = some v) (integral : v.Integral)
    (found : w.stored? key = some text) (kept : Kept c v text stored) :
    ∃ w' expiry, w.perform answers time (rebuild c key) = (some (.ok stored), w') ∧
      w'.entries.get? key.text = some ⟨text, expiry⟩ ∧ Renewed c v w key text expiry := by
  have saves : w.perform answers time (save c key v) = _ := perform_save_kept integral found kept
  have rebuilds := perform_rebuild valid value saves
  obtain ⟨entry, there, live, rfl⟩ := Entries.live_of_find? found
  cases lasts : c.lifetime with
  | none =>
    simp only [lasts, Option.isSome_none, Bool.false_eq_true, if_false] at rebuilds
    exact ⟨_, entry.expiry, rebuilds, there, by simp [lasts], fun _ _ _ _ _ => there,
      fun _ changed => absurd ⟨stored, kept⟩ (changed entry.text found)⟩
  | some lifetime =>
    simp only [lasts, Option.isSome_some, if_true] at rebuilds
    refine ⟨_, _, rebuilds, Entries.get?_insert_self .., ?_, by simp [lasts], by simp [lasts]⟩
    intro _ same
    cases lasts.symm.trans same
    rfl

theorem perform_rebuild_written (time : String) (valid : key.Valid)
    (value : answers.value? c key = some v) (integral : v.Integral)
    (changed : ∀ text, w.stored? key = some text → ¬ ∃ value, Kept c v text value) :
    ∃ w' expiry, w.perform answers time (rebuild c key) = (some (.ok (written c time v)), w') ∧
      w'.entries.get? key.text = some ⟨(written c time v).text, expiry⟩ ∧
      Renewed c v w key (written c time v).text expiry := by
  have saves : w.perform answers time (save c key v) = _ := perform_save_written integral changed
  have rebuilds := perform_rebuild valid value saves
  refine ⟨_, _, rebuilds, Entries.get?_insert_self .., ?_, ?_, ?_⟩
  · intro lifetime lasts
    rw [lasts]
    rfl
  · intro _ old object found kept
    exact absurd ⟨object, kept⟩ (changed old found)
  · intro endless _
    rw [endless]
    rfl

theorem perform_rebuild_again {text : String} {stored : Json} (time : String) (valid : key.Valid)
    (value : answers.value? c key = some v) (integral : v.Integral)
    (rebuilt : Rebuilt c v text stored) (found : w.stored? key = some text) :
    ∃ w' expiry, w.perform answers time (rebuild c key) = (some (.ok stored), w') ∧
      w'.entries.get? key.text = some ⟨text, expiry⟩ ∧ Renewed c v w key text expiry := by
  by_cases unstamped : ∀ stampField fields, c.stampField = some stampField → v ≠ .object fields
  · obtain ⟨rfl, rfl⟩ := rebuilt.plain unstamped
    have changed : ∀ text, w.stored? key = some text → ¬ ∃ value, Kept c stored text value := by
      intro _ _ kept
      obtain ⟨_, stampField, fields, _, configured, same, _⟩ := kept
      exact unstamped stampField fields configured same
    have written := perform_rebuild_written time valid value integral changed
    rwa [written_of_unstamped time unstamped] at written
  · simp only [Classical.not_forall, ne_eq, Classical.not_not] at unstamped
    obtain ⟨stampField, fields, configured, same⟩ := unstamped
    exact perform_rebuild_kept time valid value integral found
      (rebuilt.stamped stampField fields configured same)

/-- Whatever was stored, a rebuild leaves a text that is read as the value it answers, and that
value has the payload of the present one. A stamped object with that payload stays byte for byte;
any other object is stamped with the present time. As long as the entry lasts the next rebuild
leaves it as it is. -/
theorem rebuild_converges (time time' : String) (valid : key.Valid)
    (value : answers.value? c key = some v) (integral : v.Integral) (sorted : v.Sorted)
    (shallow : v.depth ≤ Json.nestingLimit) :
    ∃ stored text expiry w',
      w.perform answers time (rebuild c key) = (some (.ok stored), w') ∧
      w'.entries.get? key.text = some ⟨text, expiry⟩ ∧
      Json.ofText? text = some stored ∧
      payload c stored = payload c v ∧
      ((∀ stampField fields, c.stampField = some stampField → v ≠ .object fields) → stored = v) ∧
      (∀ stampField fields, c.stampField = some stampField → stored = .object fields →
        (Json.Fields.find? fields stampField).isSome) ∧
      (∀ old object, w.stored? key = some old → Kept c v old object →
        text = old ∧ stored = object) ∧
      ((∀ old, w.stored? key = some old → ¬ ∃ object, Kept c v old object) →
        ∀ stampField fields, c.stampField = some stampField → stored = .object fields →
          Json.Fields.find? fields stampField = some (.string time)) ∧
      Renewed c v w key text expiry ∧
      ∀ later, Entry.isLive later ⟨text, expiry⟩ = true → ∃ w'' expiry',
        perform answers time' (rebuild c key) { w' with now := later } =
          (some (.ok stored), w'') ∧
        w''.entries.get? key.text = some ⟨text, expiry'⟩ ∧
        Renewed c v { w' with now := later } key text expiry' := by
  -- What the next rebuild does depends only on what this one has left.
  have again : ∀ {stored : Json} {text : String} {expiry : Option Nat} {w' : World},
      Rebuilt c v text stored → w'.entries.get? key.text = some ⟨text, expiry⟩ →
      ∀ later, Entry.isLive later ⟨text, expiry⟩ = true → ∃ w'' expiry',
        perform answers time' (rebuild c key) { w' with now := later } =
          (some (.ok stored), w'') ∧
        w''.entries.get? key.text = some ⟨text, expiry'⟩ ∧
        Renewed c v { w' with now := later } key text expiry' :=
    fun rebuilt there later live =>
      perform_rebuild_again time' valid value integral rebuilt (Entries.find?_of_live there live)
  by_cases stays : ∃ old object, w.stored? key = some old ∧ Kept c v old object
  · obtain ⟨old, object, found, kept⟩ := stays
    obtain ⟨w', expiry, rebuilds, there, renewed⟩ :=
      perform_rebuild_kept time valid value integral found kept
    have rebuilt := kept.rebuilt
    refine ⟨object, old, expiry, w', rebuilds, there, rebuilt.read, rebuilt.payload,
      fun unstamped => (rebuilt.plain unstamped).1, ?_, ?_, ?_, renewed, again rebuilt there⟩
    · intro stampField fields configured same
      subst same
      exact rebuilt.carries configured
    · intro old' object' found' kept'
      cases found.symm.trans found'
      cases kept.read.symm.trans kept'.read
      exact ⟨rfl, rfl⟩
    · intro changed
      exact absurd ⟨object, kept⟩ (changed old found)
  · have changed : ∀ text, w.stored? key = some text → ¬ ∃ value, Kept c v text value :=
      fun text found ⟨object, kept⟩ => stays ⟨text, object, found, kept⟩
    obtain ⟨w', expiry, rebuilds, there, renewed⟩ :=
      perform_rebuild_written time valid value integral changed
    have rebuilt : Rebuilt c v _ _ := rebuilt_written integral sorted shallow time
    refine ⟨_, _, expiry, w', rebuilds, there, rebuilt.read, rebuilt.payload,
      fun unstamped => (rebuilt.plain unstamped).1, ?_, ?_, ?_, renewed, again rebuilt there⟩
    · intro stampField fields configured same
      rw [same] at rebuilt
      exact rebuilt.carries configured
    · intro old object found kept
      exact absurd ⟨object, kept⟩ (changed old found)
    · intro _ stampField fields configured same
      exact find?_written configured same

/-- Where nothing was stored, the statistics of a user are stamped, and stay so while the entry
lasts. -/
theorem rebuild_converges_uploads :
    let key := Key.of .userStats "7"
    ∃ stored text w',
      World.perform (Answers.statistics Json.uploads) "2025" (rebuild .standard key)
        .empty = (some (.ok stored), w') ∧
      Json.ofText? text = some stored ∧ payload .standard stored = Json.uploads ∧
      w'.entries.get? key.text = some ⟨text, none⟩ ∧
      ∃ w'', World.perform (Answers.statistics Json.uploads) "2026" (rebuild .standard key)
        { w' with now := 1 } = (some (.ok stored), w'') := by
  intro key
  have shallow : Json.uploads.depth ≤ Json.nestingLimit := by decide
  have valid : key.Valid := by decide
  obtain ⟨stored, text, expiry, w', rebuilds, there, read, same, _, _, _, _, renewed, again⟩ :=
    rebuild_converges (w := .empty) (c := .standard) "2025" "2026" valid
      (Answers.value?_statistics Json.uploads .standard "7") Json.integral_uploads
      Json.sorted_uploads shallow
  obtain rfl : expiry = none := renewed.written rfl nofun
  obtain ⟨w'', _, repeated, _⟩ := again 1 rfl
  exact ⟨stored, text, w', rebuilds, read, same, there, w'', repeated⟩

def fleeting : Config := { Config.standard with lifetime := some .zero }

/-- An entry that is kept but lasts for no time is gone at once, so that the next rebuild stamps the
value anew. -/
theorem rebuild_fleeting :
    let key := Key.of .userStats "7"
    let old := written fleeting "2020" Json.uploads
    let start : World := { World.empty with entries := .ofList [(key.text, old.text)] }
    ∃ first w' second w'',
      start.perform (Answers.statistics Json.uploads) "2025" (rebuild fleeting key) =
        (some (.ok first), w') ∧
      w'.stored? key = none ∧
      w'.perform (Answers.statistics Json.uploads) "2026" (rebuild fleeting key) =
        (some (.ok second), w'') ∧
      first ≠ second := by
  intro key old start
  have shallow : Json.uploads.depth ≤ Json.nestingLimit := by decide
  have valid : key.Valid := by decide
  have value : (Answers.statistics Json.uploads).value? fleeting key = some Json.uploads :=
    Answers.value?_statistics Json.uploads fleeting "7"
  have kept : Kept fleeting Json.uploads old.text old :=
    (rebuilt_written Json.integral_uploads Json.sorted_uploads shallow "2020").stamped
      "_cachedAt" [("uploads", .nat 3)] rfl rfl
  have there : start.entries.get? key.text = some ⟨old.text, none⟩ := Entries.get?_insert_self ..
  have found : start.stored? key = some old.text := Entries.find?_of_live there rfl
  let w' : World := { start with entries := start.entries.set 0 key.text old.text (some .zero) }
  have keeps : start.perform (Answers.statistics Json.uploads) "2025" (rebuild fleeting key) =
      (some (.ok old), w') :=
    perform_rebuild valid value (perform_save_kept Json.integral_uploads found kept)
  have gone : w'.stored? key = none := Entries.find?_set_zero start.entries 0 key.text old.text
  have changed : ∀ text, w'.stored? key = some text →
      ¬ ∃ object, Kept fleeting Json.uploads text object := by
    intro text stored
    cases gone.symm.trans stored
  have saves : w'.perform (Answers.statistics Json.uploads) "2026"
      (save fleeting key Json.uploads) = _ := perform_save_written Json.integral_uploads changed
  have writes := perform_rebuild valid value saves
  refine ⟨_, _, _, _, keeps, gone, writes, fun same => ?_⟩
  have stamp : ∀ time, (written fleeting time Json.uploads).field? "_cachedAt" =
      some (.string time) := fun time => Json.Fields.find?_insert_self ..
  have times := (stamp "2020").symm.trans
    ((congrArg (Json.field? · "_cachedAt") same).trans (stamp "2026"))
  simp at times

end Cache

end CacheAside
