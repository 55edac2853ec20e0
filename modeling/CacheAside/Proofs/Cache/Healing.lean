import CacheAside.Proofs.Cache.Healthy

namespace CacheAside

theorem Rebuild.target?_ofKey_of_named {key : Key}
    (named : key.id.isSome = true ∨ key.ns.isSingle = true) :
    (Rebuild.ofKey key).target? = some key := by
  rcases key with ⟨ns, id⟩
  rcases named with named | single
  · cases id with
    | none => cases named
    | some id => rfl
  · simp only at single
    simp [ofKey, target?, isSweep, single]

theorem Rebuild.target?_ofKey {key : Key} (valid : key.Valid) :
    (Rebuild.ofKey key).target? = some key := by
  apply target?_ofKey_of_named
  unfold Key.Valid Key.check at valid
  cases single : key.ns.isSingle <;> cases named : key.id <;> simp_all

namespace World

theorem stored?_later {w : World} {key : Key} {later : Nat} {rebuilds : List Rebuild}
    (order : w.now ≤ later) (missing : w.stored? key = none) :
    stored? { w with now := later, rebuilds := rebuilds } key = none := by
  refine Option.eq_none_iff_forall_ne_some.mpr fun text found => ?_
  obtain ⟨entry, there, live, rfl⟩ := Entries.live_of_find? found
  have before := Entries.find?_of_live there (Entries.isLive_of_le order live)
  cases missing.symm.trans before

end World

namespace Cache

open World

variable {answers : Answers} {time : String} {w : World} {c : Config} {key : Key} {v : Json}

theorem perform_carryOut {w' : World} {value : Json} (valid : key.Valid)
    (rebuilds : w.perform answers time (rebuild c key) = (some (.ok value), w')) :
    w.perform answers time (carryOut c (.ofKey key)) = (some (.ok ()), w') := by
  simp only [carryOut, Rebuild.target?_ofKey valid]
  rw [perform_bind rebuilds]
  rfl

theorem perform_carryOut_of_missing (valid : key.Valid) (value : answers.value? c key = some v)
    (integral : v.Integral) (missing : w.stored? key = none) :
    w.perform answers time (carryOut c (.ofKey key)) = (some (.ok ()),
      { w with entries := w.entries.set w.now key.text (written c time v).text c.lifetime }) := by
  have changed : ∀ text, w.stored? key = some text → ¬ ∃ value, Kept c v text value := by
    intro text stored
    cases missing.symm.trans stored
  exact perform_carryOut valid
    (perform_rebuild valid value (perform_save_written integral changed))

/-- A read that finds nothing it can read answers from the source and queues one job, and the job
stores a text. While that text lasts the next read finds it if and only if the payload is no deeper
than a text may be; otherwise the text is erased and all begins again. -/
theorem read_heals (time time' time'' : String) {working : Nat} (valid : key.Valid)
    (value : answers.value? c key = some v) (integral : v.Integral) (sorted : v.Sorted)
    (missing : (w.stored? key).bind Json.ofText? = none) (order : w.now ≤ working) :
    ∃ missed healed text,
      w.perform answers time (read c key) = (some (.ok ⟨v, .derived⟩), missed) ∧
      missed.rebuilds = w.rebuilds ++ [.ofKey key] ∧
      perform answers time' (carryOut c (.ofKey key))
        { missed with rebuilds := w.rebuilds, now := working } = (some (.ok ()), healed) ∧
      healed.entries.get? key.text =
        some ⟨text, c.lifetime.map fun span => working + span.toNanos⟩ ∧
      (∀ looking, (∀ lifetime, c.lifetime = some lifetime → looking < working + lifetime.toNanos) →
        ((∃ found, payload c found = payload c v ∧
          perform answers time'' (read c key) { healed with now := looking } =
            (some (.ok ⟨found, .stored⟩), { healed with now := looking })) ↔
          (payload c v).depth ≤ Json.nestingLimit) ∧
        (Json.nestingLimit < (payload c v).depth →
          perform answers time'' (read c key) { healed with now := looking } =
            (some (.ok ⟨v, .derived⟩),
              { healed with
                now := looking
                entries := healed.entries.erase key.text
                rebuilds := healed.rebuilds ++ [.ofKey key] }))) ∧
      ((payload c v).depth ≤ Json.nestingLimit →
        Json.ofText? (payload c v).text = some (payload c v)) := by
  let missed : World := { w.looked key with rebuilds := w.rebuilds ++ [.ofKey key] }
  let begun : World := { missed with rebuilds := w.rebuilds, now := working }
  let text := (written c time' v).text
  let healed : World := { begun with entries := begun.entries.set working key.text text c.lifetime }
  have reads : w.perform answers time (read c key) = (some (.ok ⟨v, .derived⟩), missed) :=
    perform_read_of_missing valid value missing
  have nothing : begun.stored? key = none := by
    have order' : (w.looked key).now ≤ working := by
      rw [looked_eq]
      exact order
    exact stored?_later order' (stored?_looked missing)
  have works : begun.perform answers time' (carryOut c (.ofKey key)) = (some (.ok ()), healed) :=
    perform_carryOut_of_missing valid value integral nothing
  have there : healed.entries.get? key.text =
      some ⟨text, c.lifetime.map fun span => working + span.toNanos⟩ := Entries.get?_insert_self ..
  have readBack := ofText?_written integral sorted c time'
  refine ⟨missed, healed, text, reads, rfl, works, there, fun looking lasts => ?_, ?_⟩
  · have stored : stored? { healed with now := looking } key = some text := by
      refine Entries.find?_of_live there ?_
      cases lasting : c.lifetime with
      | none => rfl
      | some lifetime => exact decide_eq_true (lasts lifetime lasting)
    -- Any depth is written but not read, so what nests too deep is missing again.
    have deepens : Json.nestingLimit < (payload c v).depth →
        perform answers time'' (read c key) { healed with now := looking } =
          (some (.ok ⟨v, .derived⟩),
            { healed with
              now := looking
              entries := healed.entries.erase key.text
              rebuilds := healed.rebuilds ++ [.ofKey key] }) := by
      intro deep
      have unread : Json.ofText? text = none := by
        rw [readBack, if_neg (Nat.not_le.mpr deep)]
      have again : (stored? { healed with now := looking } key).bind Json.ofText? = none := by
        rw [stored]
        exact unread
      rw [perform_read_of_missing valid value again, looked_of_unread stored unread]
    refine ⟨⟨?_, fun shallow => ?_⟩, deepens⟩
    · intro h
      obtain ⟨found, _, hit⟩ := h
      refine Nat.not_lt.mp fun deep => ?_
      cases hit.symm.trans (deepens deep)
    · have read : Json.ofText? text = some (written c time' v) := by
        rw [readBack, if_pos shallow]
      exact ⟨written c time' v, payload_written c time' v,
        perform_read_of_stored valid stored read⟩
  · intro shallow
    rw [Json.ofText?_text (integral_payload integral) (sorted_payload sorted), if_pos shallow]

/-- Where nothing was stored, the statistics of a user are found once the job of the first read is
done. -/
theorem read_heals_uploads :
    let key := Key.of .userStats "7"
    ∃ missed healed found,
      World.perform (Answers.statistics Json.uploads) "2025" (read .standard key)
        .empty = (some (.ok ⟨Json.uploads, .derived⟩), missed) ∧
      missed.rebuilds = [.ofKey key] ∧
      World.perform (Answers.statistics Json.uploads) "2026" (carryOut .standard (.ofKey key))
        { missed with rebuilds := [], now := 1 } = (some (.ok ()), healed) ∧
      payload .standard found = Json.uploads ∧
      World.perform (Answers.statistics Json.uploads) "2027" (read .standard key)
        { healed with now := 2 } = (some (.ok ⟨found, .stored⟩), { healed with now := 2 }) := by
  intro key
  have shallow : (payload .standard Json.uploads).depth ≤ Json.nestingLimit := by decide
  have valid : key.Valid := by decide
  obtain ⟨missed, healed, text, reads, queued, works, there, next, _⟩ :=
    read_heals (w := .empty) (c := .standard) "2025" "2026" "2027" valid
      (Answers.value?_statistics Json.uploads .standard "7") Json.integral_uploads
      Json.sorted_uploads rfl (Nat.zero_le 1)
  obtain ⟨found, same, hit⟩ := (next 2 nofun).1.mpr shallow
  exact ⟨missed, healed, found, reads, queued, works, same, hit⟩

end Cache

end CacheAside
