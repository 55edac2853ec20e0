import CacheAside.Cache.Entry
import CacheAside.Proofs.Json.Members
import CacheAside.Proofs.Json.RoundTrip

namespace CacheAside

namespace Json

def uploads : Json := .object [("uploads", .nat 3)]

theorem integral_uploads : uploads.Integral := by
  have fits : Number.Fits (3 : Nat) := by decide
  exact ⟨fits, True.intro⟩

theorem sorted_uploads : uploads.Sorted :=
  ⟨List.pairwise_singleton _ _, True.intro, True.intro⟩

end Json

namespace Cache

open Json (Fields)

def payload (c : Config) : Json → Json
  | .object fields =>
    match c.stampField with
    | some stampField => .object (Fields.erase stampField fields)
    | none => .object fields
  | v => v

def stamped (stampField time : String) (fields : Fields) : Json :=
  .object (fields.insert stampField (.string time))

variable {c : Config} {v : Json} {stampField : String} {fields : Fields}

theorem payload_object (configured : c.stampField = some stampField) (fields : Fields) :
    payload c (.object fields) = .object (Fields.erase stampField fields) := by
  simp only [payload, configured]

theorem payload_stamped (configured : c.stampField = some stampField) (time : String)
    (fields : Fields) :
    payload c (stamped stampField time (Fields.erase stampField fields)) =
      payload c (.object fields) := by
  rw [stamped, payload_object configured, payload_object configured, Fields.erase_insert_self,
    Fields.erase_idem]

theorem depth_stamped (stampField time : String) (fields : Fields) :
    (stamped stampField time (Fields.erase stampField fields)).depth =
      (Json.object (Fields.erase stampField fields)).depth := by
  simp only [stamped, Json.depth, Json.depthFields_insert Json.absent_of_erase]

theorem integral_stamped (integral : (Json.object fields).Integral) (stampField time : String) :
    (stamped stampField time (Fields.erase stampField fields)).Integral :=
  Json.integralFields_insert True.intro (Json.integralFields_erase integral stampField)

theorem sorted_stamped (sorted : (Json.object fields).Sorted) (stampField time : String) :
    (stamped stampField time (Fields.erase stampField fields)).Sorted :=
  ⟨(sorted.1.erase stampField).insert stampField _,
    Json.sortedFields_insert True.intro (Json.sortedFields_erase sorted.2 stampField)⟩

theorem finite_stamped (finite : (Json.object fields).Finite) (stampField time : String) :
    (stamped stampField time (Fields.erase stampField fields)).Finite :=
  Json.finiteFields_iff.mpr (Json.forall_mem_insert True.intro
    (Json.forall_mem_erase (Json.finiteFields_iff.mp finite) stampField))

theorem integral_payload (integral : v.Integral) : (payload c v).Integral := by
  cases v with
  | object fields =>
    cases configured : c.stampField with
    | none => simpa only [payload, configured] using integral
    | some stampField =>
      rw [payload_object configured]
      exact Json.integralFields_erase integral stampField
  | _ => exact integral

theorem sorted_payload (sorted : v.Sorted) : (payload c v).Sorted := by
  cases v with
  | object fields =>
    cases configured : c.stampField with
    | none => simpa only [payload, configured] using sorted
    | some stampField =>
      rw [payload_object configured]
      exact ⟨sorted.1.erase stampField, Json.sortedFields_erase sorted.2 stampField⟩
  | _ => exact sorted

theorem depth_payload_le (c : Config) (v : Json) : (payload c v).depth ≤ v.depth := by
  cases v with
  | object fields =>
    cases configured : c.stampField with
    | none => simp only [payload, configured, Nat.le_refl]
    | some stampField =>
      have fewer := Json.depthFields_erase_le stampField fields
      simp only [payload, configured, Json.depth]
      omega
  | _ => exact Nat.le_refl _

def written (c : Config) (time : String) : Json → Json
  | .object fields =>
    match c.stampField with
    | some stampField => stamped stampField time (Fields.erase stampField fields)
    | none => .object fields
  | v => v

theorem written_object (configured : c.stampField = some stampField) (time : String)
    (fields : Fields) :
    written c time (.object fields) = stamped stampField time (Fields.erase stampField fields) := by
  simp only [written, configured]

theorem written_of_unstamped (time : String)
    (unstamped : ∀ stampField fields, c.stampField = some stampField → v ≠ .object fields) :
    written c time v = v := by
  cases v with
  | object fields =>
    cases configured : c.stampField with
    | none => simp only [written, configured]
    | some stampField => exact absurd rfl (unstamped stampField fields configured)
  | _ => rfl

theorem payload_of_unstamped
    (unstamped : ∀ stampField fields, c.stampField = some stampField → v ≠ .object fields) :
    payload c v = v := by
  cases v with
  | object fields =>
    cases configured : c.stampField with
    | none => simp only [payload, configured]
    | some stampField => exact absurd rfl (unstamped stampField fields configured)
  | _ => rfl

theorem find?_written {time : String}
    (configured : c.stampField = some stampField) (same : written c time v = .object fields) :
    Fields.find? fields stampField = some (.string time) := by
  cases v with
  | object fields' =>
    rw [written_object configured] at same
    cases same
    exact Fields.find?_insert_self ..
  | _ => cases same

theorem payload_written (c : Config) (time : String) (v : Json) :
    payload c (written c time v) = payload c v := by
  cases v with
  | object fields =>
    cases configured : c.stampField with
    | none => simp only [written, configured]
    | some stampField => rw [written_object configured, payload_stamped configured]
  | _ => rfl

theorem depth_written (c : Config) (time : String) (v : Json) :
    (written c time v).depth = (payload c v).depth := by
  cases v with
  | object fields =>
    cases configured : c.stampField with
    | none => simp only [written, payload, configured]
    | some stampField =>
      rw [written_object configured, payload_object configured, depth_stamped]
  | _ => rfl

theorem integral_written (integral : v.Integral) (c : Config) (time : String) :
    (written c time v).Integral := by
  cases v with
  | object fields =>
    cases configured : c.stampField with
    | none => simpa only [written, configured] using integral
    | some stampField =>
      rw [written_object configured]
      exact integral_stamped integral stampField time
  | _ => exact integral

theorem sorted_written (sorted : v.Sorted) (c : Config) (time : String) :
    (written c time v).Sorted := by
  cases v with
  | object fields =>
    cases configured : c.stampField with
    | none => simpa only [written, configured] using sorted
    | some stampField =>
      rw [written_object configured]
      exact sorted_stamped sorted stampField time
  | _ => exact sorted

theorem ofText?_written (integral : v.Integral) (sorted : v.Sorted) (c : Config) (time : String) :
    Json.ofText? (written c time v).text =
      if (payload c v).depth ≤ Json.nestingLimit then some (written c time v) else none := by
  rw [Json.ofText?_text (integral_written integral c time) (sorted_written sorted c time),
    depth_written]

theorem unchanged?_eq_some {text : String} {value : Json}
    (integral : Json.IntegralFields fields) :
    unchanged? stampField fields text = some value ↔
      ∃ members, Json.ofText? text = some (.object members) ∧ value = .object members ∧
        (Fields.find? members stampField).isSome ∧ Fields.erase stampField members = fields := by
  unfold unchanged?
  constructor
  · intro unchanged
    split at unchanged
    · rename_i members read
      split at unchanged
      · rename_i same
        cases unchanged
        exact ⟨members, read, rfl, same.1, (Json.sameFields_iff_eq integral).mp same.2⟩
      · cases unchanged
    · cases unchanged
  · intro h
    obtain ⟨members, read, rfl, stampedBefore, rfl⟩ := h
    simp only [read, stampedBefore, Json.sameFields_self, and_self, if_true]

/-- The members that are read where an object was written with a stamp. -/
def retold (stampField time : String) (fields : Fields) : Fields :=
  Json.rereadFields (fields.insert stampField (.string time))

theorem find?_retold (stampField time : String) (fields : Fields) :
    Fields.find? (retold stampField time fields) stampField = some (.string time) := by
  rw [retold, Json.find?_rereadFields, Fields.find?_insert_self]
  rfl

theorem erase_retold (stampField time : String) (fields : Fields) :
    Fields.erase stampField (retold stampField time fields) =
      Json.rereadFields (Fields.erase stampField fields) := by
  rw [retold, Json.erase_rereadFields, Fields.erase_insert_self]

theorem ofText?_stamped (finite : (Json.object fields).Finite)
    (sorted : (Json.object fields).Sorted) (stampField time : String) :
    Json.ofText? (stamped stampField time (Fields.erase stampField fields)).text =
      if (Json.object (Fields.erase stampField fields)).depth ≤ Json.nestingLimit then
        some (.object (retold stampField time (Fields.erase stampField fields)))
      else none := by
  rw [Json.ofText?_text_of_finite (finite_stamped finite stampField time)
    (sorted_stamped sorted stampField time), depth_stamped]
  rfl

/-- The object `value` that a text holds stays in the place of `v`. -/
def Kept (c : Config) (v : Json) (text : String) (value : Json) : Prop :=
  ∃ stampField fields members, c.stampField = some stampField ∧ v = .object fields ∧
    Json.ofText? text = some (.object members) ∧ value = .object members ∧
    (Fields.find? members stampField).isSome ∧
    Fields.erase stampField members = Fields.erase stampField fields

theorem Kept.payload {text : String} {value : Json} (kept : Kept c v text value) :
    payload c value = payload c v := by
  obtain ⟨stampField, fields, members, configured, rfl, _, rfl, _, same⟩ := kept
  rw [payload_object configured, payload_object configured, same]

theorem Kept.read {text : String} {value : Json} (kept : Kept c v text value) :
    Json.ofText? text = some value := by
  obtain ⟨_, _, members, _, _, read, rfl, _⟩ := kept
  exact read

end Cache

end CacheAside
