import CacheAside.Edit
import CacheAside.Proofs.Json.Legible

namespace CacheAside

namespace Edit

open Json (Fields)

variable {target : String} {items edited : List Json} {edit : Edit} {p : Json → Prop}

theorem mem_editFirst {f : Json → Option (Option Json)}
    (h : editFirst target f items = some edited) :
    ∀ v ∈ edited, v ∈ items ∨ ∃ e ∈ items, f e = some (some v) := by
  induction items generalizing edited with
  | nil => cases h
  | cons e items ih =>
    rw [editFirst] at h
    split at h
    · obtain ⟨o, result, rfl⟩ := Option.map_eq_some_iff.mp h
      intro v there
      cases o with
      | none => exact .inl (List.mem_cons_of_mem _ there)
      | some e' =>
        rcases List.mem_cons.mp there with rfl | there
        · exact .inr ⟨e, List.mem_cons_self, result⟩
        · exact .inl (List.mem_cons_of_mem _ there)
    · obtain ⟨rest, later, rfl⟩ := Option.map_eq_some_iff.mp h
      intro v there
      rcases List.mem_cons.mp there with rfl | there
      · exact .inl List.mem_cons_self
      · rcases ih later v there with before | ⟨e', before, result⟩
        · exact .inl (List.mem_cons_of_mem _ before)
        · exact .inr ⟨e', List.mem_cons_of_mem _ before, result⟩

theorem survivors?_eq_some_iff {field child : String} {entity : Json} {kept : List Json} :
    survivors? field child entity = some kept ↔
      ∃ children, entity.field? field = some (.array children) ∧
        (∃ c ∈ children, Entity.hasId child c = true) ∧
        kept = children.filter fun c => !Entity.hasId child c := by
  unfold survivors?
  constructor
  · intro h
    split at h
    · rename_i children found
      dsimp only at h
      split at h
      · cases h
      · rename_i fewer
        cases h
        refine ⟨children, found, ?_, rfl⟩
        simpa [List.length_filter_eq_length_iff] using fewer
    · cases h
  · rintro ⟨children, found, leaves, rfl⟩
    have fewer : ¬ (children.filter fun c => !Entity.hasId child c).length = children.length := by
      simpa [List.length_filter_eq_length_iff] using leaves
    simp only [found, if_neg fewer]

def withChildren? (field : String) (kept : List Json) (fields : Fields) : Option Json :=
  if kept = [] then none else some (.object (Fields.insert field (.array kept) fields))

theorem dropChild_object (field child : String) (fields : Fields) :
    dropChild field child (.object fields) =
      (survivors? field child (.object fields)).map (withChildren? field · fields) := by
  unfold dropChild withChildren?
  cases survivors? field child (.object fields) with
  | none => rfl
  | some kept => cases kept <;> rfl

theorem dropChild_eq_some_iff {field child : String} {entity : Json} {s : Option Json} :
    dropChild field child entity = some s ↔
      ∃ fields children, entity = .object fields ∧
        Fields.find? fields field = some (.array children) ∧
        (∃ c ∈ children, Entity.hasId child c = true) ∧
        s = withChildren? field (children.filter fun c => !Entity.hasId child c) fields := by
  cases entity with
  | object fields =>
    rw [dropChild_object, Option.map_eq_some_iff]
    constructor
    · rintro ⟨kept, survive, rfl⟩
      obtain ⟨children, found, leaves, rfl⟩ := survivors?_eq_some_iff.mp survive
      exact ⟨fields, children, rfl, found, leaves, rfl⟩
    · rintro ⟨_, children, same, found, leaves, rfl⟩
      cases same
      exact ⟨_, survivors?_eq_some_iff.mpr ⟨children, found, leaves, rfl⟩, rfl⟩
  | _ => simp [dropChild]

theorem dropChild_eq_some {field child : String} {entity v : Json}
    (h : dropChild field child entity = some (some v)) :
    ∃ fields children, entity = .object fields ∧
      Fields.find? fields field = some (.array children) ∧
      v = .object (Fields.insert field
        (.array (children.filter fun e => !Entity.hasId child e)) fields) := by
  obtain ⟨fields, children, object, found, _, kept⟩ := dropChild_eq_some_iff.mp h
  unfold withChildren? at kept
  split at kept
  · cases kept
  · exact ⟨fields, children, object, found, Option.some.inj kept⟩

theorem forall_mem_editList (h : edit.editList target items = some edited)
    (before : ∀ v ∈ items, p v) (brought : ∀ entity, edit = .upsert entity → p entity)
    (lost : ∀ fields field children, p (.object fields) →
      Fields.find? fields field = some (.array children) → ∀ stays : Json → Bool,
        p (.object (Fields.insert field (.array (children.filter stays)) fields))) :
    ∀ v ∈ edited, p v := by
  cases edit with
  | upsert entity =>
    rw [editList] at h
    split at h
    · intro v there
      rcases mem_editFirst h v there with old | ⟨e, _, result⟩
      · exact before v old
      · split at result
        · cases result
        · cases result
          exact brought entity rfl
    · cases h
      intro v there
      rcases List.mem_append.mp there with old | new
      · exact before v old
      · obtain rfl := List.mem_singleton.mp new
        exact brought v rfl
  | remove =>
    intro v there
    rcases mem_editFirst h v there with old | ⟨_, _, result⟩
    · exact before v old
    · cases result
  | removeChild field child =>
    intro v there
    rcases mem_editFirst h v there with old | ⟨e, old, result⟩
    · exact before v old
    · obtain ⟨fields, children, rfl, found, rfl⟩ := dropChild_eq_some result
      exact lost fields field children (before _ old) found _
  | replace value => cases h

theorem legible_editList {room : Nat} (h : edit.editList target items = some edited)
    (before : (Json.array items).Legible (room + 1))
    (brought : ∀ entity, edit = .upsert entity → entity.Legible room) :
    (Json.array edited).Legible (room + 1) :=
  Json.legible_array.mpr (forall_mem_editList h (Json.legible_array.mp before) brought
    fun _ _ _ object found stays => object.filter found stays)

theorem apply_array (single : ∀ value, edit ≠ .replace value) (target : String)
    (items : List Json) :
    edit.apply target (.array items) =
      match edit.editList target items with
      | some edited => some (true, .array edited)
      | none => some (false, .array items) := by
  cases edit with
  | replace value => exact absurd rfl (single value)
  | _ => rfl

theorem apply_other (single : ∀ value, edit ≠ .replace value) (target : String) {entry : Json}
    (other : ∀ items, entry ≠ .array items) : edit.apply target entry = none := by
  cases edit with
  | replace value => exact absurd rfl (single value)
  | _ =>
    cases entry with
    | array items => exact absurd rfl (other items)
    | _ => rfl

theorem apply_eq_changed {entry v : Json} (single : ∀ value, edit ≠ .replace value)
    (changed : edit.apply target entry = some (true, v)) :
    ∃ items edited, entry = .array items ∧ edit.editList target items = some edited ∧
      v = .array edited := by
  cases entry with
  | array items =>
    rw [apply_array single] at changed
    cases result : edit.editList target items with
    | none =>
      rw [result] at changed
      cases changed
    | some edited =>
      rw [result] at changed
      cases changed
      exact ⟨items, edited, rfl, result, rfl⟩
  | _ =>
    cases edit with
    | replace value => exact absurd rfl (single value)
    | _ => cases changed

def Itemwise : Edit → Prop
  | upsert entity => entity.Integral ∧ entity.Sorted
  | replace _ => False
  | remove => True
  | removeChild .. => True

theorem Itemwise.ne_replace (itemwise : edit.Itemwise) (value : Json) : edit ≠ .replace value := by
  rintro rfl
  exact itemwise

theorem Itemwise.integral (itemwise : edit.Itemwise) (h : edit.editList target items = some edited)
    (before : (Json.array items).Integral) : (Json.array edited).Integral := by
  refine Json.integralItems_iff.mpr (forall_mem_editList h (Json.integralItems_iff.mp before) ?_ ?_)
  · intro entity same
    subst same
    exact itemwise.1
  · intro fields field children object found stays
    have children_integral : (Json.array children).Integral :=
      Json.integralFields_iff.mp object _ (Fields.mem_of_find? found)
    have stay_integral : (Json.array (children.filter stays)).Integral :=
      Json.integralItems_iff.mpr fun v there =>
        Json.integralItems_iff.mp children_integral v (List.mem_filter.mp there).1
    exact Json.integralFields_insert stay_integral object

theorem Itemwise.sorted (itemwise : edit.Itemwise) (h : edit.editList target items = some edited)
    (before : (Json.array items).Sorted) : (Json.array edited).Sorted := by
  refine Json.sortedItems_iff.mpr (forall_mem_editList h (Json.sortedItems_iff.mp before) ?_ ?_)
  · intro entity same
    subst same
    exact itemwise.2
  · intro fields field children object found stays
    have children_sorted : (Json.array children).Sorted :=
      Json.sortedFields_iff.mp object.2 _ (Fields.mem_of_find? found)
    have stay_sorted : (Json.array (children.filter stays)).Sorted :=
      Json.sortedItems_iff.mpr fun v there =>
        Json.sortedItems_iff.mp children_sorted v (List.mem_filter.mp there).1
    exact ⟨object.1.insert field _, Json.sortedFields_insert stay_sorted object.2⟩

end Edit

end CacheAside
