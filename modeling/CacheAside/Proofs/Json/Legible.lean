import CacheAside.Proofs.Json.Members
import CacheAside.Proofs.Json.Parsed
import CacheAside.Proofs.Json.RoundTrip

namespace CacheAside

namespace Json

/-- A value that can be read again where there is room for so many containers. -/
structure Legible (room : Nat) (v : Json) : Prop where
  finite : v.Finite
  sorted : v.Sorted
  shallow : v.depth ≤ room

theorem legible_ofText? {text : String} {v : Json} (read : ofText? text = some v) :
    v.Legible nestingLimit := ⟨finite_ofText? read, sorted_ofText? read, depth_ofText? read⟩

variable {room : Nat} {v : Json} {items : List Json} {fields : Fields}

theorem Legible.ofText?_text (legible : v.Legible nestingLimit) :
    ofText? v.text = some v.reread := by
  rw [ofText?_text_of_finite legible.finite legible.sorted, if_pos legible.shallow]

theorem Integral.legible (integral : v.Integral) (sorted : v.Sorted) (shallow : v.depth ≤ room) :
    v.Legible room := ⟨Integral.finite v integral, sorted, shallow⟩

theorem legible_array : (array items).Legible (room + 1) ↔ ∀ v ∈ items, v.Legible room := by
  constructor
  · intro list v there
    exact ⟨finiteItems_iff.mp list.finite v there, sortedItems_iff.mp list.sorted v there,
      depthItems_le_iff.mp (Nat.le_of_succ_le_succ list.shallow) v there⟩
  · intro each
    refine ⟨finiteItems_iff.mpr fun v there => (each v there).finite,
      sortedItems_iff.mpr fun v there => (each v there).sorted, ?_⟩
    exact Nat.succ_le_succ (depthItems_le_iff.mpr fun v there => (each v there).shallow)

theorem legible_object : (object fields).Legible (room + 1) ↔
    Fields.Ordered fields ∧ ∀ member ∈ fields, member.2.Legible room := by
  constructor
  · intro object
    refine ⟨object.sorted.1, fun member there => ?_⟩
    exact ⟨finiteFields_iff.mp object.finite member there,
      sortedFields_iff.mp object.sorted.2 member there,
      depthFields_le_iff.mp (Nat.le_of_succ_le_succ object.shallow) member there⟩
  · rintro ⟨ordered, each⟩
    refine ⟨finiteFields_iff.mpr fun member there => (each member there).finite,
      ⟨ordered, sortedFields_iff.mpr fun member there => (each member there).sorted⟩, ?_⟩
    exact Nat.succ_le_succ (depthFields_le_iff.mpr fun member there => (each member there).shallow)

theorem Legible.insert (legible : (object fields).Legible (room + 1)) (name : String)
    (value : v.Legible room) : (object (Fields.insert name v fields)).Legible (room + 1) := by
  obtain ⟨ordered, each⟩ := legible_object.mp legible
  exact legible_object.mpr ⟨ordered.insert name v, forall_mem_insert value each⟩

theorem Legible.filter {field : String} {children : List Json}
    (legible : (object fields).Legible room)
    (found : Fields.find? fields field = some (array children)) (stays : Json → Bool) :
    (object (Fields.insert field (array (children.filter stays)) fields)).Legible room := by
  match room, legible with
  | 0, legible => exact absurd legible.shallow (Nat.not_succ_le_zero _)
  | room + 1, legible =>
    have list := (legible_object.mp legible).2 _ (Fields.mem_of_find? found)
    match room, list, legible with
    | 0, list, _ => exact absurd list.shallow (Nat.not_succ_le_zero _)
    | room + 1, list, legible =>
      have fewer : (array (children.filter stays)).Legible (room + 1) :=
        legible_array.mpr fun v there => legible_array.mp list v (List.mem_filter.mp there).1
      exact legible.insert field fewer

end Json

end CacheAside
