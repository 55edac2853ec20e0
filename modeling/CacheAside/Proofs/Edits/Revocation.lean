import CacheAside.Proofs.Edits.Exactness
import Mathlib.Data.Finset.Lattice.Lemmas

namespace CacheAside

open Json (Fields)

namespace Entity

variable {id target child field : String} {revoked more : Finset (String × String)} {e c : Json}
  {fields : Fields} {children kept items : List Json}

/-- Whether a child may stay with the entity `id`. A child without an identifier always may. -/
def stays (revoked : Finset (String × String)) (id : String) (c : Json) : Bool :=
  !(id? c).any fun child => (id, child) ∈ revoked

/-- An entity without the children that are revoked for it. An entity that loses all of them goes as
well, and one that loses none stays as it is, even if there is none to lose. -/
def spare (field : String) (revoked : Finset (String × String)) (e : Json) : Option Json :=
  match e, id? e, e.field? field with
  | .object fields, some id, some (.array children) =>
    if children.all (stays revoked id) then some e
    else Edit.withChildren? field (children.filter (stays revoked id)) fields
  | _, _, _ => some e

theorem stays_union (revoked more : Finset (String × String)) (id : String) (c : Json) :
    stays (revoked ∪ more) id c = (stays revoked id c && stays more id c) := by
  cases named : id? c <;> simp [stays, named]

theorem all_stays_union (revoked more : Finset (String × String)) (id : String)
    (children : List Json) :
    children.all (stays (revoked ∪ more) id) =
      (children.all (stays revoked id) && children.all (stays more id)) := by
  rw [Bool.eq_iff_iff]
  simp [stays_union, forall_and]

theorem filter_stays_union (revoked more : Finset (String × String)) (id : String)
    (children : List Json) :
    children.filter (stays (revoked ∪ more) id) =
      (children.filter (stays revoked id)).filter (stays more id) := by
  rw [List.filter_filter]
  congr 1
  funext c
  rw [stays_union, Bool.and_comm]

theorem stays_singleton (id child : String) :
    stays {(id, child)} id = fun c => !hasId child c := by
  funext c
  cases named : id? c <;> simp [stays, hasId, named]

theorem stays_of_ne (different : id ≠ target) (child : String) (c : Json) :
    stays {(target, child)} id c = true := by
  cases named : id? c <;> simp [stays, named, different]

theorem spare_object (named : id? (.object fields) = some id)
    (listed : Fields.find? fields field = some (.array children))
    (revoked : Finset (String × String)) :
    spare field revoked (.object fields) =
      if children.all (stays revoked id) then some (.object fields)
      else Edit.withChildren? field (children.filter (stays revoked id)) fields := by
  simp only [spare, named, Json.field?, listed]

theorem spare_of_stays (stay : ∀ fields id children, e = .object fields → id? e = some id →
      Fields.find? fields field = some (.array children) → ∀ c ∈ children, stays revoked id c = true) :
    spare field revoked e = some e := by
  unfold spare
  split
  · rename_i fields id children named listed
    rw [if_pos (List.all_eq_true.mpr (stay fields id children rfl named listed))]
  · rfl

theorem withChildren?_spare (named : id? (.object fields) = some id)
    (listed : Fields.find? fields field = some (.array children)) (kept : List Json)
    (revoked : Finset (String × String)) :
    (Edit.withChildren? field kept fields).bind (spare field revoked) =
      Edit.withChildren? field (kept.filter (stays revoked id)) fields := by
  by_cases none : kept = []
  · rw [none, List.filter_nil, Edit.withChildren?, if_pos rfl, Option.bind_none]
  · have still := (id?_insert_array listed kept).trans named
    have now := Fields.find?_insert_self field (.array kept) fields
    rw [Edit.withChildren?, if_neg none, Option.bind_some, spare_object still now]
    by_cases all : kept.all (stays revoked id) = true
    · have same := List.filter_eq_self.mpr (List.all_eq_true.mp all)
      rw [if_pos all, same, Edit.withChildren?, if_neg none]
    · rw [if_neg all, Edit.withChildren?, Edit.withChildren?, Fields.insert_insert_self]

theorem spare_spare (field : String) (revoked more : Finset (String × String)) (e : Json) :
    (spare field revoked e).bind (spare field more) = spare field (revoked ∪ more) e := by
  by_cases listing : ∃ fields id children, e = .object fields ∧ id? e = some id ∧
      Fields.find? fields field = some (.array children)
  · obtain ⟨fields, id, children, rfl, named, listed⟩ := listing
    rw [spare_object named listed revoked, spare_object named listed (revoked ∪ more),
      all_stays_union, filter_stays_union]
    -- Either nobody has left at first, or those who are left are gone through once more.
    cases all : children.all (stays revoked id) with
    | true =>
      have same := List.filter_eq_self.mpr (List.all_eq_true.mp all)
      rw [if_pos rfl, Option.bind_some, spare_object named listed, Bool.true_and, same]
    | false =>
      rw [if_neg Bool.false_ne_true, Bool.false_and, if_neg Bool.false_ne_true,
        withChildren?_spare named listed]
  · have whole (revoked : Finset (String × String)) : spare field revoked e = some e := by
      refine spare_of_stays fun fields id children object named listed => ?_
      exact absurd ⟨fields, id, children, object, named, listed⟩ listing
    rw [whole, whole, Option.bind_some, whole]

theorem spare_empty (field : String) (e : Json) : spare field ∅ e = some e := by
  refine spare_of_stays fun _ _ _ _ _ _ c _ => ?_
  cases named : id? c <;> simp [stays, named]

theorem spare_of_ne (unnamed : hasId target e = false) (field child : String) :
    spare field {(target, child)} e = some e := by
  refine spare_of_stays fun _ id _ _ named _ c _ => stays_of_ne ?_ child c
  rintro rfl
  exact Bool.false_ne_true (unnamed.symm.trans (hasId_iff.mpr named))

theorem filterMap_spare_of_absent (absent : find? target items = none) (field child : String) :
    items.filterMap (spare field {(target, child)}) = items := by
  have others : ∀ e ∈ items, spare field {(target, child)} e = some e := by
    intro e there
    have unnamed := List.find?_eq_none.mp absent e there
    exact spare_of_ne (Bool.eq_false_iff.mpr unnamed) field child
  rw [List.filterMap_congr others, List.filterMap_some]

end Entity

namespace Edit

open Entity (Distinct spare)

variable {target child field : String} {e : Json} {items : List Json}

theorem settle_removeChild (mine : Entity.hasId target e = true) (field child : String) :
    settle (.removeChild field child) (some e) = spare field {(target, child)} e := by
  rw [settle, act]
  cases drops : dropChild field child e with
  | none =>
    have spares := dropChild_eq_none_iff.mp drops
    rw [Option.getD_none]
    refine (Entity.spare_of_stays fun fields id children object named listed c there => ?_).symm
    obtain rfl := Entity.hasId_unique mine (Entity.hasId_iff.mpr named)
    have other := spares children (by rw [object, Json.field?, listed]) c there
    simp only [Entity.stays_singleton, Entity.hasId_eq_false_iff.mpr other, Bool.not_false]
  | some s =>
    obtain ⟨fields, children, rfl, listed, ⟨c, there, leaves⟩, rfl⟩ :=
      dropChild_eq_some_iff.mp drops
    have some_leave : ¬ children.all (fun c => !Entity.hasId child c) = true := by
      intro all
      have stays := List.all_eq_true.mp all c there
      rw [leaves] at stays
      cases stays
    rw [Option.getD_some, Entity.spare_object (Entity.hasId_iff.mp mine) listed,
      Entity.stays_singleton, if_neg some_leave]

theorem put_removeChild (distinct : Distinct items) (target field child : String) :
    Entity.put target (settle (.removeChild field child) (Entity.find? target items)) items =
      items.filterMap (spare field {(target, child)}) := by
  induction items with
  | nil => rfl
  | cons e es ih =>
    obtain ⟨fresh, distinct⟩ := Entity.distinct_cons.mp distinct
    rw [List.filterMap_cons]
    cases named : Entity.hasId target e with
    | true =>
      rw [Entity.find?_cons_self named, Entity.put_cons_self named, settle_removeChild named,
        Entity.filterMap_spare_of_absent (fresh target (Entity.hasId_iff.mp named))]
      cases spare field {(target, child)} e <;> rfl
    | false => rw [Entity.find?_cons_of_ne named, Entity.put_cons_of_ne named, ih distinct,
        Entity.spare_of_ne named]

/-- Removals of children under one field, each from the entity that it names first. -/
def revocations (field : String) (revoked : List (String × String)) : List (String × Edit) :=
  revoked.map fun (id, child) => (id, .removeChild field child)

theorem editedEach_revocations (distinct : Distinct items) (field : String)
    (revoked : List (String × String)) :
    editedEach (revocations field revoked) (.array items) =
      .array (items.filterMap (spare field revoked.toFinset)) := by
  induction revoked generalizing items with
  | nil =>
    have whole : spare field ∅ = some := funext (Entity.spare_empty field)
    rw [List.toFinset_nil, whole, List.filterMap_some]
    rfl
  | cons pair revoked ih =>
    obtain ⟨target, child⟩ := pair
    have aims : (Edit.removeChild field child).Aims target := True.intro
    have first := edited_of_apply (apply_place aims.ne_replace target items)
    -- The removals to come meet a list in which still no identifier stands twice.
    have still := distinct.put (aims.settle_find? items)
    calc editedEach (revocations field ((target, child) :: revoked)) (.array items)
      _ = editedEach (revocations field revoked) (.array (Entity.put target
            (settle (.removeChild field child) (Entity.find? target items)) items)) := by
        rw [← first]
        rfl
      _ = .array ((items.filterMap (spare field {(target, child)})).filterMap
            (spare field revoked.toFinset)) := by
        rw [ih still, put_removeChild distinct]
      _ = .array (items.filterMap (spare field ((target, child) :: revoked).toFinset)) := by
        rw [List.filterMap_filterMap, List.toFinset_cons, Finset.insert_eq]
        simp only [Entity.spare_spare]

/-- Children that are revoked one by one, in any order and however often, are gone as if all of them
had been taken at once: an entity is dropped when it loses children and none is left, and what no
child is revoked from stays. -/
theorem revocations_exact (distinct : Distinct items) (field : String)
    (revoked : List (String × String)) :
    editedEach (revocations field revoked) (.array items) =
      .array (items.filterMap (spare field revoked.toFinset)) ∧
    ∀ others : List (String × String), (∀ pair, pair ∈ others ↔ pair ∈ revoked) →
      editedEach (revocations field others) (.array items) =
        editedEach (revocations field revoked) (.array items) := by
  refine ⟨editedEach_revocations distinct field revoked, fun others same => ?_⟩
  have sets : others.toFinset = revoked.toFinset := by
    ext pair
    rw [List.mem_toFinset, List.mem_toFinset, same]
  rw [editedEach_revocations distinct, editedEach_revocations distinct, sets]

/-- Of two pending approvals of one entity both are revoked, one of them twice, and the entity goes;
another entity waits for nothing and stays. -/
theorem revocations_exact_emptied :
    let entity (id : String) (children : List Json) : Json :=
      .object [("children", .array children), ("id", .string id)]
    let named (id : Nat) : Json := .object [("id", .nat id)]
    editedEach (revocations "children" [("5", "8"), ("5", "9"), ("6", "9"), ("5", "8")])
        (.array [entity "5" [named 8, named 9], entity "6" []]) = .array [entity "6" []] := by
  intro entity named
  have distinct : Distinct [entity "5" [named 8, named 9], entity "6" []] := by decide
  exact (revocations_exact distinct "children" _).1.trans rfl

end Edit

end CacheAside
