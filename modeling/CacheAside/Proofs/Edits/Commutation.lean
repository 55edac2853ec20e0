import CacheAside.Proofs.Edits.Exactness

namespace CacheAside

namespace Edit

open Entity (Absent)

variable {a b target : String} {edit f g : Edit} {items : List Json}

theorem settle_none (edit : Edit) : edit.settle none = none ∨ ∃ x, edit = .upsert x := by
  cases edit with
  | upsert x => exact .inr ⟨x, rfl⟩
  | _ => exact .inl rfl

theorem Aims.apply_behind (mine : f.Aims a) (its : g.Aims b) (different : a ≠ b)
    (items : List Json) :
    let edited := Entity.put a (f.settle (Entity.find? a items)) items
    g.apply b (.array edited) =
      some ((g.act (Entity.find? b items)).isSome,
        .array (Entity.put b (g.settle (Entity.find? b items)) edited)) := by
  intro edited
  rw [apply_place its.ne_replace, Entity.find?_put_of_ne different (mine.settle_find? items)]

theorem put_upsert_both (different : a ≠ b) {x y : Json} (mine : Entity.hasId a x = true)
    (noA : Absent a items) (noB : Absent b items) :
    Entity.put b (some y) (Entity.put a (some x) items) = items ++ [x, y] := by
  have behind : Entity.find? b (Entity.put a (some x) items) = none := by
    rw [Entity.find?_put_of_ne different (by rintro _ ⟨rfl⟩; exact mine)]
    exact Entity.find?_eq_none_iff.mpr noB
  rw [Entity.put_of_absent behind, Entity.put_of_absent (Entity.find?_eq_none_iff.mpr noA)]
  simp

/-- Two edits of different entities report the same in either order and come to the same list,
unless both bring along an entity that is not there yet: then these stand in the order in which they
have come. -/
theorem edits_commute (different : a ≠ b) (mine : f.Aims a) (its : g.Aims b) (items : List Json) :
    ∃ (fChanges gChanges : Bool) (fItems gItems fgItems gfItems : List Json),
      f.apply a (.array items) = some (fChanges, .array fItems) ∧
      g.apply b (.array fItems) = some (gChanges, .array fgItems) ∧
      g.apply b (.array items) = some (gChanges, .array gItems) ∧
      f.apply a (.array gItems) = some (fChanges, .array gfItems) ∧
      (fgItems = gfItems ∨
        ∃ x y, f = .upsert x ∧ g = .upsert y ∧ Absent a items ∧ Absent b items) ∧
      ∀ x y, f = .upsert x → g = .upsert y → Absent a items → Absent b items →
        fgItems = items ++ [x, y] ∧ gfItems = items ++ [y, x] := by
  refine ⟨_, _, _, _, _, _, apply_place mine.ne_replace a items,
    mine.apply_behind its different items, apply_place its.ne_replace b items,
    its.apply_behind mine different.symm items, ?_, ?_⟩
  · by_cases both : ∃ x y, f = .upsert x ∧ g = .upsert y ∧ Absent a items ∧ Absent b items
    · exact .inr both
    · left
      apply Entity.put_comm different (mine.settle_find? items) (its.settle_find? items)
      intro noA noB
      rw [noA, noB]
      rcases f.settle_none with nothing | ⟨x, rfl⟩
      · exact .inl nothing
      · rcases g.settle_none with nothing | ⟨y, rfl⟩
        · exact .inr nothing
        · exact absurd ⟨x, y, rfl, rfl, Entity.find?_eq_none_iff.mp noA,
            Entity.find?_eq_none_iff.mp noB⟩ both
  · rintro x y rfl rfl noA noB
    rw [Entity.find?_eq_none_iff.mpr noA, Entity.find?_eq_none_iff.mpr noB]
    exact ⟨put_upsert_both different mine noA noB, put_upsert_both different.symm its noB noA⟩

/-- One entity loses its last child and goes, and another one comes. -/
theorem edits_commute_emptied :
    let parent : Json := .object [("children", .array [.object [("id", .nat 8)]]), ("id", .nat 5)]
    let entity : Json := .object [("id", .string "6")]
    editedEach [("5", .removeChild "children" "8"), ("6", .upsert entity)] (.array [parent]) =
      editedEach [("6", .upsert entity), ("5", .removeChild "children" "8")] (.array [parent]) := by
  intro parent entity
  have different : "5" ≠ "6" := by decide
  have mine : (Edit.removeChild "children" "8").Aims "5" := True.intro
  have its : (Edit.upsert entity).Aims "6" := by
    change Entity.hasId "6" entity = true
    decide
  obtain ⟨_, _, _, _, _, _, removes, enters, entersFirst, removesBehind, same, _⟩ :=
    edits_commute different mine its [parent]
  rcases same with rfl | ⟨_, _, impossible, _⟩
  · rw [editedEach_cons, edited_of_apply removes, editedEach_cons, edited_of_apply enters,
      editedEach_cons, edited_of_apply entersFirst, editedEach_cons, edited_of_apply removesBehind]
  · cases impossible

end Edit

end CacheAside
