import CacheAside.Proofs.Edits.Places

namespace CacheAside

namespace Edit

open Entity (Distinct)

variable {target : String} {edit : Edit} {items : List Json} {entry : Json}

/-- An edit that puts no identifier twice into a list: it brings along an entity with the identifier
that it is meant for, or a whole list in which no identifier stands twice. -/
def Suits (target : String) (edit : Edit) : Prop :=
  edit.Aims target ∨ ∃ items, edit = .replace (.array items) ∧ Distinct items

def redelivered (deliveries : List ((String × Edit) × Nat)) : List (String × Edit) :=
  deliveries.flatMap fun (addressed, again) => List.replicate (again + 1) addressed

theorem Aims.again (aims : edit.Aims target) (distinct : Distinct items) :
    ∃ changed after, edit.apply target (.array items) = some (changed, .array after) ∧
      Distinct after ∧ edit.apply target (.array after) = some (false, .array after) := by
  have mine := aims.settle_find? items
  let settled := edit.settle (Entity.find? target items)
  let after := Entity.put target settled items
  have stands : Entity.find? target after = settled := distinct.find?_put mine
  have kept : Entity.put target settled after = after := by
    rw [← stands]
    exact Entity.put_find? target after
  refine ⟨_, after, apply_place aims.ne_replace target items, distinct.put mine, ?_⟩
  rw [apply_place aims.ne_replace, stands, act_settle, settle_settle, kept, Option.isSome_none]

theorem replace_again {new : List Json} (distinct : Distinct items) (also : Distinct new) :
    ∃ changed after,
      apply (.replace (.array new)) target (.array items) = some (changed, .array after) ∧
      Distinct after ∧
      apply (.replace (.array new)) target (.array after) = some (false, .array after) := by
  cases same : (Json.array items).same (.array new) with
  | true => exact ⟨false, items, by simp [apply, same], distinct, by simp [apply, same]⟩
  | false =>
    have itself := Json.same_self (.array new)
    exact ⟨true, new, by simp [apply, same], also, by simp [apply, itself]⟩

theorem Suits.again (suits : edit.Suits target) (distinct : Distinct items) :
    ∃ changed after, edit.apply target (.array items) = some (changed, .array after) ∧
      Distinct after ∧ edit.apply target (.array after) = some (false, .array after) := by
  rcases suits with aims | ⟨new, rfl, also⟩
  · exact aims.again distinct
  · exact replace_again distinct also

theorem editedEach_append (first second : List (String × Edit)) (entry : Json) :
    editedEach (first ++ second) entry = editedEach second (editedEach first entry) :=
  List.foldl_append

theorem editedEach_replicate (idle : edit.edited target entry = entry) (again : Nat) :
    editedEach (List.replicate again (target, edit)) entry = entry := by
  induction again with
  | zero => rfl
  | succ again ih =>
    rw [List.replicate_succ, editedEach_cons, idle, ih]

/-- In a list in which no identifier stands twice, an edit that comes again reports no change, and
any number of edits comes to the same list however often each comes in a row. -/
theorem redelivery_harmless (distinct : Distinct items) :
    (∀ target (edit : Edit), edit.Suits target → ∃ changed after,
      edit.apply target (.array items) = some (changed, .array after) ∧ Distinct after ∧
        edit.apply target (.array after) = some (false, .array after)) ∧
    ∀ deliveries : List ((String × Edit) × Nat), (∀ d ∈ deliveries, d.1.2.Suits d.1.1) →
      editedEach (redelivered deliveries) (.array items) =
        editedEach (deliveries.map (·.1)) (.array items) := by
  refine ⟨fun target edit suits => suits.again distinct, fun deliveries suit => ?_⟩
  induction deliveries generalizing items with
  | nil => rfl
  | cons delivery deliveries ih =>
    obtain ⟨⟨target, edit⟩, again⟩ := delivery
    obtain ⟨suits, suit⟩ := List.forall_mem_cons.mp suit
    obtain ⟨changed, after, first, distinct, second⟩ := suits.again distinct
    have once : editedEach (List.replicate (again + 1) (target, edit)) (.array items) =
        .array after := by
      rw [List.replicate_succ, editedEach_cons, edited_of_apply first]
      exact editedEach_replicate (edited_of_apply second) again
    calc editedEach (redelivered (((target, edit), again) :: deliveries)) (.array items)
      _ = editedEach (redelivered deliveries) (.array after) := by
        rw [redelivered, List.flatMap_cons, editedEach_append, once]
        rfl
      _ = editedEach (deliveries.map (·.1)) (.array after) := ih distinct suit
      _ = editedEach ((target, edit) :: deliveries.map (·.1)) (.array items) := by
        rw [editedEach_cons, edited_of_apply first]

/-- A list with a name that is a number: the one that it names is removed twice, and the other one
is replaced three times. -/
theorem redelivery_harmless_two :
    let named (id : Json) (title : String) : Json := .object [("id", id), ("title", .string title)]
    editedEach
        (redelivered [(("2", .remove), 1), (("1", .upsert (named (.nat 1) "new")), 2)])
        (.array [named (.string "1") "old", named (.nat 2) "gone"]) =
      .array [named (.nat 1) "new"] := by
  intro named
  have distinct : Distinct [named (.string "1") "old", named (.nat 2) "gone"] := by decide
  have suits : ∀ d ∈ [(("2", Edit.remove), 1), (("1", .upsert (named (.nat 1) "new")), 2)],
      d.1.2.Suits d.1.1 := by
    intro d there
    simp only [List.mem_cons, List.not_mem_nil, or_false] at there
    rcases there with rfl | rfl
    · exact .inl True.intro
    · left
      change Entity.hasId "1" (named (.nat 1) "new") = true
      decide
  exact ((redelivery_harmless distinct).2 _ suits).trans rfl

end Edit

end CacheAside
