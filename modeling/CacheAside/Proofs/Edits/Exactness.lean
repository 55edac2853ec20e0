import CacheAside.Proofs.Edits.Places

namespace CacheAside

open Json (Fields)

namespace Json

theorem length_of_sameItems {as bs : List Json} (same : sameItems as bs = true) :
    as.length = bs.length := by
  induction as generalizing bs with
  | nil =>
    cases bs with
    | nil => rfl
    | cons b bs => cases same
  | cons a as ih =>
    cases bs with
    | nil => cases same
    | cons b bs =>
      rw [sameItems, Bool.and_eq_true] at same
      rw [List.length_cons, List.length_cons, ih same.2]

theorem sameItems_append_left (front as bs : List Json) :
    sameItems (front ++ as) (front ++ bs) = sameItems as bs := by
  induction front with
  | nil => rfl
  | cons v front ih =>
    rw [List.cons_append, List.cons_append, sameItems, same_self, Bool.true_and, ih]

theorem same_of_sameFields {as bs : Fields} {name : String} {a b : Json}
    (same : sameFields as bs = true) (left : Fields.find? as name = some a)
    (right : Fields.find? bs name = some b) : a.same b = true := by
  induction as generalizing bs with
  | nil => cases left
  | cons first as ih =>
    cases bs with
    | nil => cases right
    | cons second bs =>
      rcases first with ⟨name₁, v₁⟩
      rcases second with ⟨name₂, v₂⟩
      rw [sameFields, Bool.and_eq_true, Bool.and_eq_true, beq_iff_eq] at same
      obtain ⟨⟨rfl, values⟩, others⟩ := same
      rw [Fields.find?_cons] at left right
      by_cases here : name₁ = name
      · rw [if_pos here, Option.some.injEq] at left right
        rw [← left, ← right]
        exact values
      · rw [if_neg here] at left right
        exact ih others left right

end Json

namespace Entity

/-- An object whose identifier is this string, or a number that is written like this. -/
def Named (id : String) (v : Json) : Prop :=
  ∃ fields, v = .object fields ∧
    (Fields.find? fields idField = some (.string id) ∨
      ∃ n, Fields.find? fields idField = some (.number n) ∧ (Json.number n).text = id)

def Absent (id : String) (items : List Json) : Prop := ∀ v ∈ items, ¬ Named id v

variable {id : String} {v e : Json} {front back items : List Json}

theorem hasId_iff_named : hasId id v = true ↔ Named id v := by
  rw [hasId_iff]
  cases v with
  | object fields =>
    simp only [id?, Json.field?, Named, Json.object.injEq, exists_eq_left']
    split
    · rename_i found
      simp [found]
    · rename_i found
      simp [found, Json.text, Json.chars, Number.text]
    · rename_i unnamed unnumbered
      apply iff_of_false (Option.some_ne_none id).symm
      rintro (found | ⟨n, found, _⟩)
      · exact unnamed _ found
      · exact unnumbered n found
  | _ => simp [id?, Json.field?, Named]

theorem hasId_eq_false_iff : hasId id v = false ↔ ¬ Named id v := by
  rw [← hasId_iff_named, Bool.not_eq_true]

/-- The first entity with an identifier, behind a part of the list in which no entity has it: its
index is the length of that part. -/
structure First (id : String) (front : List Json) (e : Json) : Prop where
  named : Named id e
  fresh : Absent id front

theorem First.find? (first : First id front e) (back : List Json) :
    Entity.find? id (front ++ e :: back) = some e := by
  refine List.find?_eq_some_iff_append.mpr ⟨hasId_iff_named.mpr first.named, front, back, rfl, ?_⟩
  intro v there
  rw [hasId_eq_false_iff.mpr (first.fresh v there), Bool.not_false]

theorem First.put (first : First id front e) (back : List Json) (s : Option Json) :
    Entity.put id s (front ++ e :: back) = front ++ (s.toList ++ back) :=
  put_of_first (fun v there => hasId_eq_false_iff.mpr (first.fresh v there))
    (hasId_iff_named.mpr first.named) s

theorem exists_first (found : find? id items = some e) :
    ∃ front back, items = front ++ e :: back ∧ First id front e := by
  obtain ⟨named, front, back, split, fresh⟩ := List.find?_eq_some_iff_append.mp found
  refine ⟨front, back, split, hasId_iff_named.mp named, fun v there => ?_⟩
  exact hasId_eq_false_iff.mp (by simpa using fresh v there)

theorem find?_eq_none_iff : find? id items = none ↔ Absent id items := by
  simp [find?, Absent, ← hasId_iff_named]

end Entity

namespace Edit

/-- What an edit of the entity `target` makes of an entry, and whether it changes it. If an entity
of a list has the identifier, `front` and `back` are the parts around the first one that has it. -/
inductive Makes (target : String) : Edit → Json → Bool → Json → Prop
  | replaced {value entry : Json} (differs : entry.same value = false) :
    Makes target (.replace value) entry true value
  | alike {value entry : Json} (same : entry.same value = true) :
    Makes target (.replace value) entry false entry
  | overwritten {entity e : Json} {front : List Json} (first : Entity.First target front e)
    (back : List Json) (differs : e.same entity = false) :
    Makes target (.upsert entity) (.array (front ++ e :: back)) true
      (.array (front ++ entity :: back))
  | kept {entity e : Json} {front : List Json} (first : Entity.First target front e)
    (back : List Json) (same : e.same entity = true) :
    Makes target (.upsert entity) (.array (front ++ e :: back)) false (.array (front ++ e :: back))
  | appended {entity : Json} {items : List Json} (absent : Entity.Absent target items) :
    Makes target (.upsert entity) (.array items) true (.array (items ++ [entity]))
  | removed {e : Json} {front : List Json} (first : Entity.First target front e)
    (back : List Json) :
    Makes target .remove (.array (front ++ e :: back)) true (.array (front ++ back))
  | missed {items : List Json} (absent : Entity.Absent target items) :
    Makes target .remove (.array items) false (.array items)
  | bereft {fields : Fields} {field child : String} {front children : List Json}
    (first : Entity.First target front (.object fields)) (back : List Json)
    (listed : Fields.find? fields field = some (.array children))
    (leaves : ∃ c ∈ children, Entity.Named child c)
    (stays : ∃ c ∈ children, ¬ Entity.Named child c) :
    Makes target (.removeChild field child) (.array (front ++ .object fields :: back)) true
      (.array (front ++ .object (Fields.insert field
        (.array (children.filter fun c => !Entity.hasId child c)) fields) :: back))
  | emptied {fields : Fields} {field child : String} {front children : List Json}
    (first : Entity.First target front (.object fields)) (back : List Json)
    (listed : Fields.find? fields field = some (.array children))
    (leaves : ∃ c ∈ children, Entity.Named child c)
    (gone : ∀ c ∈ children, Entity.Named child c) :
    Makes target (.removeChild field child) (.array (front ++ .object fields :: back)) true
      (.array (front ++ back))
  | spared {field child : String} {items : List Json}
    (spares : ∀ front e back, items = front ++ e :: back → Entity.First target front e →
      ∀ children, e.field? field = some (.array children) → ∀ c ∈ children,
        ¬ Entity.Named child c) :
    Makes target (.removeChild field child) (.array items) false (.array items)

variable {target : String} {edit : Edit} {entry after e : Json} {changed : Bool}
  {front items : List Json} {field child : String}

theorem apply_first (edit : Edit) (single : ∀ value, edit ≠ .replace value)
    (first : Entity.First target front e) (back : List Json) :
    edit.apply target (.array (front ++ e :: back)) =
      match edit.act (some e) with
      | some s => some (true, .array (front ++ (s.toList ++ back)))
      | none => some (false, .array (front ++ e :: back)) := by
  rw [apply_array single, editList_eq, first.find?]
  cases edit.act (some e) with
  | none => rfl
  | some s => rw [Option.map_some, first.put]

theorem apply_absent (edit : Edit) (single : ∀ value, edit ≠ .replace value)
    (absent : Entity.Absent target items) :
    edit.apply target (.array items) =
      match edit.act none with
      | some s => some (true, .array (items ++ s.toList))
      | none => some (false, .array items) := by
  have missing := Entity.find?_eq_none_iff.mpr absent
  rw [apply_array single, editList_eq, missing]
  cases edit.act none with
  | none => rfl
  | some s => rw [Option.map_some, Entity.put_of_absent missing]

theorem dropChild_eq_none_iff :
    dropChild field child e = none ↔ ∀ children, e.field? field = some (.array children) →
      ∀ c ∈ children, ¬ Entity.Named child c := by
  rw [Option.eq_none_iff_forall_ne_some]
  constructor
  · intro stays children listed c there leaves
    cases e with
    | object fields =>
      apply stays
      exact dropChild_eq_some_iff.mpr
        ⟨fields, children, rfl, listed, ⟨c, there, Entity.hasId_iff_named.mpr leaves⟩, rfl⟩
    | _ => cases listed
  · intro spares s drops
    obtain ⟨fields, children, rfl, listed, ⟨c, there, leaves⟩, _⟩ := dropChild_eq_some_iff.mp drops
    exact spares children listed c there (Entity.hasId_iff_named.mp leaves)

theorem act_removeChild {fields : Fields} {children : List Json}
    (listed : Fields.find? fields field = some (.array children))
    (leaves : ∃ c ∈ children, Entity.Named child c) :
    act (.removeChild field child) (some (.object fields)) =
      some (withChildren? field (children.filter fun c => !Entity.hasId child c) fields) := by
  obtain ⟨c, there, named⟩ := leaves
  exact dropChild_eq_some_iff.mpr
    ⟨fields, children, rfl, listed, ⟨c, there, Entity.hasId_iff_named.mpr named⟩, rfl⟩

theorem filter_eq_nil_iff {children : List Json} :
    children.filter (fun c => !Entity.hasId child c) = [] ↔
      ∀ c ∈ children, Entity.Named child c := by
  simp [List.filter_eq_nil_iff, Entity.hasId_iff_named]

theorem Makes.apply (makes : edit.Makes target entry changed after) :
    edit.apply target entry = some (changed, after) := by
  cases makes with
  | replaced differs => simp [Edit.apply, differs]
  | alike same => simp [Edit.apply, same]
  | overwritten first back differs =>
    exact (apply_first (.upsert _) (by simp) first back).trans (by simp [act, differs])
  | kept first back same => exact (apply_first (.upsert _) (by simp) first back).trans (by simp [act, same])
  | appended absent => exact apply_absent (.upsert _) (by simp) absent
  | removed first back => exact apply_first .remove (by simp) first back
  | missed absent => exact apply_absent .remove (by simp) absent
  | bereft first back listed leaves stays =>
    apply (apply_first (.removeChild _ _) (by simp) first back).trans
    obtain ⟨c, there, other⟩ := stays
    have left : ¬ _ = [] := fun nil => other (filter_eq_nil_iff.mp nil c there)
    rw [act_removeChild listed leaves, withChildren?, if_neg left]
    rfl
  | emptied first back listed leaves gone =>
    apply (apply_first (.removeChild _ _) (by simp) first back).trans
    rw [act_removeChild listed leaves, withChildren?, if_pos (filter_eq_nil_iff.mpr gone)]
    rfl
  | @spared field child items spares =>
    cases found : Entity.find? target items with
    | none => exact apply_absent (.removeChild _ _) (by simp) (Entity.find?_eq_none_iff.mp found)
    | some e =>
      obtain ⟨front, back, rfl, first⟩ := Entity.exists_first found
      apply (apply_first (.removeChild _ _) (by simp) first back).trans
      rw [act, dropChild_eq_none_iff.mpr (spares front e back rfl first)]

theorem exists_makes (single : ∀ value, edit ≠ .replace value) (target : String)
    (items : List Json) : ∃ changed after, edit.Makes target (.array items) changed after := by
  cases found : Entity.find? target items with
  | none =>
    have absent := Entity.find?_eq_none_iff.mp found
    cases edit with
    | upsert entity => exact ⟨_, _, .appended absent⟩
    | remove => exact ⟨_, _, .missed absent⟩
    | replace value => exact absurd rfl (single value)
    | removeChild field child =>
      refine ⟨_, _, .spared fun front e back split first => ?_⟩
      rw [split, first.find?] at found
      cases found
  | some e =>
    obtain ⟨front, back, rfl, first⟩ := Entity.exists_first found
    cases edit with
    | upsert entity =>
      cases same : e.same entity with
      | true => exact ⟨_, _, .kept first back same⟩
      | false => exact ⟨_, _, .overwritten first back same⟩
    | remove => exact ⟨_, _, .removed first back⟩
    | replace value => exact absurd rfl (single value)
    | removeChild field child =>
      cases drops : dropChild field child e with
      | none =>
        refine ⟨_, _, .spared fun front' e' back' split first' => ?_⟩
        rw [split, first'.find?] at found
        cases found
        exact dropChild_eq_none_iff.mp drops
      | some s =>
        obtain ⟨fields, children, rfl, listed, ⟨c, there, named⟩, _⟩ :=
          dropChild_eq_some_iff.mp drops
        have leaves : ∃ c ∈ children, Entity.Named child c :=
          ⟨c, there, Entity.hasId_iff_named.mp named⟩
        by_cases stays : ∃ c ∈ children, ¬ Entity.Named child c
        · exact ⟨_, _, .bereft first back listed leaves stays⟩
        · exact ⟨_, _, .emptied first back listed leaves (by simpa using stays)⟩

theorem apply_eq_none_iff :
    edit.apply target entry = none ↔
      (∀ value, edit ≠ .replace value) ∧ ∀ items, entry ≠ .array items := by
  constructor
  · intro refused
    have single : ∀ value, edit ≠ .replace value := by
      rintro value rfl
      cases refused
    refine ⟨single, ?_⟩
    rintro items rfl
    obtain ⟨_, _, makes⟩ := exists_makes single target items
    cases makes.apply.symm.trans refused
  · rintro ⟨single, other⟩
    exact apply_other single target other

theorem apply_eq_some_iff :
    edit.apply target entry = some (changed, after) ↔ edit.Makes target entry changed after := by
  constructor
  · intro applied
    by_cases whole : ∃ value, edit = .replace value
    · obtain ⟨value, rfl⟩ := whole
      rw [Edit.apply] at applied
      split at applied
      · rename_i same
        cases applied
        exact .alike same
      · rename_i differs
        cases applied
        exact .replaced (Bool.eq_false_iff.mpr differs)
    · have single : ∀ value, edit ≠ .replace value := fun value same => whole ⟨value, same⟩
      by_cases list : ∃ items, entry = .array items
      · obtain ⟨items, rfl⟩ := list
        obtain ⟨_, _, makes⟩ := exists_makes single target items
        cases makes.apply.symm.trans applied
        exact makes
      · have refused := apply_other single target fun items same => list ⟨items, same⟩
        cases refused.symm.trans applied
  · exact Makes.apply

theorem same_array_of_length {items edited : List Json} (differ : items.length ≠ edited.length) :
    (Json.array items).same (.array edited) = false := by
  rw [Json.same]
  exact Bool.eq_false_iff.mpr fun same => differ (Json.length_of_sameItems same)

theorem same_array_of_head (front back back' : List Json) {e e' : Json} (differs : e.same e' = false) :
    (Json.array (front ++ e :: back)).same (.array (front ++ e' :: back')) = false := by
  rw [Json.same, Json.sameItems_append_left, Json.sameItems, differs, Bool.false_and]

theorem same_bereft {fields : Fields} {children : List Json}
    (listed : Fields.find? fields field = some (.array children))
    (leaves : ∃ c ∈ children, Entity.Named child c) :
    (Json.object fields).same (.object (Fields.insert field
      (.array (children.filter fun c => !Entity.hasId child c)) fields)) = false := by
  rw [Json.same]
  refine Bool.eq_false_iff.mpr fun same => ?_
  have lists := Json.same_of_sameFields same listed (Fields.find?_insert_self ..)
  have all := List.length_filter_eq_length_iff.mp (Json.length_of_sameItems lists).symm
  obtain ⟨c, there, named⟩ := leaves
  have other := all c there
  rw [Entity.hasId_iff_named.mpr named] at other
  cases other

theorem Makes.changed_iff (makes : edit.Makes target entry changed after) :
    changed = true ↔ entry.same after = false := by
  have stays (v : Json) : false = true ↔ v.same v = false :=
    iff_of_false Bool.false_ne_true fun differs =>
      Bool.false_ne_true (differs.symm.trans (Json.same_self v))
  cases makes with
  | replaced differs => exact iff_of_true rfl differs
  | alike => exact stays _
  | overwritten first back differs => exact iff_of_true rfl (same_array_of_head _ _ _ differs)
  | kept => exact stays _
  | appended => exact iff_of_true rfl (same_array_of_length (by simp))
  | removed => exact iff_of_true rfl (same_array_of_length (by simp))
  | missed => exact stays _
  | bereft first back listed leaves =>
    exact iff_of_true rfl (same_array_of_head _ _ _ (same_bereft listed leaves))
  | emptied => exact iff_of_true rfl (same_array_of_length (by simp))
  | spared => exact stays _

/-- An edit is refused by an entry that has no entities to edit, unless it replaces the entry, and
otherwise makes of it what `Makes` says: it changes nothing but the place of its entity, and it
tells whether the entry differs afterwards. -/
theorem apply_exact (edit : Edit) (target : String) (entry : Json) :
    (edit.apply target entry = none ↔
      (∀ value, edit ≠ .replace value) ∧ ∀ items, entry ≠ .array items) ∧
    (edit.apply target entry = none → edit.edited target entry = entry) ∧
    (∀ changed after, edit.apply target entry = some (changed, after) ↔
      edit.Makes target entry changed after) ∧
    ∀ changed after, edit.apply target entry = some (changed, after) →
      edit.edited target entry = after ∧ (changed = true ↔ entry.same after = false) := by
  refine ⟨apply_eq_none_iff, fun refused => by rw [edited, refused],
    fun _ _ => apply_eq_some_iff, ?_⟩
  intro changed after applied
  exact ⟨edited_of_apply applied, (apply_eq_some_iff.mp applied).changed_iff⟩

end Edit

end CacheAside
