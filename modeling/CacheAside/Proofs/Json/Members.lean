import CacheAside.Proofs.Json.Values

namespace CacheAside

namespace Json

theorem depthFields_insert {name : String} {fields : Fields}
    (absent : ∀ member ∈ fields, member.1 ≠ name) (text : String) :
    depthFields (Fields.insert name (.string text) fields) = depthFields fields := by
  induction fields with
  | nil => simp [Fields.insert, depthFields, depth]
  | cons first rest ih =>
    rcases first with ⟨name', value'⟩
    have different : name ≠ name' := fun same => absent _ List.mem_cons_self same.symm
    have others := ih fun member there => absent member (List.mem_cons_of_mem _ there)
    rw [Fields.insert, if_neg different]
    split
    · simp [depthFields, depth]
    · simp only [depthFields, others]

theorem depthFields_erase_le (name : String) (fields : Fields) :
    depthFields (Fields.erase name fields) ≤ depthFields fields := by
  induction fields with
  | nil => exact Nat.le_refl 0
  | cons first rest ih =>
    by_cases same : first.1 = name
    · have gone : Fields.erase name (first :: rest) = Fields.erase name rest := by
        simp [Fields.erase, same]
      rw [gone, depthFields]
      omega
    · have stays : Fields.erase name (first :: rest) = first :: Fields.erase name rest := by
        simp [Fields.erase, same]
      rw [stays, depthFields, depthFields]
      omega

theorem absent_of_erase {name : String} {fields : Fields} :
    ∀ member ∈ Fields.erase name fields, member.1 ≠ name := by
  intro member there
  simpa [Fields.erase] using (List.mem_filter.mp there).2

theorem forall_mem_erase {p : Json → Prop} {fields : Fields} (h : ∀ member ∈ fields, p member.2)
    (name : String) : ∀ member ∈ Fields.erase name fields, p member.2 := fun member there =>
  h member (Fields.mem_of_mem_erase there)

theorem forall_mem_insert {p : Json → Prop} {name : String} {value : Json} {fields : Fields}
    (first : p value) (h : ∀ member ∈ fields, p member.2) :
    ∀ member ∈ Fields.insert name value fields, p member.2 := by
  intro member there
  rcases Fields.mem_insert there with rfl | there
  · exact first
  · exact h member there

theorem integralFields_erase {fields : Fields} (h : IntegralFields fields) (name : String) :
    IntegralFields (Fields.erase name fields) :=
  integralFields_iff.mpr (forall_mem_erase (integralFields_iff.mp h) name)

theorem sortedFields_erase {fields : Fields} (h : SortedFields fields) (name : String) :
    SortedFields (Fields.erase name fields) :=
  sortedFields_iff.mpr (forall_mem_erase (sortedFields_iff.mp h) name)

theorem integralFields_insert {name : String} {value : Json} {fields : Fields}
    (first : value.Integral) (h : IntegralFields fields) :
    IntegralFields (Fields.insert name value fields) :=
  integralFields_iff.mpr (forall_mem_insert first (integralFields_iff.mp h))

theorem sortedFields_insert {name : String} {value : Json} {fields : Fields}
    (first : value.Sorted) (h : SortedFields fields) :
    SortedFields (Fields.insert name value fields) :=
  sortedFields_iff.mpr (forall_mem_insert first (sortedFields_iff.mp h))

theorem sameFields_erase {as bs : Fields} (same : sameFields as bs = true) (name : String) :
    sameFields (Fields.erase name as) (Fields.erase name bs) = true := by
  induction as generalizing bs with
  | nil =>
    cases bs with
    | nil => rfl
    | cons => cases same
  | cons first as ih =>
    cases bs with
    | nil => cases same
    | cons second bs =>
      obtain ⟨nameA, a⟩ := first
      obtain ⟨nameB, b⟩ := second
      simp only [sameFields, Bool.and_eq_true, beq_iff_eq] at same
      obtain ⟨⟨rfl, values⟩, rest⟩ := same
      have others := ih rest
      by_cases gone : nameA = name
      · simpa [Fields.erase, gone] using others
      · simpa [Fields.erase, gone, sameFields, values] using others

end Json

end CacheAside
