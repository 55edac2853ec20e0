import CacheAside.Json.Basic

namespace CacheAside

namespace Json

/-- The members of an object, in strictly increasing order of their names; every operation keeps the
order. -/
abbrev Fields := List (String × Json)

namespace Fields

def find? (fields : Fields) (name : String) : Option Json :=
  (List.find? (·.1 == name) fields).map (·.2)

def insert (name : String) (value : Json) : Fields → Fields
  | [] => [(name, value)]
  | (name', value') :: rest =>
    if name < name' then (name, value) :: (name', value') :: rest
    else if name = name' then (name, value) :: rest
    else (name', value') :: insert name value rest

def erase (name : String) (fields : Fields) : Fields := List.filter (·.1 != name) fields

def ofList (members : List (String × Json)) : Fields :=
  members.foldl (fun fields (name, value) => insert name value fields) []

def Ordered (fields : Fields) : Prop := List.Pairwise (·.1 < ·.1) fields

theorem find?_cons (name name' : String) (value : Json) (fields : Fields) :
    find? ((name', value) :: fields) name =
      if name' = name then some value else find? fields name := by
  by_cases h : name' = name <;> simp [find?, h]

@[simp] theorem find?_insert_self (name : String) (value : Json) (fields : Fields) :
    find? (insert name value fields) name = some value := by
  induction fields with
  | nil => simp [insert, find?_cons]
  | cons member rest ih =>
    rcases member with ⟨name', value'⟩
    rw [insert]
    split
    · simp [find?_cons]
    · split
      · simp [find?_cons]
      · rename_i different
        rw [find?_cons, if_neg (Ne.symm different), ih]

theorem find?_insert_of_ne {name other : String} (h : name ≠ other) (value : Json)
    (fields : Fields) : find? (insert name value fields) other = find? fields other := by
  induction fields with
  | nil => simp [insert, find?_cons, h]
  | cons member rest ih =>
    rcases member with ⟨name', value'⟩
    rw [insert]
    split
    · rw [find?_cons, if_neg h]
    · split
      · rename_i same
        rw [find?_cons, find?_cons, if_neg h, if_neg (same ▸ h)]
      · rw [find?_cons, find?_cons, ih]

theorem erase_insert_self (name : String) (value : Json) (fields : Fields) :
    erase name (insert name value fields) = erase name fields := by
  induction fields with
  | nil => simp [insert, erase]
  | cons member rest ih =>
    rcases member with ⟨name', value'⟩
    rw [insert]
    split
    · simp [erase]
    · split
      · rename_i same
        simp [erase, same]
      · rename_i different
        have kept : name' ≠ name := Ne.symm different
        simpa [erase, kept] using ih

theorem insert_insert_self (name : String) (value before : Json) (fields : Fields) :
    insert name value (insert name before fields) = insert name value fields := by
  induction fields with
  | nil => simp [insert]
  | cons member rest ih =>
    rcases member with ⟨name', value'⟩
    rw [insert, insert]
    split
    · rw [insert, if_neg (String.lt_irrefl name), if_pos rfl]
    · split
      · rw [insert, if_neg (String.lt_irrefl name), if_pos rfl]
      · rename_i notBefore different
        rw [insert, if_neg notBefore, if_neg different, ih]

theorem Ordered.erase {fields : Fields} (h : Ordered fields) (name : String) :
    Ordered (erase name fields) := List.Pairwise.sublist List.filter_sublist h

theorem mem_insert {name : String} {value : Json} {fields : Fields} {member : String × Json}
    (h : member ∈ insert name value fields) : member = (name, value) ∨ member ∈ fields := by
  induction fields with
  | nil => simpa [insert] using h
  | cons first rest ih =>
    rcases first with ⟨name', value'⟩
    rw [insert] at h
    split at h
    · simpa using h
    · split at h
      · rcases List.mem_cons.mp h with rfl | there
        · exact .inl rfl
        · exact .inr (List.mem_cons_of_mem _ there)
      · rcases List.mem_cons.mp h with rfl | there
        · exact .inr List.mem_cons_self
        · exact (ih there).imp_right (List.mem_cons_of_mem _)

theorem Ordered.insert {fields : Fields} (h : Ordered fields) (name : String) (value : Json) :
    Ordered (insert name value fields) := by
  induction fields with
  | nil => exact List.pairwise_singleton _ _
  | cons first rest ih =>
    rcases first with ⟨name', value'⟩
    have ⟨above, ordered⟩ := List.pairwise_cons.mp h
    rw [Fields.insert]
    split
    · rename_i before
      refine List.pairwise_cons.mpr ⟨fun member there => ?_, h⟩
      rcases List.mem_cons.mp there with rfl | there
      · exact before
      · exact String.lt_trans before (above member there)
    · split
      · rename_i same
        exact List.pairwise_cons.mpr ⟨fun member there => same ▸ above member there, ordered⟩
      · rename_i notBefore different
        refine List.pairwise_cons.mpr ⟨fun member there => ?_, ih ordered⟩
        rcases mem_insert there with rfl | there
        · exact Std.lt_of_le_of_ne (String.not_lt.mp notBefore) (Ne.symm different)
        · exact above member there

theorem ordered_ofList (members : List (String × Json)) : Ordered (ofList members) := by
  suffices grown : ∀ fields, Ordered fields → Ordered
      (members.foldl (fun fields (name, value) => Fields.insert name value fields) fields) from
    grown [] List.Pairwise.nil
  induction members with
  | nil => exact fun _ h => h
  | cons member rest ih => exact fun fields h => ih _ (h.insert member.1 member.2)

end Fields

def ofObject (members : List (String × Json)) : Json := object (Fields.ofList members)

def field? (value : Json) (name : String) : Option Json :=
  match value with
  | object fields => Fields.find? fields name
  | _ => none

end Json

end CacheAside
