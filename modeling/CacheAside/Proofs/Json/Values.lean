import CacheAside.Json.Reader

namespace CacheAside

namespace Json

mutual

/-- Every number in it is an integer of 64 bits. -/
def Integral : Json → Prop
  | number (.integer value) => Number.Fits value
  | number (.double _) => False
  | array items => IntegralItems items
  | object fields => IntegralFields fields
  | _ => True
termination_by structural value => value

def IntegralItems : List Json → Prop
  | [] => True
  | v :: vs => Integral v ∧ IntegralItems vs
termination_by structural items => items

def IntegralFields : List (String × Json) → Prop
  | [] => True
  | (_, v) :: vs => Integral v ∧ IntegralFields vs
termination_by structural fields => fields

end

mutual

/-- Every object in it is a map: its members stand in order, one for each name. -/
def Sorted : Json → Prop
  | array items => SortedItems items
  | object fields => Fields.Ordered fields ∧ SortedFields fields
  | _ => True
termination_by structural value => value

def SortedItems : List Json → Prop
  | [] => True
  | v :: vs => Sorted v ∧ SortedItems vs
termination_by structural items => items

def SortedFields : List (String × Json) → Prop
  | [] => True
  | (_, v) :: vs => Sorted v ∧ SortedFields vs
termination_by structural fields => fields

end

theorem integralItems_iff {items : List Json} :
    IntegralItems items ↔ ∀ v ∈ items, Integral v := by
  induction items with
  | nil => simp [IntegralItems]
  | cons v items ih => simp [IntegralItems, ih]

theorem sortedItems_iff {items : List Json} : SortedItems items ↔ ∀ v ∈ items, Sorted v := by
  induction items with
  | nil => simp [SortedItems]
  | cons v items ih => simp [SortedItems, ih]

theorem integralFields_iff {fields : Fields} :
    IntegralFields fields ↔ ∀ member ∈ fields, Integral member.2 := by
  induction fields with
  | nil => simp [IntegralFields]
  | cons member fields ih => simp [IntegralFields, ih]

theorem sortedFields_iff {fields : Fields} :
    SortedFields fields ↔ ∀ member ∈ fields, Sorted member.2 := by
  induction fields with
  | nil => simp [SortedFields]
  | cons member fields ih => simp [SortedFields, ih]

mutual

theorem same_self : (v : Json) → same v v = true
  | null => rfl
  | bool _ => by simp [same]
  | number (.integer _) => by simp [same, Number.same]
  | number (.double _) => by simp [same, Number.same, Binary64.same]
  | string _ => by simp [same]
  | array items => by simpa [same] using sameItems_self items
  | object fields => by simpa [same] using sameFields_self fields
termination_by structural v => v

theorem sameItems_self : (items : List Json) → sameItems items items = true
  | [] => rfl
  | v :: vs => by simp [sameItems, same_self v, sameItems_self vs]
termination_by structural items => items

theorem sameFields_self : (fields : List (String × Json)) → sameFields fields fields = true
  | [] => rfl
  | (_, v) :: vs => by simp [sameFields, same_self v, sameFields_self vs]
termination_by structural fields => fields

end

mutual

theorem eq_of_same : (a b : Json) → b.Integral → same a b = true → a = b
  | null, b, _, h => by cases b <;> simp_all [same]
  | bool _, b, _, h => by cases b <;> simp_all [same]
  | string _, b, _, h => by cases b <;> simp_all [same]
  | number m, b, integral, h => by
    cases b <;> simp only [same, Bool.false_eq_true] at h
    rename_i n
    cases m <;> cases n <;> simp_all [Number.same, Integral]
  | array items, b, integral, h => by
    cases b <;> simp only [same, Bool.false_eq_true] at h
    rename_i items'
    rw [eq_of_sameItems items items' integral h]
  | object fields, b, integral, h => by
    cases b <;> simp only [same, Bool.false_eq_true] at h
    rename_i fields'
    rw [eq_of_sameFields fields fields' integral h]
termination_by structural a => a

theorem eq_of_sameItems : (as bs : List Json) → IntegralItems bs → sameItems as bs = true → as = bs
  | [], bs, _, h => by cases bs <;> simp_all [sameItems]
  | a :: as, [], _, h => by simp [sameItems] at h
  | a :: as, b :: bs, ⟨first, rest⟩, h => by
    simp only [sameItems, Bool.and_eq_true] at h
    rw [eq_of_same a b first h.1, eq_of_sameItems as bs rest h.2]
termination_by structural as => as

theorem eq_of_sameFields : (as bs : List (String × Json)) → IntegralFields bs →
    sameFields as bs = true → as = bs
  | [], bs, _, h => by cases bs <;> simp_all [sameFields]
  | (name, a) :: as, [], _, h => by simp [sameFields] at h
  | (name, a) :: as, (name', b) :: bs, ⟨first, rest⟩, h => by
    simp only [sameFields, Bool.and_eq_true, beq_iff_eq] at h
    rw [h.1.1, eq_of_same a b first h.1.2, eq_of_sameFields as bs rest h.2]
termination_by structural as => as

end

theorem same_iff_eq {a b : Json} (integral : b.Integral) : same a b = true ↔ a = b :=
  ⟨eq_of_same a b integral, fun h => h ▸ same_self a⟩

theorem sameFields_iff_eq {as bs : Fields} (integral : IntegralFields bs) :
    sameFields as bs = true ↔ as = bs :=
  ⟨eq_of_sameFields as bs integral, fun h => h ▸ sameFields_self as⟩

namespace Fields

theorem erase_idem (name : String) (fields : Fields) :
    erase name (erase name fields) = erase name fields := by
  simp [erase]

theorem mem_of_mem_erase {name : String} {fields : Fields} {member : String × Json}
    (h : member ∈ erase name fields) : member ∈ fields := (List.mem_filter.mp h).1

theorem mem_of_find? {name : String} {value : Json} {fields : Fields}
    (found : find? fields name = some value) : (name, value) ∈ fields := by
  obtain ⟨⟨name', value'⟩, first, rfl⟩ := Option.map_eq_some_iff.mp found
  obtain rfl : name' = name := by simpa using List.find?_some first
  exact List.mem_of_find?_eq_some first

theorem mem_of_mem_ofList {members : List (String × Json)} {member : String × Json}
    (h : member ∈ ofList members) : member ∈ members := by
  suffices grown : ∀ fields, member ∈ members.foldl (fun fields m => insert m.1 m.2 fields) fields →
      member ∈ members ∨ member ∈ fields from
    (grown [] h).resolve_right (List.not_mem_nil)
  clear h
  induction members with
  | nil => exact fun fields there => .inr there
  | cons first rest ih =>
    intro fields there
    rcases ih _ there with later | before
    · exact .inl (List.mem_cons_of_mem _ later)
    · rcases mem_insert before with rfl | before
      · exact .inl List.mem_cons_self
      · exact .inr before

theorem insert_of_above {name : String} {value : Json} {fields : Fields}
    (above : ∀ member ∈ fields, member.1 < name) :
    insert name value fields = fields ++ [(name, value)] := by
  induction fields with
  | nil => rfl
  | cons first rest ih =>
    rcases first with ⟨name', value'⟩
    have before : name' < name := above _ List.mem_cons_self
    have notAfter : ¬ name < name' := fun after => String.lt_asymm before after
    have different : name ≠ name' := fun same => String.lt_irrefl name (same ▸ before)
    rw [insert, if_neg notAfter, if_neg different, ih fun member there =>
      above member (List.mem_cons_of_mem _ there)]
    rfl

theorem ofList_of_ordered {fields : Fields} (ordered : Ordered fields) :
    ofList fields = fields := by
  suffices grown : ∀ before : Fields, Ordered (before ++ fields) →
      fields.foldl (fun fields member => insert member.1 member.2 fields) before =
        before ++ fields from
    grown [] ordered
  clear ordered
  induction fields with
  | nil => simp
  | cons member rest ih =>
    rcases member with ⟨name, value⟩
    intro before ordered
    have ⟨_, _, apart⟩ := List.pairwise_append.mp ordered
    have above : ∀ first ∈ before, first.1 < name := fun first there =>
      apart first there (name, value) List.mem_cons_self
    simp only [List.foldl_cons, insert_of_above above]
    rw [ih _ (by simpa using ordered)]
    simp

end Fields

end Json

end CacheAside
