import CacheAside.Proofs.Json.Doubles
import CacheAside.Proofs.Json.Values

namespace CacheAside

def Number.reread : Number → Number
  | integer value => integer value
  | double value =>
    match Json.Literal.read? (Json.writeDouble value) with
    | some (literal, _) => literal.number?.getD (double value)
    | none => double value

theorem Number.read?_chars {n : Number} (finite : n.Finite) :
    ∃ l, (∀ rest, Json.Literal.Ended rest →
        Json.Literal.read? (n.chars ++ rest) = some (l, rest)) ∧
      l.number? = some n.reread := by
  cases n with
  | integer value =>
    exact ⟨_, fun rest ended => Json.Literal.read?_integer value ended,
      Json.Literal.number?_ofInteger finite⟩
  | double value =>
    obtain ⟨l, d', read, meant⟩ := Json.Literal.read?_writeDouble finite
    have alone := read [] (by simp [Json.Literal.Ended])
    rw [List.append_nil] at alone
    refine ⟨l, read, ?_⟩
    simp only [Number.reread, alone, meant, Option.getD_some]

namespace Json

mutual

def Finite : Json → Prop
  | number n => n.Finite
  | array items => FiniteItems items
  | object fields => FiniteFields fields
  | _ => True
termination_by structural value => value

def FiniteItems : List Json → Prop
  | [] => True
  | v :: vs => Finite v ∧ FiniteItems vs
termination_by structural items => items

def FiniteFields : List (String × Json) → Prop
  | [] => True
  | (_, v) :: vs => Finite v ∧ FiniteFields vs
termination_by structural fields => fields

end

theorem finiteItems_iff {items : List Json} : FiniteItems items ↔ ∀ v ∈ items, Finite v := by
  induction items with
  | nil => simp [FiniteItems]
  | cons v items ih => simp [FiniteItems, ih]

theorem finiteFields_iff {fields : Fields} :
    FiniteFields fields ↔ ∀ member ∈ fields, Finite member.2 := by
  induction fields with
  | nil => simp [FiniteFields]
  | cons member fields ih => simp [FiniteFields, ih]

theorem depthItems_le_iff {items : List Json} {n : Nat} :
    depthItems items ≤ n ↔ ∀ v ∈ items, depth v ≤ n := by
  induction items with
  | nil => simp [depthItems]
  | cons v items ih => rw [depthItems, Nat.max_le, ih, List.forall_mem_cons]

theorem depthFields_le_iff {fields : Fields} {n : Nat} :
    depthFields fields ≤ n ↔ ∀ member ∈ fields, depth member.2 ≤ n := by
  induction fields with
  | nil => simp [depthFields]
  | cons member fields ih => rw [depthFields, Nat.max_le, ih, List.forall_mem_cons]

mutual

theorem Integral.finite : (v : Json) → v.Integral → v.Finite
  | .null, _ => True.intro
  | .bool _, _ => True.intro
  | .string _, _ => True.intro
  | .number (.integer _), integral => integral
  | .number (.double _), integral => integral.elim
  | .array items, integral => IntegralItems.finite items integral
  | .object fields, integral => IntegralFields.finite fields integral
termination_by structural v => v

theorem IntegralItems.finite : (items : List Json) → IntegralItems items → FiniteItems items
  | [], _ => True.intro
  | v :: vs, ⟨first, rest⟩ => ⟨Integral.finite v first, IntegralItems.finite vs rest⟩
termination_by structural items => items

theorem IntegralFields.finite :
    (fields : List (String × Json)) → IntegralFields fields → FiniteFields fields
  | [], _ => True.intro
  | (_, v) :: vs, ⟨first, rest⟩ => ⟨Integral.finite v first, IntegralFields.finite vs rest⟩
termination_by structural fields => fields

end

mutual

def reread : Json → Json
  | number n => number n.reread
  | array items => array (rereadItems items)
  | object fields => object (rereadFields fields)
  | v => v
termination_by structural value => value

def rereadItems : List Json → List Json
  | [] => []
  | v :: vs => reread v :: rereadItems vs
termination_by structural items => items

def rereadFields : List (String × Json) → List (String × Json)
  | [] => []
  | (name, v) :: vs => (name, reread v) :: rereadFields vs
termination_by structural fields => fields

end

mutual

theorem reread_of_integral : (v : Json) → v.Integral → v.reread = v
  | .null, _ => rfl
  | .bool _, _ => rfl
  | .string _, _ => rfl
  | .number (.integer _), _ => rfl
  | .number (.double _), integral => integral.elim
  | .array items, integral => congrArg array (rereadItems_of_integral items integral)
  | .object fields, integral => congrArg object (rereadFields_of_integral fields integral)
termination_by structural v => v

theorem rereadItems_of_integral :
    (items : List Json) → IntegralItems items → rereadItems items = items
  | [], _ => rfl
  | v :: vs, ⟨first, rest⟩ => by
    rw [rereadItems, reread_of_integral v first, rereadItems_of_integral vs rest]
termination_by structural items => items

theorem rereadFields_of_integral :
    (fields : List (String × Json)) → IntegralFields fields → rereadFields fields = fields
  | [], _ => rfl
  | (name, v) :: vs, ⟨first, rest⟩ => by
    rw [rereadFields, reread_of_integral v first, rereadFields_of_integral vs rest]
termination_by structural fields => fields

end

mutual

theorem depth_reread : (v : Json) → v.reread.depth = v.depth
  | .null => rfl
  | .bool _ => rfl
  | .string _ => rfl
  | .number _ => rfl
  | .array items => congrArg (· + 1) (depthItems_reread items)
  | .object fields => congrArg (· + 1) (depthFields_reread fields)
termination_by structural v => v

theorem depthItems_reread : (items : List Json) → depthItems (rereadItems items) = depthItems items
  | [] => rfl
  | v :: vs => by rw [rereadItems, depthItems, depthItems, depth_reread v, depthItems_reread vs]
termination_by structural items => items

theorem depthFields_reread :
    (fields : List (String × Json)) → depthFields (rereadFields fields) = depthFields fields
  | [] => rfl
  | (_, v) :: vs => by
    rw [rereadFields, depthFields, depthFields, depth_reread v, depthFields_reread vs]
termination_by structural fields => fields

end

theorem rereadFields_eq_map (fields : Fields) :
    rereadFields fields = fields.map fun member => (member.1, member.2.reread) := by
  induction fields with
  | nil => rfl
  | cons member fields ih => rw [rereadFields, ih, List.map_cons]

theorem erase_rereadFields (name : String) (fields : Fields) :
    Fields.erase name (rereadFields fields) = rereadFields (Fields.erase name fields) := by
  simp only [rereadFields_eq_map, Fields.erase, List.filter_map]
  rfl

theorem find?_rereadFields (fields : Fields) (name : String) :
    Fields.find? (rereadFields fields) name = (Fields.find? fields name).map reread := by
  simp only [rereadFields_eq_map, Fields.find?, List.find?_map, Option.map_map]
  rfl

theorem ordered_rereadFields {fields : Fields} (ordered : Fields.Ordered fields) :
    Fields.Ordered (rereadFields fields) := by
  rw [rereadFields_eq_map]
  exact List.pairwise_map.mpr ordered

end Json

end CacheAside
