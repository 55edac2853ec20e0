import CacheAside.Proofs.Json.Finite

namespace CacheAside

namespace Json

/-- A property that a value has if all its parts have it. It may depend on the number of containers
that there is room for. -/
structure Inherited (p : Nat → Json → Prop) : Prop where
  null : ∀ room, p room .null
  bool : ∀ room b, p room (.bool b)
  number : ∀ room literal n, Literal.number? literal = some n → p room (.number n)
  string : ∀ room s, p room (.string s)
  array : ∀ room items, (∀ v ∈ items, p room v) → p (room + 1) (.array items)
  object : ∀ room fields, Fields.Ordered fields → (∀ member ∈ fields, p room member.2) →
    p (room + 1) (.object fields)

namespace Raw

variable {p : Nat → Json → Prop}

mutual

theorem inherited_value? (inherited : Inherited p) :
    (raw : Raw) → ∀ room v, raw.value? room = some v → p room v
  | .null, room, _, h => by
    cases h
    exact inherited.null room
  | .bool b, room, _, h => by
    cases h
    exact inherited.bool room b
  | .number literal, room, _, h => by
    obtain ⟨n, read, rfl⟩ := Option.map_eq_some_iff.mp h
    exact inherited.number room literal n read
  | .string body, room, _, h => by
    obtain ⟨s, _, rfl⟩ := Option.map_eq_some_iff.mp h
    exact inherited.string room s
  | .array raws, 0, _, h => by cases h
  | .array raws, room + 1, _, h => by
    obtain ⟨items, read, rfl⟩ := Option.map_eq_some_iff.mp h
    exact inherited.array room items (inherited_values? inherited raws room items read)
  | .object raws, 0, _, h => by cases h
  | .object raws, room + 1, _, h => by
    obtain ⟨members, read, rfl⟩ := Option.map_eq_some_iff.mp h
    have all := inherited_fields? inherited raws room members read
    exact inherited.object room _ (Fields.ordered_ofList members) fun member there =>
      all member (Fields.mem_of_mem_ofList there)
termination_by structural raw => raw

theorem inherited_values? (inherited : Inherited p) :
    (raws : List Raw) → ∀ room items, values? raws room = some items → ∀ v ∈ items, p room v
  | [], _, _, h => by
    cases h
    exact List.forall_mem_nil _
  | raw :: raws, room, _, h => by
    simp only [values?, Option.bind_eq_bind, Option.bind_eq_some_iff] at h
    obtain ⟨v, first, items, rest, same⟩ := h
    cases same
    exact List.forall_mem_cons.mpr
      ⟨inherited_value? inherited raw room v first,
        inherited_values? inherited raws room items rest⟩
termination_by structural raws => raws

theorem inherited_fields? (inherited : Inherited p) :
    (raws : List (List Char × Raw)) → ∀ room members, fields? raws room = some members →
      ∀ member ∈ members, p room member.2
  | [], _, _, h => by
    cases h
    exact List.forall_mem_nil _
  | (name, raw) :: raws, room, _, h => by
    simp only [fields?, Option.bind_eq_bind, Option.bind_eq_some_iff] at h
    obtain ⟨_, _, v, first, members, rest, same⟩ := h
    cases same
    exact List.forall_mem_cons.mpr ⟨inherited_value? inherited raw room v first,
      inherited_fields? inherited raws room members rest⟩
termination_by structural members => members

end

end Raw

/-- A property that is inherited from part to whole holds of everything that was read. -/
theorem Inherited.ofText? {p : Nat → Json → Prop} (inherited : Inherited p) {text : String}
    {v : Json} (read : Json.ofText? text = some v) : p nestingLimit v := by
  obtain ⟨raw, _, denoted⟩ := Option.bind_eq_some_iff.mp read
  exact Raw.inherited_value? inherited raw nestingLimit v denoted

theorem sorted_ofText? {text : String} {v : Json} (read : ofText? text = some v) : v.Sorted := by
  have inherited : Inherited fun _ => Sorted :=
    { null := fun _ => True.intro
      bool := fun _ _ => True.intro
      number := fun _ _ _ _ => True.intro
      string := fun _ _ => True.intro
      array := fun _ _ all => sortedItems_iff.mpr all
      object := fun _ _ ordered all => ⟨ordered, sortedFields_iff.mpr all⟩ }
  exact inherited.ofText? read

theorem finite_ofText? {text : String} {v : Json} (read : ofText? text = some v) : v.Finite := by
  have inherited : Inherited fun _ => Finite :=
    { null := fun _ => True.intro
      bool := fun _ _ => True.intro
      number := fun _ _ _ value => Literal.finite_number? value
      string := fun _ _ => True.intro
      array := fun _ _ all => finiteItems_iff.mpr all
      object := fun _ _ _ all => finiteFields_iff.mpr all }
  exact inherited.ofText? read

theorem depth_ofText? {text : String} {v : Json} (read : ofText? text = some v) :
    v.depth ≤ nestingLimit := by
  have inherited : Inherited fun room v => v.depth ≤ room :=
    { null := Nat.zero_le
      bool := fun room _ => Nat.zero_le room
      number := fun room _ _ _ => Nat.zero_le room
      string := fun room _ => Nat.zero_le room
      array := fun _ _ all => Nat.succ_le_succ (depthItems_le_iff.mpr all)
      object := fun _ _ _ all => Nat.succ_le_succ (depthFields_le_iff.mpr all) }
  exact inherited.ofText? read

end Json

end CacheAside
