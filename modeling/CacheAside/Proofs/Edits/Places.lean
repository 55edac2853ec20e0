import CacheAside.Proofs.Edits

namespace CacheAside

open Json (Fields)

namespace Entity

variable {id other : String} {v : Json} {s t : Option Json} {front back items : List Json}

theorem hasId_iff : hasId id v = true ↔ id? v = some id := by simp [hasId]

theorem hasId_unique (named : hasId id v = true) (also : hasId other v = true) : id = other :=
  Option.some.inj ((hasId_iff.mp named).symm.trans (hasId_iff.mp also))

theorem not_hasId_of_ne (different : id ≠ other) (named : hasId id v = true) :
    hasId other v = false :=
  Bool.eq_false_iff.mpr fun also => different (hasId_unique named also)

theorem id?_insert_array {fields : Fields} {field : String} {children : List Json}
    (listed : Fields.find? fields field = some (.array children)) (kept : List Json) :
    id? (.object (Fields.insert field (.array kept) fields)) = id? (.object fields) := by
  by_cases isId : field = idField
  · subst isId
    simp only [id?, Json.field?, Fields.find?_insert_self, listed]
  · simp only [id?, Json.field?, Fields.find?_insert_of_ne isId]

/-- The list with another entity, or none, in the place of an identifier. -/
def put (id : String) (s : Option Json) : List Json → List Json
  | [] => s.toList
  | e :: es => if hasId id e then s.toList ++ es else e :: put id s es

theorem put_cons_self (named : hasId id v = true) (s : Option Json) (items : List Json) :
    put id s (v :: items) = s.toList ++ items := by rw [put, if_pos named]

theorem put_cons_of_ne (unnamed : hasId id v = false) (s : Option Json) (items : List Json) :
    put id s (v :: items) = v :: put id s items := by
  rw [put, if_neg (Bool.eq_false_iff.mp unnamed)]

theorem find?_cons_self (named : hasId id v = true) (items : List Json) :
    find? id (v :: items) = some v := List.find?_cons_of_pos named

theorem find?_cons_of_ne (unnamed : hasId id v = false) (items : List Json) :
    find? id (v :: items) = find? id items :=
  List.find?_cons_of_neg (Bool.eq_false_iff.mp unnamed)

theorem hasId_of_find? (found : find? id items = some v) : hasId id v = true :=
  List.find?_some found

theorem put_find? (id : String) (items : List Json) : put id (find? id items) items = items := by
  induction items with
  | nil => rfl
  | cons e es ih =>
    cases named : hasId id e with
    | true => rw [find?_cons_self named, put_cons_self named, Option.toList_some,
        List.singleton_append]
    | false => rw [find?_cons_of_ne named, put_cons_of_ne named, ih]

theorem find?_put (named : hasId id v = true) (items : List Json) :
    find? id (put id (some v) items) = some v := by
  induction items with
  | nil => exact find?_cons_self named []
  | cons e es ih =>
    cases there : hasId id e with
    | true => rw [put_cons_self there, Option.toList_some, List.singleton_append,
        find?_cons_self named]
    | false => rw [put_cons_of_ne there, find?_cons_of_ne there, ih]

theorem find?_past (unnamed : ∀ v ∈ s, hasId other v = false) (rest : List Json) :
    find? other (s.toList ++ rest) = find? other rest := by
  cases s with
  | none => rfl
  | some v => exact find?_cons_of_ne (unnamed v rfl) rest

theorem put_past (different : id ≠ other) (mine : ∀ v ∈ s, hasId id v = true) (t : Option Json)
    (rest : List Json) : put other t (s.toList ++ rest) = s.toList ++ put other t rest := by
  cases s with
  | none => rfl
  | some v => exact put_cons_of_ne (not_hasId_of_ne different (mine v rfl)) t rest

theorem find?_put_of_unnamed (different : id ≠ other) (unnamed : ∀ v ∈ s, hasId other v = false)
    (items : List Json) : find? other (put id s items) = find? other items := by
  induction items with
  | nil => simpa only [put, List.append_nil] using find?_past unnamed []
  | cons e es ih =>
    cases named : hasId id e with
    | true => rw [put_cons_self named, find?_past unnamed,
        find?_cons_of_ne (not_hasId_of_ne different named)]
    | false =>
      rw [put_cons_of_ne named]
      cases also : hasId other e with
      | true => rw [find?_cons_self also, find?_cons_self also]
      | false => rw [find?_cons_of_ne also, find?_cons_of_ne also, ih]

theorem find?_put_of_ne (different : id ≠ other) (mine : ∀ v ∈ s, hasId id v = true)
    (items : List Json) : find? other (put id s items) = find? other items :=
  find?_put_of_unnamed different (fun v there => not_hasId_of_ne different (mine v there)) items

theorem find?_put_none (id : String) (items : List Json) :
    find? id (put id none items) = (items.filter (hasId id))[1]? := by
  induction items with
  | nil => rfl
  | cons e es ih =>
    cases named : hasId id e with
    | true =>
      rw [put_cons_self named, List.filter_cons_of_pos named, List.getElem?_cons_succ,
        ← List.head?_eq_getElem?, List.head?_filter]
      rfl
    | false =>
      rw [put_cons_of_ne named, find?_cons_of_ne named, ih,
        List.filter_cons_of_neg (Bool.eq_false_iff.mp named)]

theorem put_comm (different : id ≠ other) (mine : ∀ v ∈ s, hasId id v = true)
    (its : ∀ v ∈ t, hasId other v = true)
    (apart : find? id items = none → find? other items = none → s = none ∨ t = none) :
    put other t (put id s items) = put id s (put other t items) := by
  induction items with
  | nil =>
    rcases apart rfl rfl with rfl | rfl
    · simpa only [put, Option.toList_none, List.append_nil] using
        (put_past different.symm its none []).symm
    · simpa only [put, Option.toList_none, List.append_nil] using put_past different mine none []
  | cons e es ih =>
    -- Whichever entity stands first, the other place is behind it, so that it is filled on its own.
    cases named : hasId id e with
    | true =>
      have unnamed := not_hasId_of_ne different named
      rw [put_cons_self named, put_cons_of_ne unnamed, put_cons_self named,
        put_past different mine]
    | false =>
      cases also : hasId other e with
      | true => rw [put_cons_of_ne named, put_cons_self also, put_cons_self also,
          put_past different.symm its]
      | false =>
        rw [find?_cons_of_ne named, find?_cons_of_ne also] at apart
        rw [put_cons_of_ne named, put_cons_of_ne also, put_cons_of_ne also, put_cons_of_ne named,
          ih apart]

theorem put_of_absent (absent : find? id items = none) (s : Option Json) :
    put id s items = items ++ s.toList := by
  induction items with
  | nil => rfl
  | cons e es ih =>
    cases named : hasId id e with
    | true => cases (find?_cons_self named es).symm.trans absent
    | false =>
      rw [find?_cons_of_ne named] at absent
      rw [put_cons_of_ne named, ih absent, List.cons_append]

theorem put_of_first (fresh : ∀ u ∈ front, hasId id u = false) (named : hasId id v = true)
    (s : Option Json) : put id s (front ++ v :: back) = front ++ (s.toList ++ back) := by
  induction front with
  | nil => exact put_cons_self named s back
  | cons u front ih =>
    obtain ⟨unnamed, fresh⟩ := List.forall_mem_cons.mp fresh
    rw [List.cons_append, put_cons_of_ne unnamed, ih fresh, List.cons_append]

def ids (items : List Json) : List String := items.filterMap id?

def Distinct (items : List Json) : Prop := (ids items).Nodup

instance (items : List Json) : Decidable (Distinct items) :=
  inferInstanceAs (Decidable (List.Nodup _))

theorem find?_eq_none_iff_ids : find? id items = none ↔ id ∉ ids items := by
  simp [find?, ids, hasId]

theorem distinct_cons : Distinct (v :: items) ↔
    (∀ id, id? v = some id → find? id items = none) ∧ Distinct items := by
  cases named : id? v with
  | none => simp [Distinct, ids, named]
  | some id => simp [Distinct, ids, named, find?_eq_none_iff_ids]

theorem Distinct.put (distinct : Distinct items) (mine : ∀ v ∈ s, hasId id v = true) :
    Distinct (put id s items) := by
  have first (v : Json) (named : hasId id v = true) (rest : List Json)
      (absent : find? id rest = none) (distinct : Distinct rest) : Distinct (v :: rest) := by
    refine distinct_cons.mpr ⟨fun other also => ?_, distinct⟩
    rwa [← hasId_unique named (hasId_iff.mpr also)]
  induction items with
  | nil =>
    cases s with
    | none => exact distinct
    | some v => exact first v (mine v rfl) [] rfl distinct
  | cons e es ih =>
    obtain ⟨fresh, distinct⟩ := distinct_cons.mp distinct
    cases named : hasId id e with
    | true =>
      rw [put_cons_self named]
      cases s with
      | none => exact distinct
      | some v => exact first v (mine v rfl) es (fresh id (hasId_iff.mp named)) distinct
    | false =>
      -- The identifier of `e` is another one, and its own place is untouched.
      rw [put_cons_of_ne named]
      refine distinct_cons.mpr ⟨fun other also => ?_, ih distinct⟩
      have different : id ≠ other := by
        rintro rfl
        exact Bool.false_ne_true (named.symm.trans (hasId_iff.mpr also))
      rw [find?_put_of_ne different mine, fresh other also]

theorem Distinct.find?_put (distinct : Distinct items) (mine : ∀ v ∈ s, hasId id v = true) :
    find? id (Entity.put id s items) = s := by
  cases s with
  | some v => exact Entity.find?_put (mine v rfl) items
  | none =>
    induction items with
    | nil => rfl
    | cons e es ih =>
      obtain ⟨fresh, distinct⟩ := distinct_cons.mp distinct
      cases named : hasId id e with
      | true => rw [put_cons_self named, Option.toList_none, List.nil_append,
          fresh id (hasId_iff.mp named)]
      | false => rw [put_cons_of_ne named, find?_cons_of_ne named, ih distinct]

end Entity

namespace Edit

variable {target : String} {edit : Edit} {s t : Option Json} {e e' : Json} {items : List Json}

def act : Edit → Option Json → Option (Option Json)
  | upsert entity, none => some (some entity)
  | upsert entity, some e => if e.same entity then none else some (some entity)
  | remove, some _ => some none
  | removeChild field child, some e => dropChild field child e
  | _, _ => none

def settle (edit : Edit) (s : Option Json) : Option Json := (edit.act s).getD s

theorem editFirst_eq (f : Json → Option (Option Json)) (items : List Json) :
    editFirst target f items =
      ((Entity.find? target items).bind f).map (Entity.put target · items) := by
  induction items with
  | nil => rfl
  | cons e es ih =>
    cases named : Entity.hasId target e with
    | true =>
      rw [editFirst, if_pos named, Entity.find?_cons_self named, Option.bind_some]
      congr 1
      funext s
      rw [Entity.put_cons_self named]
      cases s <;> rfl
    | false =>
      rw [editFirst, if_neg (Bool.eq_false_iff.mp named), ih, Entity.find?_cons_of_ne named,
        Option.map_map]
      congr 1
      funext s
      exact (Entity.put_cons_of_ne named s es).symm

/-- An edit of a list is one of a single place in it. -/
theorem editList_eq (edit : Edit) (target : String) (items : List Json) :
    edit.editList target items =
      (edit.act (Entity.find? target items)).map (Entity.put target · items) := by
  cases edit with
  | upsert entity =>
    rw [editList]
    cases found : Entity.find? target items with
    | none =>
      have absent : ¬ items.any (Entity.hasId target) = true := by
        simpa [Entity.find?] using found
      rw [if_neg absent, act, Option.map_some, Entity.put_of_absent found, Option.toList_some]
    | some e =>
      have there : items.any (Entity.hasId target) = true :=
        List.any_eq_true.mpr ⟨e, List.mem_of_find?_eq_some found, Entity.hasId_of_find? found⟩
      rw [if_pos there, editFirst_eq, found, Option.bind_some, act]
  | remove =>
    rw [editList, editFirst_eq]
    cases Entity.find? target items <;> rfl
  | removeChild field child =>
    rw [editList, editFirst_eq]
    cases Entity.find? target items <;> rfl
  | replace value => cases Entity.find? target items <;> rfl

def Aims (target : String) : Edit → Prop
  | upsert entity => Entity.hasId target entity = true
  | replace _ => False
  | remove | removeChild .. => True

theorem Aims.ne_replace (aims : edit.Aims target) (value : Json) : edit ≠ .replace value := by
  rintro rfl
  exact aims

def edited (edit : Edit) (target : String) (entry : Json) : Json :=
  match edit.apply target entry with
  | some (_, edited) => edited
  | none => entry

theorem edited_of_apply {entry after : Json} {changed : Bool}
    (applied : edit.apply target entry = some (changed, after)) :
    edit.edited target entry = after := by rw [edited, applied]

def editedEach (edits : List (String × Edit)) (entry : Json) : Json :=
  edits.foldl (fun entry (target, edit) => edit.edited target entry) entry

theorem editedEach_cons (target : String) (edit : Edit) (edits : List (String × Edit))
    (entry : Json) :
    editedEach ((target, edit) :: edits) entry = editedEach edits (edit.edited target entry) := rfl

theorem apply_place (single : ∀ value, edit ≠ .replace value) (target : String)
    (items : List Json) :
    edit.apply target (.array items) =
      some ((edit.act (Entity.find? target items)).isSome,
        .array (Entity.put target (edit.settle (Entity.find? target items)) items)) := by
  rw [apply_array single, editList_eq, settle]
  cases edit.act (Entity.find? target items) with
  | none => rw [Option.map_none, Option.getD_none, Entity.put_find?, Option.isSome_none]
  | some s => rfl

theorem hasId_of_dropChild {field child : String} (h : dropChild field child e = some (some e'))
    (named : Entity.hasId target e = true) : Entity.hasId target e' = true := by
  obtain ⟨fields, children, rfl, listed, rfl⟩ := dropChild_eq_some h
  rw [Entity.hasId_iff] at named ⊢
  rw [Entity.id?_insert_array listed, named]

theorem dropChild_again {field child : String} (h : dropChild field child e = some (some e')) :
    dropChild field child e' = none := by
  obtain ⟨fields, children, rfl, listed, rfl⟩ := dropChild_eq_some h
  refine Option.eq_none_iff_forall_ne_some.mpr fun s again => ?_
  obtain ⟨_, kept, same, found, ⟨c, there, leaves⟩, _⟩ := dropChild_eq_some_iff.mp again
  cases same
  cases (Fields.find?_insert_self ..).symm.trans found
  simp [leaves] at there

theorem act_upsert {entity : Json} (acts : act (.upsert entity) s = some t) : t = some entity := by
  cases s with
  | none => exact (Option.some.inj acts).symm
  | some e =>
    rw [act] at acts
    split at acts
    · cases acts
    · exact (Option.some.inj acts).symm

theorem act_remove (acts : act .remove s = some t) : t = none := by
  cases s with
  | none => cases acts
  | some e => exact (Option.some.inj acts).symm

theorem settle_remove (s : Option Json) : settle .remove s = none := by cases s <;> rfl

theorem settle_upsert {entity : Json} (exact : ∀ e ∈ s, e.same entity = true → e = entity) :
    settle (.upsert entity) s = some entity := by
  cases s with
  | none => rfl
  | some e =>
    rw [settle, act]
    split
    · rename_i same
      exact congrArg some (exact e rfl same)
    · rfl

theorem act_settle (edit : Edit) (s : Option Json) : edit.act (edit.settle s) = none := by
  rw [settle]
  cases acts : edit.act s with
  | none => exact acts
  | some t =>
    rw [Option.getD_some]
    cases edit with
    | upsert entity => rw [act_upsert acts, act, if_pos (Json.same_self entity)]
    | remove =>
      obtain rfl := act_remove acts
      rfl
    | replace value => cases s <;> cases acts
    | removeChild field child =>
      cases s with
      | none => cases acts
      | some e =>
        cases t with
        | none => rfl
        | some e' => exact dropChild_again acts

theorem settle_settle (edit : Edit) (s : Option Json) :
    edit.settle (edit.settle s) = edit.settle s := by
  rw [settle, act_settle, Option.getD_none]

theorem Aims.settle (aims : edit.Aims target) (mine : ∀ e ∈ s, Entity.hasId target e = true) :
    ∀ e ∈ edit.settle s, Entity.hasId target e = true := by
  rw [Edit.settle]
  cases acts : edit.act s with
  | none => exact mine
  | some t =>
    rw [Option.getD_some]
    cases edit with
    | upsert entity =>
      obtain rfl := act_upsert acts
      rintro _ ⟨rfl⟩
      exact aims
    | remove =>
      obtain rfl := act_remove acts
      exact nofun
    | replace value => exact aims.elim
    | removeChild field child =>
      cases s with
      | none => cases acts
      | some e =>
        rintro e' ⟨rfl⟩
        exact hasId_of_dropChild acts (mine e rfl)

theorem Aims.settle_find? (aims : edit.Aims target) (items : List Json) :
    ∀ e ∈ edit.settle (Entity.find? target items), Entity.hasId target e = true :=
  aims.settle fun _ found => Entity.hasId_of_find? found

end Edit

end CacheAside
