import CacheAside.Failure

namespace CacheAside

/-- The address of one entry; only a valid one can hold any. It is written as its namespace, with
the identifier behind a colon. -/
structure Key where
  ns : Namespace
  id : Option String
  deriving DecidableEq, Repr

namespace Key

def of (ns : Namespace) (id : String) : Key := ⟨ns, some id⟩

def only (ns : Namespace) : Key := ⟨ns, none⟩

def check (key : Key) : Except KeyFault Unit :=
  match key.ns.isSingle, key.id with
  | true, none => .ok ()
  | true, some _ => .error (.unexpectedIdentifier key.ns)
  | false, some id => if id = "" then .error (.missingIdentifier key.ns) else .ok ()
  | false, none => .error (.missingIdentifier key.ns)

def Valid (key : Key) : Prop := key.check = .ok ()

instance (key : Key) : Decidable key.Valid :=
  match h : key.check with
  | .ok () => .isTrue h
  | .error _ => .isFalse fun valid => by cases h.symm.trans valid

def text (key : Key) : String :=
  match key.id with
  | some id => key.ns.keyStart ++ id
  | none => key.ns.name

def splitColon : List Char → Option (List Char × List Char)
  | [] => none
  | c :: cs =>
    if c = ':' then some ([], cs)
    else (splitColon cs).map fun (before, after) => (c :: before, after)

theorem splitColon_append {before : List Char} (h : ':' ∉ before) (after : List Char) :
    splitColon (before ++ ':' :: after) = some (before, after) := by
  induction before with
  | nil => simp [splitColon]
  | cons c cs ih =>
    have hc : c ≠ ':' := fun same => h (by simp [same])
    have hcs : ':' ∉ cs := fun member => h (List.mem_cons_of_mem _ member)
    simp [splitColon, hc, ih hcs]

theorem eq_of_splitColon {cs before after : List Char} (h : splitColon cs = some (before, after)) :
    cs = before ++ ':' :: after := by
  induction cs generalizing before with
  | nil => cases h
  | cons c cs ih =>
    by_cases hc : c = ':'
    · simp only [splitColon, hc, if_true, Option.some.injEq, Prod.mk.injEq] at h
      rw [← h.1, ← h.2, hc]
      rfl
    · simp only [splitColon, hc, if_false, Option.map_eq_some_iff] at h
      rcases h with ⟨⟨rest, tail⟩, hrest, same⟩
      cases same
      rw [ih hrest]
      rfl

theorem colon_not_mem_name (ns : Namespace) : ':' ∉ ns.name.toList := by
  cases ns <;> decide

theorem splitColon_name (ns : Namespace) : splitColon ns.name.toList = none := by
  cases ns <;> decide

theorem splitColon_keyStart (ns : Namespace) (id : String) :
    splitColon (ns.keyStart ++ id).toList = some (ns.name.toList, id.toList) := by
  have spelled : (ns.keyStart ++ id).toList = ns.name.toList ++ ':' :: id.toList := by
    simp [Namespace.keyStart]
  rw [spelled, splitColon_append (colon_not_mem_name ns)]

theorem text_injective {a b : Key} (h : a.text = b.text) : a = b := by
  rcases a with ⟨aNs, aId⟩
  rcases b with ⟨bNs, bId⟩
  have parts := congrArg (splitColon ·.toList) h
  cases aId <;> cases bId <;>
    simp only [text, splitColon_name, splitColon_keyStart, reduceCtorEq, Option.some.injEq,
      Prod.mk.injEq, String.toList_inj] at h parts
  · rw [Namespace.name_injective h]
  · rw [Namespace.name_injective parts.1, parts.2]

def ns? (name : String) : Except KeyFault Namespace :=
  match Namespace.ofName? name with
  | some ns => .ok ns
  | none => .error (.unknownNamespace name)

def split? (text : String) : Except KeyFault Key :=
  match splitColon text.toList with
  | some (name, id) => (ns? (String.ofList name)).map (of · (String.ofList id))
  | none => (ns? text).map only

def ofText? (text : String) : Except KeyFault Key := do
  let key ← split? text
  key.check
  return key

end Key

end CacheAside
