import CacheAside.Key
import Mathlib.Logic.Function.Defs

namespace CacheAside

namespace Key

variable {ns : Namespace} {key : Key} {s : String}

theorem ns?_eq_ok : ns? s = .ok ns ↔ ns.name = s := by
  unfold ns?
  constructor
  · intro read
    split at read
    · rename_i found
      cases read
      exact Namespace.name_of_ofName? found
    · cases read
  · rintro rfl
    rw [Namespace.ofName?_name]

theorem toList_text_of (ns : Namespace) (id : String) :
    (of ns id).text.toList = ns.name.toList ++ ':' :: id.toList := by
  simp [text, of, Namespace.keyStart]

theorem split?_eq_ok : split? s = .ok key ↔ key.text = s := by
  constructor
  · intro read
    unfold split? at read
    split at read
    · rename_i name id apart
      cases named : ns? (String.ofList name) with
      | error fault =>
        rw [named] at read
        cases read
      | ok ns =>
        rw [named] at read
        cases read
        have spelled := ns?_eq_ok.mp named
        apply String.toList_inj.mp
        rw [toList_text_of, spelled, eq_of_splitColon apart, String.toList_ofList,
          String.toList_ofList]
    · cases named : ns? s with
      | error fault =>
        rw [named] at read
        cases read
      | ok ns =>
        rw [named] at read
        cases read
        exact ns?_eq_ok.mp named
  · rintro rfl
    obtain ⟨ns, id⟩ := key
    have named : ns? ns.name = .ok ns := ns?_eq_ok.mpr rfl
    cases id with
    | none =>
      simp only [split?, text, splitColon_name, named]
      rfl
    | some id =>
      simp only [split?, text, splitColon_keyStart, String.ofList_toList, named]
      rfl

theorem split?_text (key : Key) : split? key.text = .ok key := split?_eq_ok.mpr rfl

theorem ofText?_text (key : Key) : ofText? key.text = key.check.map fun _ => key := by
  rw [ofText?, split?_text]
  cases checked : key.check <;> simp only [Bind.bind, Except.bind, checked] <;> rfl

theorem ofText?_eq_ok : ofText? s = .ok key ↔ key.Valid ∧ key.text = s := by
  constructor
  · intro read
    cases spelled : split? s with
    | error fault =>
      rw [ofText?, spelled] at read
      cases read
    | ok key' =>
      obtain rfl := split?_eq_ok.mp spelled
      rw [ofText?_text] at read
      cases checked : key'.check with
      | error fault =>
        rw [checked] at read
        cases read
      | ok =>
        rw [checked] at read
        cases read
        exact ⟨checked, rfl⟩
  · rintro ⟨valid, rfl⟩
    have checked : key.check = .ok () := valid
    rw [ofText?_text, checked]
    rfl

theorem valid_only : (only ns).Valid ↔ ns.isSingle = true := by
  cases single : ns.isSingle <;> simp [Valid, check, only, single]

theorem valid_of {id : String} : (of ns id).Valid ↔ ns.isSingle = false ∧ id ≠ "" := by
  cases single : ns.isSingle <;> simp [Valid, check, of, single]

/-- Reading a text and writing a key undo each other on valid keys, and on other ones reading tells
what is wrong with the key. No two keys have the same text. So the texts of keys are the names of
the namespaces with a single entry, and those of the other ones with an identifier behind a colon,
whatever the identifier is made of. -/
theorem text_exact :
    (∀ key : Key, ofText? key.text =
      match key.check with
      | .ok () => .ok key
      | .error fault => .error fault) ∧
    (∀ (s : String) (key : Key), ofText? s = .ok key ↔ key.Valid ∧ key.text = s) ∧
    Function.Injective text ∧
    ∀ s : String, (∃ key, ofText? s = .ok key) ↔
      (∃ ns : Namespace, ns.isSingle = true ∧ s = ns.name) ∨
        ∃ (ns : Namespace) (id : String),
          ns.isSingle = false ∧ id ≠ "" ∧ s = ns.name ++ ":" ++ id := by
  refine ⟨?_, fun s key => ofText?_eq_ok, fun a b same => text_injective same, ?_⟩
  · intro key
    rw [ofText?_text]
    cases key.check <;> rfl
  · intro s
    constructor
    · rintro ⟨⟨ns, id⟩, read⟩
      obtain ⟨valid, rfl⟩ := ofText?_eq_ok.mp read
      cases id with
      | none => exact .inl ⟨ns, valid_only.mp valid, rfl⟩
      | some id =>
        obtain ⟨several, named⟩ := valid_of.mp valid
        exact .inr ⟨ns, id, several, named, rfl⟩
    · rintro (⟨ns, single, rfl⟩ | ⟨ns, id, several, named, rfl⟩)
      · exact ⟨only ns, ofText?_eq_ok.mpr ⟨valid_only.mpr single, rfl⟩⟩
      · exact ⟨of ns id, ofText?_eq_ok.mpr ⟨valid_of.mpr ⟨several, named⟩, rfl⟩⟩

example : ofText? "shareLinks:abc:def" = .ok (of .shareLinks "abc:def") := by rfl

end Key

end CacheAside
