import CacheAside.Span

namespace CacheAside

/-- A stored text. Instants are counted in nanoseconds, and an entry that has ended is as good as
absent. -/
structure Entry where
  text : String
  /-- The instant from which the entry is gone; without one it stays. -/
  expiry : Option Nat
  deriving DecidableEq, Repr

def Entry.isLive (now : Nat) (entry : Entry) : Bool :=
  match entry.expiry with
  | none => true
  | some instant => now < instant

structure Entries where
  toList : List (String × Entry)
  distinct : (toList.map (·.1)).Nodup

def startsWith (start key : String) : Bool := start.toList.isPrefixOf key.toList

namespace Entries

def empty : Entries := ⟨[], List.nodup_nil⟩

instance : Inhabited Entries := ⟨empty⟩

/-- The entry at a key, live or not. -/
def get? (entries : Entries) (key : String) : Option Entry := entries.toList.lookup key

def keep (entries : Entries) (p : String → Bool) : Entries :=
  ⟨entries.toList.filter (p ·.1), entries.distinct.sublist (List.filter_sublist.map _)⟩

def erase (entries : Entries) (key : String) : Entries := entries.keep (· ≠ key)

theorem not_mem_erase (entries : Entries) (key : String) :
    key ∉ (entries.erase key).toList.map (·.1) := by
  simp [erase, keep]

def insert (entries : Entries) (key : String) (entry : Entry) : Entries :=
  ⟨(key, entry) :: (entries.erase key).toList,
    List.nodup_cons.mpr ⟨entries.not_mem_erase key, (entries.erase key).distinct⟩⟩

def find? (entries : Entries) (now : Nat) (key : String) : Option String :=
  match entries.get? key with
  | some entry => if entry.isLive now then some entry.text else none
  | none => none

def set (entries : Entries) (now : Nat) (key text : String) (lifetime : Option Span) : Entries :=
  entries.insert key ⟨text, lifetime.map fun span => now + span.toNanos⟩

def countPrefix (entries : Entries) (now : Nat) (start : String) : Nat :=
  (entries.toList.filter fun (key, entry) => startsWith start key && entry.isLive now).length

def erasePrefix (entries : Entries) (start : String) : Entries :=
  entries.keep fun key => !startsWith start key

def live (entries : Entries) (now : Nat) : List (String × String) :=
  (entries.toList.filter fun (_, entry) => entry.isLive now).map fun (key, entry) =>
    (key, entry.text)

def ofList (texts : List (String × String)) : Entries :=
  texts.foldl (fun entries (key, text) => entries.insert key ⟨text, none⟩) empty

theorem lookup_filter (p : String → Bool) (key : String) (pairs : List (String × Entry)) :
    (pairs.filter (p ·.1)).lookup key = if p key then pairs.lookup key else none := by
  induction pairs with
  | nil => simp
  | cons first rest ih =>
    rcases first with ⟨key', entry⟩
    by_cases here : key = key'
    · subst here
      cases passes : p key
      · simpa [passes] using ih
      · simp [passes]
    · have elsewhere : (key == key') = false := by simpa using here
      cases passes : p key' <;> simp [passes, elsewhere, List.lookup_cons, ih]

theorem get?_keep (entries : Entries) (p : String → Bool) (key : String) :
    (entries.keep p).get? key = if p key then entries.get? key else none :=
  lookup_filter p key entries.toList

@[simp] theorem get?_erase_self (entries : Entries) (key : String) :
    (entries.erase key).get? key = none := by
  simp [erase, get?_keep]

theorem get?_erase_of_ne {key other : String} (h : other ≠ key) (entries : Entries) :
    (entries.erase key).get? other = entries.get? other := by
  simp [erase, get?_keep, h]

@[simp] theorem get?_insert_self (entries : Entries) (key : String) (entry : Entry) :
    (entries.insert key entry).get? key = some entry := by
  simp [insert, get?]

theorem get?_insert_of_ne {key other : String} (h : other ≠ key) (entries : Entries)
    (entry : Entry) : (entries.insert key entry).get? other = entries.get? other := by
  have elsewhere : (other == key) = false := by simpa using h
  calc (entries.insert key entry).get? other
      = (entries.erase key).get? other := by simp [insert, get?, List.lookup_cons, elsewhere]
    _ = entries.get? other := get?_erase_of_ne h entries

theorem get?_erasePrefix (entries : Entries) (start key : String) :
    (entries.erasePrefix start).get? key =
      if startsWith start key then none else entries.get? key := by
  rw [erasePrefix, get?_keep]
  cases startsWith start key <;> rfl

end Entries

end CacheAside
