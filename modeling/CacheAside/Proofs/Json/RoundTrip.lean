import CacheAside.Proofs.Json.Finite
import CacheAside.Proofs.Json.Strings

namespace CacheAside

namespace Json

namespace Raw

/-- What a raw text means is `v`, and it is found where there is room for all containers of `v`. -/
def Denotes (raw : Raw) (v : Json) : Prop :=
  ∀ room, raw.value? room = if v.depth ≤ room then some v else none

def DenotesItems (raws : List Raw) (items : List Json) : Prop :=
  ∀ room, values? raws room = if depthItems items ≤ room then some items else none

def DenotesFields (raws : List (List Char × Raw)) (fields : Fields) : Prop :=
  ∀ room, fields? raws room = if depthFields fields ≤ room then some fields else none

theorem denotesItems_nil : DenotesItems [] [] := fun room => by simp [values?, depthItems]

theorem DenotesItems.cons {raw : Raw} {v : Json} {raws : List Raw} {items : List Json}
    (head : raw.Denotes v) (tail : DenotesItems raws items) :
    DenotesItems (raw :: raws) (v :: items) := by
  intro room
  have both : depthItems (v :: items) ≤ room ↔ v.depth ≤ room ∧ depthItems items ≤ room := by
    simp only [depthItems]
    omega
  rw [values?, head room, tail room]
  by_cases first : v.depth ≤ room <;> by_cases others : depthItems items ≤ room <;>
    simp [both, first, others]

theorem DenotesItems.array {raws : List Raw} {items : List Json} (all : DenotesItems raws items) :
    (Raw.array raws).Denotes (.array items) := by
  intro room
  cases room with
  | zero => simp [value?, depth]
  | succ room =>
    rw [value?, all room]
    by_cases fits : depthItems items ≤ room <;> simp [depth, fits]

theorem denotesFields_nil : DenotesFields [] [] := fun room => by simp [fields?, depthFields]

theorem DenotesFields.cons {raw : Raw} {name : String} {v : Json}
    {raws : List (List Char × Raw)} {fields : Fields} (head : raw.Denotes v)
    (tail : DenotesFields raws fields) :
    DenotesFields ((name.toList.flatMap escape, raw) :: raws) ((name, v) :: fields) := by
  intro room
  have both : depthFields ((name, v) :: fields) ≤ room ↔
      v.depth ≤ room ∧ depthFields fields ≤ room := by
    simp only [depthFields]
    omega
  rw [fields?, string?_written, head room, tail room]
  by_cases first : v.depth ≤ room <;> by_cases others : depthFields fields ≤ room <;>
    simp [both, first, others]

theorem DenotesFields.object {raws : List (List Char × Raw)} {fields : Fields}
    (all : DenotesFields raws fields) (ordered : Fields.Ordered fields) :
    (Raw.object raws).Denotes (.object fields) := by
  intro room
  cases room with
  | zero => simp [value?, depth]
  | succ room =>
    rw [value?, all room]
    by_cases fits : depthFields fields ≤ room <;>
      simp [depth, fits, Fields.ofList_of_ordered ordered]

end Raw

theorem number_head {n : Number} (finite : n.Finite) :
    ∃ c cs, n.chars = c :: cs ∧ (c = '-' ∨ c.isDigit = true) := by
  obtain ⟨l, read, _⟩ := n.read?_chars finite
  have alone := read [] (by simp [Literal.Ended])
  rw [List.append_nil] at alone
  exact Literal.head_of_read? alone

theorem ne_of_digit_or_sign {c d : Char} (h : c = '-' ∨ c.isDigit = true)
    (other : d ≠ '-' ∧ d.isDigit = false) : c ≠ d := by
  intro same
  subst same
  rcases h with sign | digit
  · exact other.1 sign
  · rw [digit] at other
    exact absurd other.2 (by decide)

theorem isBlank_of_digit_or_sign {c : Char} (h : c = '-' ∨ c.isDigit = true) :
    isBlank c = false := by
  simp only [isBlank, Bool.or_eq_false_iff, decide_eq_false_iff_not]
  refine ⟨⟨⟨?_, ?_⟩, ?_⟩, ?_⟩ <;> exact ne_of_digit_or_sign h (by decide)

theorem chars_head {v : Json} (finite : v.Finite) :
    ∃ c cs, v.chars = c :: cs ∧ isBlank c = false ∧ c ≠ ']' := by
  cases v with
  | null => exact ⟨'n', _, rfl, by decide, by decide⟩
  | bool b => cases b <;> exact ⟨_, _, rfl, by decide, by decide⟩
  | string s => exact ⟨'"', _, rfl, by decide, by decide⟩
  | array items => exact ⟨'[', _, rfl, by decide, by decide⟩
  | object fields => exact ⟨'{', _, rfl, by decide, by decide⟩
  | number n =>
    obtain ⟨c, cs, begins, first⟩ := number_head finite
    exact ⟨c, cs, begins, isBlank_of_digit_or_sign first, ne_of_digit_or_sign first (by decide)⟩

theorem writeItems_cons (v w : Json) (vs : List Json) :
    writeItems (v :: w :: vs) = v.chars ++ ',' :: writeItems (w :: vs) := rfl

theorem writeFields_cons (name : String) (v : Json) (member : String × Json) (fields : Fields) :
    writeFields ((name, v) :: member :: fields) =
      writeString name ++ ':' :: v.chars ++ ',' :: writeFields (member :: fields) := rfl

theorem writeItems_head {v : Json} (finite : v.Finite) (vs : List Json) :
    ∃ c cs, writeItems (v :: vs) = c :: cs ∧ isBlank c = false ∧ c ≠ ']' := by
  obtain ⟨c, cs, begins, blank, other⟩ := chars_head finite
  cases vs with
  | nil => exact ⟨c, cs, begins, blank, other⟩
  | cons w ws => exact ⟨c, _, by rw [writeItems_cons, begins]; rfl, blank, other⟩

theorem writeFields_head (name : String) (v : Json) (fields : Fields) :
    ∃ cs, writeFields ((name, v) :: fields) = '"' :: cs := by
  cases fields with
  | nil => exact ⟨_, rfl⟩
  | cons member fields => exact ⟨_, rfl⟩

theorem ended_nil : Literal.Ended [] := by simp [Literal.Ended]

theorem ended_cons {c : Char} {rest : List Char} (digit : c.isDigit = false) (point : c ≠ '.')
    (lower : c ≠ 'e') (upper : c ≠ 'E') : Literal.Ended (c :: rest) := by
  intro d first
  obtain rfl : c = d := by simpa using first
  exact ⟨digit, point, lower, upper⟩

namespace Raw

theorem value_number {n : Number} (finite : n.Finite) :
    ∃ l, (∀ fuel rest, Literal.Ended rest →
        Raw.value (fuel + 1) (n.chars ++ rest) = some (.number l, rest)) ∧
      l.number? = some n.reread := by
  obtain ⟨l, read, meant⟩ := n.read?_chars finite
  refine ⟨l, fun fuel rest ended => ?_, meant⟩
  have found := read rest ended
  obtain ⟨c, cs, begins, first⟩ := number_head finite
  rw [begins, List.cons_append] at found ⊢
  rw [Raw.value]
  simp only [List.dropWhile_cons, isBlank_of_digit_or_sign first, Bool.false_eq_true, if_false]
  split
  case h_7 =>
    rw [found]
    rfl
  all_goals
    rename_i same
    exact absurd (List.cons.inj same).1 (ne_of_digit_or_sign first (by decide))

theorem dropWhile_head {c : Char} (blank : isBlank c = false) (cs : List Char) :
    (c :: cs).dropWhile isBlank = c :: cs := List.dropWhile_cons_of_neg (by simp [blank])

theorem value_array {fuel : Nat} {cs rest : List Char} {raws : List Raw} {c : Char}
    (read : items fuel (c :: cs) = some (raws, rest)) (blank : isBlank c = false)
    (other : c ≠ ']') :
    Raw.value (fuel + 1) ('[' :: c :: cs) = some (.array raws, rest) := by
  rw [Raw.value, dropWhile_head (by decide)]
  simp only [dropWhile_head blank]
  split
  · rename_i same
    exact absurd (List.cons.inj same).1 other
  · rw [read]
    rfl

theorem value_object {fuel : Nat} {cs rest : List Char} {raws : List (List Char × Raw)}
    (read : members fuel ('"' :: cs) = some (raws, rest)) :
    Raw.value (fuel + 1) ('{' :: '"' :: cs) = some (.object raws, rest) := by
  have quote : ('"' :: cs).dropWhile isBlank = '"' :: cs := dropWhile_head (by decide) cs
  rw [Raw.value, dropWhile_head (by decide)]
  simp only [quote]
  split
  · rename_i same
    exact absurd (List.cons.inj same).1 (by decide)
  · rw [read]
    rfl

theorem items_last {fuel : Nat} {cs rest : List Char} {raw : Raw}
    (read : Raw.value fuel cs = some (raw, ']' :: rest)) :
    items (fuel + 1) cs = some ([raw], rest) := by
  have close : (']' :: rest).dropWhile isBlank = ']' :: rest := dropWhile_head (by decide) rest
  rw [items, read]
  simp only [close]

theorem items_more {fuel : Nat} {cs more rest : List Char} {raw : Raw} {raws : List Raw}
    (read : Raw.value fuel cs = some (raw, ',' :: more))
    (others : items fuel more = some (raws, rest)) :
    items (fuel + 1) cs = some (raw :: raws, rest) := by
  have comma : (',' :: more).dropWhile isBlank = ',' :: more := dropWhile_head (by decide) more
  rw [items, read]
  simp only [comma, others, Option.map_some]

theorem name?_writeString (name : String) (rest : List Char) :
    name? ((writeString name ++ rest).dropWhile isBlank) =
      some (name.toList.flatMap escape, rest) := by
  have quoted : writeString name ++ rest =
      '"' :: (name.toList.flatMap escape ++ '"' :: rest) := by
    simp [writeString]
  rw [quoted, dropWhile_head (by decide)]
  exact body?_written name.toList rest

theorem members_last {fuel : Nat} {cs rest : List Char} {raw : Raw} (name : String)
    (read : Raw.value fuel cs = some (raw, '}' :: rest)) :
    members (fuel + 1) (writeString name ++ ':' :: cs) =
      some ([(name.toList.flatMap escape, raw)], rest) := by
  have colon : (':' :: cs).dropWhile isBlank = ':' :: cs := dropWhile_head (by decide) cs
  have close : ('}' :: rest).dropWhile isBlank = '}' :: rest := dropWhile_head (by decide) rest
  rw [members, name?_writeString]
  simp only [colon, read, close]

theorem members_more {fuel : Nat} {cs more rest : List Char} {raw : Raw}
    {raws : List (List Char × Raw)} (name : String)
    (read : Raw.value fuel cs = some (raw, ',' :: more))
    (others : members fuel more = some (raws, rest)) :
    members (fuel + 1) (writeString name ++ ':' :: cs) =
      some ((name.toList.flatMap escape, raw) :: raws, rest) := by
  have colon : (':' :: cs).dropWhile isBlank = ':' :: cs := dropWhile_head (by decide) cs
  have comma : (',' :: more).dropWhile isBlank = ',' :: more := dropWhile_head (by decide) more
  rw [members, name?_writeString]
  simp only [colon, read, comma, others, Option.map_some]

mutual

/-- Reading finds a written value at the front of a text, with two calls for each character. -/
theorem value_chars : (v : Json) → v.Finite → v.Sorted → (fuel : Nat) → (rest : List Char) →
    2 * v.chars.length < fuel + 1 → Literal.Ended rest →
    ∃ raw, Raw.value fuel (v.chars ++ rest) = some (raw, rest) ∧ raw.Denotes v.reread
  | .null, _, _, fuel + 1, rest, _, _ => ⟨.null, rfl, fun room => by simp [value?, reread, depth]⟩
  | .bool true, _, _, fuel + 1, rest, _, _ =>
    ⟨.bool true, rfl, fun room => by simp [value?, reread, depth]⟩
  | .bool false, _, _, fuel + 1, rest, _, _ =>
    ⟨.bool false, rfl, fun room => by simp [value?, reread, depth]⟩
  | .number n, finite, _, 0, _, enough, _ => by
    obtain ⟨c, cs, begins, _⟩ := number_head finite
    simp only [chars, begins, List.length_cons] at enough
    omega
  | .number n, finite, _, fuel + 1, rest, _, ended => by
    obtain ⟨l, read, meant⟩ := value_number finite
    refine ⟨_, read fuel rest ended, fun room => ?_⟩
    simp [value?, reread, depth, meant]
  | .string s, _, _, fuel + 1, rest, _, _ => by
    refine ⟨.string (s.toList.flatMap escape), ?_, fun room => ?_⟩
    · have quoted : chars (.string s) ++ rest =
          '"' :: (s.toList.flatMap escape ++ '"' :: rest) := by
        simp [chars, writeString]
      rw [quoted, Raw.value, dropWhile_head (by decide)]
      simp only [body?_written, Option.map_some]
    · simp [value?, reread, depth, string?_written]
  | .array [], _, _, fuel + 1, rest, _, _ => ⟨.array [], rfl, denotesItems_nil.array⟩
  | .array (v :: vs), finite, sorted, fuel + 1, rest, enough, _ => by
    simp only [chars, List.length_append, List.length_cons, List.length_nil] at enough
    obtain ⟨raws, read, all⟩ := items_chars (v :: vs) (by simp) finite sorted fuel rest
      (by omega)
    obtain ⟨c, cs, begins, blank, other⟩ := writeItems_head finite.1 vs
    refine ⟨.array raws, ?_, all.array⟩
    rw [begins, List.cons_append] at read
    rw [chars, begins, List.append_assoc, List.cons_append, List.cons_append]
    exact value_array read blank other
  | .object [], _, sorted, fuel + 1, rest, _, _ =>
    ⟨.object [], rfl, denotesFields_nil.object (ordered_rereadFields sorted.1)⟩
  | .object ((name, v) :: fields), finite, sorted, fuel + 1, rest, enough, _ => by
    simp only [chars, List.length_append, List.length_cons, List.length_nil] at enough
    obtain ⟨raws, read, all⟩ := members_chars ((name, v) :: fields) (by simp) finite sorted.2
      fuel rest (by omega)
    obtain ⟨cs, begins⟩ := writeFields_head name v fields
    refine ⟨.object raws, ?_, all.object (ordered_rereadFields sorted.1)⟩
    rw [begins, List.cons_append] at read
    rw [chars, begins, List.append_assoc, List.cons_append, List.cons_append]
    exact value_object read
termination_by structural v => v

theorem items_chars : (vs : List Json) → vs ≠ [] → FiniteItems vs → SortedItems vs →
    (fuel : Nat) → (rest : List Char) → 2 * (writeItems vs).length < fuel →
    ∃ raws, items fuel (writeItems vs ++ ']' :: rest) = some (raws, rest) ∧
      DenotesItems raws (rereadItems vs)
  | [], nonempty, _, _, _, _, _ => absurd rfl nonempty
  | [v], _, finite, sorted, fuel + 1, rest, enough => by
    obtain ⟨raw, read, denotes⟩ := value_chars v finite.1 sorted.1 fuel (']' :: rest) enough
      (ended_cons (by decide) (by decide) (by decide) (by decide))
    exact ⟨[raw], items_last read, denotesItems_nil.cons denotes⟩
  | v :: w :: vs, _, finite, sorted, fuel + 1, rest, enough => by
    rw [writeItems_cons, List.length_append, List.length_cons] at enough
    obtain ⟨raw, read, denotes⟩ := value_chars v finite.1 sorted.1 fuel
      (',' :: (writeItems (w :: vs) ++ ']' :: rest)) (by omega)
      (ended_cons (by decide) (by decide) (by decide) (by decide))
    obtain ⟨raws, others, all⟩ := items_chars (w :: vs) (by simp) finite.2 sorted.2 fuel rest
      (by omega)
    refine ⟨raw :: raws, ?_, all.cons denotes⟩
    rw [writeItems_cons, List.append_assoc, List.cons_append]
    exact items_more read others
termination_by structural vs => vs

theorem members_chars : (fields : List (String × Json)) → fields ≠ [] → FiniteFields fields →
    SortedFields fields → (fuel : Nat) → (rest : List Char) →
    2 * (writeFields fields).length < fuel →
    ∃ raws, members fuel (writeFields fields ++ '}' :: rest) = some (raws, rest) ∧
      DenotesFields raws (rereadFields fields)
  | [], nonempty, _, _, _, _, _ => absurd rfl nonempty
  | [(name, v)], _, finite, sorted, fuel + 1, rest, enough => by
    simp only [writeFields, List.length_append, List.length_cons] at enough
    obtain ⟨raw, read, denotes⟩ := value_chars v finite.1 sorted.1 fuel ('}' :: rest) (by omega)
      (ended_cons (by decide) (by decide) (by decide) (by decide))
    refine ⟨[(name.toList.flatMap escape, raw)], ?_, denotesFields_nil.cons denotes⟩
    rw [writeFields, List.append_assoc, List.cons_append]
    exact members_last name read
  | (name, v) :: member :: fields, _, finite, sorted, fuel + 1, rest, enough => by
    simp only [writeFields_cons, List.length_append, List.length_cons] at enough
    obtain ⟨raw, read, denotes⟩ := value_chars v finite.1 sorted.1 fuel
      (',' :: (writeFields (member :: fields) ++ '}' :: rest)) (by omega)
      (ended_cons (by decide) (by decide) (by decide) (by decide))
    obtain ⟨raws, others, all⟩ := members_chars (member :: fields) (by simp) finite.2 sorted.2
      fuel rest (by omega)
    refine ⟨(name.toList.flatMap escape, raw) :: raws, ?_, all.cons denotes⟩
    rw [writeFields_cons, List.append_assoc, List.append_assoc, List.cons_append, List.cons_append]
    exact members_more name read others
termination_by structural fields => fields

end

end Raw

/-- A written value is read when at most 127 of its containers are open at a time, and is refused
otherwise. -/
theorem ofText?_text_of_finite {v : Json} (finite : v.Finite) (sorted : v.Sorted) :
    ofText? v.text = if v.depth ≤ nestingLimit then some v.reread else none := by
  obtain ⟨raw, read, denotes⟩ := Raw.value_chars v finite sorted (2 * v.chars.length + 2) []
    (by omega) ended_nil
  have whole : Raw.ofText? v.text = some raw := by
    rw [List.append_nil] at read
    rw [Raw.ofText?, text, String.toList_ofList, Raw.ofChars?, read]
    rfl
  rw [ofText?, whole, ← depth_reread]
  exact denotes nestingLimit

theorem ofText?_text {v : Json} (integral : v.Integral) (sorted : v.Sorted) :
    ofText? v.text = if v.depth ≤ nestingLimit then some v else none := by
  rw [ofText?_text_of_finite (Integral.finite v integral) sorted, reread_of_integral v integral]

end Json

end CacheAside
