import CacheAside.Json.Literal
import CacheAside.Json.Printer

namespace CacheAside

namespace Json

inductive Escaped (c : Char) : List Char → Prop
  | named (letter : Char) (other : letter ≠ 'u') (meant : Quoted.named? letter = some c) :
    Escaped c ['\\', letter]
  | coded (upper lower : Char) (meant : Quoted.unit? '0' '0' upper lower = some c.toNat)
      (control : c.toNat < 32) : Escaped c ['\\', 'u', '0', '0', upper, lower]
  | plain (quote : c ≠ '"') (backslash : c ≠ '\\') (printable : ¬ c.toNat < 32) : Escaped c [c]

theorem unit?_control {n : Nat} (h : n < 32) :
    Quoted.unit? '0' '0' (hexDigit (n / 16)) (hexDigit (n % 16)) = some n := by
  have table : ∀ n : Fin 32,
      Quoted.unit? '0' '0' (hexDigit (n / 16)) (hexDigit (n % 16)) = some n.val := by decide
  exact table ⟨n, h⟩

theorem escaped_escape (c : Char) : Escaped c (escape c) := by
  unfold escape
  split
  · subst c; exact .named '"' (by decide) rfl
  split
  · subst c; exact .named '\\' (by decide) rfl
  split
  · subst c; exact .named 'b' (by decide) rfl
  split
  · subst c; exact .named 'f' (by decide) rfl
  split
  · subst c; exact .named 'n' (by decide) rfl
  split
  · subst c; exact .named 'r' (by decide) rfl
  split
  · subst c; exact .named 't' (by decide) rfl
  split
  · rename_i control
    exact .coded _ _ (unit?_control control) control
  · rename_i quote backslash _ _ _ _ _ printable
    exact .plain quote backslash printable

theorem Escaped.body? {c : Char} {written : List Char} (escaped : Escaped c written)
    (rest : List Char) : Quoted.body? (written ++ rest) =
      (Quoted.body? rest).map fun (body, rest) => (written ++ body, rest) := by
  cases escaped with
  | named letter other meant =>
    rw [List.cons_append, List.cons_append, List.nil_append, Quoted.body?, meant]
    · cases Quoted.body? rest <;> rfl
    · exact fun _ _ _ _ _ same _ => other same
  | coded upper lower meant =>
    simp only [List.cons_append, List.nil_append, Quoted.body?, meant]
    cases Quoted.body? rest <;> rfl
  | plain quote backslash printable =>
    rw [List.singleton_append, Quoted.body?, if_neg printable]
    · cases Quoted.body? rest <;> rfl
    · exact quote
    · exact fun _ _ _ _ _ same _ => backslash same
    · exact fun _ _ same _ => backslash same

theorem Escaped.chars? {c : Char} {written : List Char} (escaped : Escaped c written)
    (rest : List Char) :
    Quoted.chars? (written ++ rest) = (Quoted.chars? rest).map (c :: ·) := by
  cases escaped with
  | named letter other meant =>
    rw [List.cons_append, List.cons_append, List.nil_append, Quoted.chars?, meant]
    exact fun _ _ _ _ _ same _ => other same
  | coded upper lower meant control =>
    have high : ¬ (0xDC00 ≤ c.toNat ∧ c.toNat < 0xE000) := by omega
    have low : ¬ (0xD800 ≤ c.toNat ∧ c.toNat < 0xDC00) := by omega
    have same : Char.ofNat c.toNat = c := Char.ofNat_toNat c
    simp only [List.cons_append, List.nil_append, Quoted.chars?, meant, high, low, same,
      if_false]
  | plain quote backslash printable =>
    rw [List.singleton_append, Quoted.chars?]
    · exact fun _ _ _ _ _ same _ => backslash same
    · exact fun _ _ same _ => backslash same

theorem body?_written (cs rest : List Char) :
    Quoted.body? (cs.flatMap escape ++ '"' :: rest) = some (cs.flatMap escape, rest) := by
  induction cs with
  | nil => rw [List.flatMap_nil, List.nil_append, Quoted.body?]
  | cons c cs ih =>
    rw [List.flatMap_cons, List.append_assoc, (escaped_escape c).body?, ih]
    rfl

theorem chars?_written (cs : List Char) : Quoted.chars? (cs.flatMap escape) = some cs := by
  induction cs with
  | nil => rw [List.flatMap_nil, Quoted.chars?]
  | cons c cs ih =>
    rw [List.flatMap_cons, (escaped_escape c).chars?, ih]
    rfl

theorem string?_written (s : String) : Quoted.string? (s.toList.flatMap escape) = some s := by
  rw [Quoted.string?, chars?_written, Option.map_some, String.ofList_toList]

end Json

end CacheAside
