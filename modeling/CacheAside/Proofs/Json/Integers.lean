import CacheAside.Json.Literal
import CacheAside.Json.Printer

namespace CacheAside

namespace Decimal

theorem isDigit_of_mem_digitsOf {n : Nat} {c : Char} (h : c ∈ digitsOf n) : c.isDigit = true :=
  Nat.isDigit_of_mem_toDigits (by decide) (by decide) h

theorem ofDigitChars_digitsOf (n : Nat) : Nat.ofDigitChars 10 (digitsOf n) 0 = n :=
  Nat.ofDigitChars_ten_toDigits

theorem head?_digitsOf {n : Nat} (positive : 0 < n) : (digitsOf n).head? ≠ some '0' := by
  induction n using Nat.strongRecOn with
  | ind n ih =>
    unfold digitsOf
    by_cases small : n < 10
    · rw [Nat.toDigits_of_lt_base small]
      have table : ∀ d : Fin 10, 0 < d.val → [d.val.digitChar].head? ≠ some '0' := by decide
      exact table ⟨n, small⟩ positive
    · have before := ih (n / 10) (by omega) (by omega)
      rw [Nat.toDigits_of_base_le (by decide) (by omega)]
      cases digits : Nat.toDigits 10 (n / 10) with
      | nil => exact absurd digits Nat.toDigits_ne_nil
      | cons d ds => simpa [digitsOf, digits] using before

end Decimal

namespace Json

namespace Literal

open Decimal

def Ended (rest : List Char) : Prop :=
  ∀ c ∈ rest.head?, c.isDigit = false ∧ c ≠ '.' ∧ c ≠ 'e' ∧ c ≠ 'E'

def ofInteger (value : Int) : Literal := ⟨value < 0, digitsOf value.natAbs, none, none⟩

theorem Ended.noDigit {rest : List Char} (ended : Ended rest) :
    ∀ c ∈ rest.head?, c.isDigit = false := fun c first => (ended c first).1

theorem digits?_append {digits rest : List Char} (all : ∀ c ∈ digits, c.isDigit = true)
    (nonempty : digits ≠ []) (stop : ∀ c ∈ rest.head?, c.isDigit = false) :
    digits? (digits ++ rest) = some (digits, rest) := by
  have none : rest.takeWhile Char.isDigit = [] ∧ rest.dropWhile Char.isDigit = rest := by
    cases rest with
    | nil => simp
    | cons c rest => simp [stop c (by simp)]
  unfold digits?
  rw [List.takeWhile_append_of_pos all, List.dropWhile_append_of_pos all, none.1,
    none.2, List.append_nil]
  cases digits with
  | nil => exact absurd rfl nonempty
  | cons d ds => rfl

theorem whole?_append {digits rest : List Char} (all : ∀ c ∈ digits, c.isDigit = true)
    (nonempty : digits ≠ []) (zero : digits.head? = some '0' → digits = ['0'])
    (stop : ∀ c ∈ rest.head?, c.isDigit = false) :
    whole? (digits ++ rest) = some (digits, rest) := by
  unfold whole?
  rw [digits?_append all nonempty stop]
  split
  · rename_i same
    simp only [Option.some.injEq, Prod.mk.injEq] at same
    rw [same.1] at zero
    exact absurd (zero rfl) (by simp)
  · rfl

theorem zero_of_head?_digitsOf {n : Nat} (h : (digitsOf n).head? = some '0') :
    digitsOf n = ['0'] := by
  rcases Nat.eq_zero_or_pos n with rfl | positive
  · rfl
  · exact absurd h (head?_digitsOf positive)

theorem whole?_digitsOf (n : Nat) {rest : List Char} (ended : Ended rest) :
    whole? (digitsOf n ++ rest) = some (digitsOf n, rest) :=
  whole?_append (fun _ => isDigit_of_mem_digitsOf) Nat.toDigits_ne_nil zero_of_head?_digitsOf
    ended.noDigit

theorem fraction?_none {rest : List Char} (point : ∀ c ∈ rest.head?, c ≠ '.') :
    fraction? rest = some (none, rest) := by
  cases rest with
  | nil => rfl
  | cons c rest =>
    have other := point c (by simp)
    unfold fraction?
    split
    · rename_i same
      exact absurd (List.cons.inj same).1 other
    · rfl

theorem fraction?_ended {rest : List Char} (ended : Ended rest) :
    fraction? rest = some (none, rest) :=
  fraction?_none fun c first => (ended c first).2.1

theorem exponent?_ended {rest : List Char} (ended : Ended rest) :
    exponent? rest = some (none, rest) := by
  cases rest with
  | nil => rfl
  | cons c rest =>
    have ⟨_, _, lower, upper⟩ := ended c (by simp)
    simp [exponent?, lower, upper]

theorem unsigned?_digitsOf (negative : Bool) (n : Nat) {rest : List Char} (ended : Ended rest) :
    unsigned? negative (digitsOf n ++ rest) = some (⟨negative, digitsOf n, none, none⟩, rest) := by
  simp [unsigned?, whole?_digitsOf n ended, fraction?_ended ended, exponent?_ended ended]

theorem read?_integer (value : Int) {rest : List Char} (ended : Ended rest) :
    read? (Decimal.integer value ++ rest) = some (ofInteger value, rest) := by
  cases value with
  | ofNat n =>
    have unsigned := unsigned?_digitsOf false n ended
    have positive : decide (Int.ofNat n < 0) = false := by simp
    simp only [Decimal.integer, ofInteger, positive]
    unfold read?
    split
    · rename_i cs same
      cases digits : digitsOf n with
      | nil => exact absurd digits Nat.toDigits_ne_nil
      | cons d ds =>
        have digit := isDigit_of_mem_digitsOf (n := n) (c := d) (by simp [digits])
        simp only [digits, List.cons_append, List.cons.injEq] at same
        simp [same.1] at digit
    · exact unsigned
  | negSucc n =>
    have negative : decide (Int.negSucc n < 0) = true := by simp [Int.negSucc_lt_zero]
    simp only [Decimal.integer, ofInteger, negative, List.cons_append, read?]
    exact unsigned?_digitsOf true (n + 1) ended

theorem number?_ofInteger {value : Int} (fits : Number.Fits value) :
    (ofInteger value).number? = some (.integer value) := by
  have natural : (ofInteger value).natural = value.natAbs := ofDigitChars_digitsOf value.natAbs
  have signed : (if (ofInteger value).negative then -((ofInteger value).natural : Int)
      else (ofInteger value).natural) = value := by
    rw [natural]
    by_cases negative : value < 0
    · rw [ofInteger, if_pos (decide_eq_true negative)]
      omega
    · rw [ofInteger, if_neg (by simpa using negative)]
      omega
  have nonzero : ¬ ((ofInteger value).negative = true ∧ value = 0) := by
    simp [ofInteger]
    omega
  simp only [number?, signed]
  rw [if_pos ⟨rfl, rfl, fits, nonzero⟩]

theorem head_of_read? {cs rest : List Char} {l : Literal} (read : read? cs = some (l, rest)) :
    ∃ c more, cs = c :: more ∧ (c = '-' ∨ c.isDigit = true) := by
  cases cs with
  | nil => cases read
  | cons c more =>
    refine ⟨c, more, rfl, ?_⟩
    by_cases sign : c = '-'
    · exact .inl sign
    right
    by_cases digit : c.isDigit = true
    · exact digit
    · exfalso
      unfold read? at read
      split at read
      · rename_i same
        exact sign (List.cons.inj same).1
      · simp [unsigned?, whole?, digits?, digit] at read

end Literal

end Json

end CacheAside
