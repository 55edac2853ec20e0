import CacheAside.Proofs.Binary64.Shortest
import CacheAside.Proofs.Json.Integers

namespace CacheAside

def Number.Finite : Number → Prop
  | integer value => Fits value
  | double value => value.Finite

namespace Json

namespace Literal

open Binary64 Decimal

theorem digitOf_le {c : Char} (digit : c.isDigit = true) : digitOf c ≤ 9 := by
  simp only [Char.isDigit, Bool.and_eq_true, decide_eq_true_eq] at digit
  have high : c.toNat ≤ 57 := digit.2
  have zero : '0'.toNat = 48 := rfl
  unfold digitOf
  omega

theorem take_fst_lt {n : Nat} (fits : n < 2 ^ 64) (cs : List Char) : (take n cs).1 < 2 ^ 64 := by
  induction cs generalizing n with
  | nil => exact fits
  | cons c cs ih =>
    rw [take]
    split
    · rename_i more
      exact ih more
    · exact fits

theorem length_take_le (n : Nat) (cs : List Char) : (take n cs).2.length ≤ cs.length := by
  induction cs generalizing n with
  | nil => exact Nat.le_refl 0
  | cons c cs ih =>
    rw [take]
    split
    · exact Nat.le_succ_of_le (ih _)
    · exact Nat.le_refl _

theorem take_all {n : Nat} {cs : List Char} (all : ∀ c ∈ cs, c.isDigit = true)
    (fits : (n + 1) * 10 ^ cs.length ≤ 2 ^ 64) :
    take n cs = (Nat.ofDigitChars 10 cs n, []) ∧
      Nat.ofDigitChars 10 cs n < (n + 1) * 10 ^ cs.length := by
  induction cs generalizing n with
  | nil => exact ⟨rfl, by simp [Nat.ofDigitChars]⟩
  | cons c cs ih =>
    have digit : digitOf c ≤ 9 := digitOf_le (all c List.mem_cons_self)
    have value : Nat.ofDigitChars 10 (c :: cs) n = Nat.ofDigitChars 10 cs (n * 10 + digitOf c) := by
      rw [Nat.ofDigitChars_cons, Nat.mul_comm 10]
      rfl
    have step : (n * 10 + digitOf c + 1) * 10 ^ cs.length ≤ (n + 1) * 10 ^ (c :: cs).length := by
      rw [List.length_cons, Nat.pow_succ', ← Nat.mul_assoc]
      exact Nat.mul_le_mul_right _ (by omega)
    have ⟨read, bound⟩ := ih (fun d there => all d (List.mem_cons_of_mem c there))
      (Nat.le_trans step fits)
    have small : n * 10 + digitOf c + 1 ≤ 2 ^ 64 :=
      Nat.le_trans (Nat.le_mul_of_pos_right _ (Nat.pow_pos (by decide))) (Nat.le_trans step fits)
    rw [value]
    refine ⟨?_, Nat.lt_of_lt_of_le bound step⟩
    rw [take, if_pos (by omega)]
    exact read

theorem double?_positional (negative : Bool) {whole fraction : List Char}
    (digits : ∀ c ∈ whole, c.isDigit = true) (digits' : ∀ c ∈ fraction, c.isDigit = true)
    (short : whole.length ≤ 16) (nonempty : fraction ≠ []) :
    ∃ d, double? ⟨negative, whole, some fraction, none⟩ = some d := by
  have fits : (0 + 1) * 10 ^ whole.length ≤ 10 ^ 16 := by
    rw [Nat.zero_add, Nat.one_mul]
    exact Nat.pow_le_pow_right (by decide) short
  have ⟨read, bound⟩ := take_all digits (Nat.le_trans fits (by decide))
  have small := Nat.lt_of_lt_of_le bound fits
  generalize Nat.ofDigitChars 10 whole 0 = n at read small
  cases fraction with
  | nil => exact absurd rfl nonempty
  | cons d ds =>
    have digit : digitOf d ≤ 9 := digitOf_le (digits' d List.mem_cons_self)
    have first : take n (d :: ds) = take (n * 10 + digitOf d) ds := by
      rw [take, if_pos (by omega)]
    have left := length_take_le (n * 10 + digitOf d) ds
    have word := take_fst_lt (show n * 10 + digitOf d < 2 ^ 64 by omega) ds
    have parts : decimal ⟨negative, whole, some (d :: ds), none⟩ =
        ((take (n * 10 + digitOf d) ds).1,
          0 - (((d :: ds).length : Int) - (take (n * 10 + digitOf d) ds).2.length)) := by
      simp only [decimal, read, first]
      rfl
    obtain ⟨value, made⟩ : ∃ value, ofDecimal (decimal ⟨negative, whole, some (d :: ds), none⟩).1
        (decimal ⟨negative, whole, some (d :: ds), none⟩).2 = some value := by
      rw [parts]
      refine ofDecimal_of_neg word ?_
      simp only [List.length_cons]
      omega
    exact ⟨_, congrArg (Option.map _) made⟩

def scientific (negative : Bool) (first : Char) (more : List Char) (x : Int) : Literal :=
  ⟨negative, [first], if more = [] then none else some more, some x⟩

theorem decimal_scientific (negative : Bool) {first : Char} {more : List Char} (x : Int)
    (digits : ∀ c ∈ first :: more, c.isDigit = true) (short : more.length ≤ 17) :
    (scientific negative first more x).decimal =
      (Nat.ofDigitChars 10 (first :: more) 0, x - more.length) := by
  have digit : digitOf first ≤ 9 := digitOf_le (digits first List.mem_cons_self)
  have whole : take 0 [first] = (digitOf first, []) := by
    rw [take, if_pos (by omega), Nat.zero_mul, Nat.zero_add]
    rfl
  have value : Nat.ofDigitChars 10 (first :: more) 0 =
      Nat.ofDigitChars 10 more (digitOf first) := by
    rw [Nat.ofDigitChars_cons, Nat.mul_zero, Nat.zero_add]
    rfl
  have fits : (digitOf first + 1) * 10 ^ more.length ≤ 2 ^ 64 := calc
    (digitOf first + 1) * 10 ^ more.length ≤ 10 * 10 ^ 17 :=
      Nat.mul_le_mul (by omega) (Nat.pow_le_pow_right (by decide) short)
    _ ≤ 2 ^ 64 := by decide
  have ⟨behind, _⟩ := take_all (fun c there => digits c (List.mem_cons_of_mem first there)) fits
  cases more with
  | nil =>
    rw [value]
    simp [scientific, decimal, whole]
  | cons d ds =>
    rw [value]
    simp [scientific, decimal, whole, behind]

def ReadsDouble (negative : Bool) (cs : List Char) : Prop :=
  ∃ l : Literal, (∀ rest, Ended rest → unsigned? negative (cs ++ rest) = some (l, rest)) ∧
    (l.fraction = none → l.exponent ≠ none) ∧ ∃ d, l.double? = some d

theorem readsDouble_positional (negative : Bool) {whole fraction : List Char}
    (digits : ∀ c ∈ whole, c.isDigit = true) (nonempty : whole ≠ [])
    (zero : whole.head? = some '0' → whole = ['0']) (short : whole.length ≤ 16)
    (digits' : ∀ c ∈ fraction, c.isDigit = true) (nonempty' : fraction ≠ []) :
    ReadsDouble negative (whole ++ '.' :: fraction) := by
  refine ⟨_, ?_, ?_, double?_positional negative digits digits' short nonempty'⟩
  · intro rest ended
    have point : ∀ c ∈ ('.' :: (fraction ++ rest)).head?, c.isDigit = false := by simp
    have front := whole?_append digits nonempty zero point
    have back := digits?_append digits' nonempty' ended.noDigit
    simp [unsigned?, front, fraction?, back, exponent?_ended ended]
  · intro none
    cases none

def power (x : Int) : List Char := 'e' :: (if 0 ≤ x then '+' else '-') :: digitsOf x.natAbs

theorem power?_digitsOf (sign : Int) (n : Nat) {rest : List Char} (ended : Ended rest) :
    power? sign (digitsOf n ++ rest) = some (some (sign * n), rest) := by
  have digits : digits? (digitsOf n ++ rest) = some (digitsOf n, rest) :=
    digits?_append (fun _ => isDigit_of_mem_digitsOf) Nat.toDigits_ne_nil ended.noDigit
  simp only [power?, digits, Option.map_some, ofDigitChars_digitsOf]

theorem exponent?_power (x : Int) {rest : List Char} (ended : Ended rest) :
    exponent? (power x ++ rest) = some (some x, rest) := by
  by_cases sign : 0 ≤ x
  · have taken : exponent? (power x ++ rest) = power? 1 (digitsOf x.natAbs ++ rest) := by
      simp [power, sign, exponent?]
    have value : 1 * (x.natAbs : Int) = x := by omega
    rw [taken, power?_digitsOf 1 _ ended, value]
  · have taken : exponent? (power x ++ rest) = power? (-1) (digitsOf x.natAbs ++ rest) := by
      simp [power, sign, exponent?]
    have value : -1 * (x.natAbs : Int) = x := by omega
    rw [taken, power?_digitsOf (-1) _ ended, value]

theorem unsigned?_scientific (negative : Bool) {first : Char} {more : List Char} (x : Int)
    (digits : ∀ c ∈ first :: more, c.isDigit = true) {rest : List Char} (ended : Ended rest) :
    unsigned? negative (first :: (if more = [] then [] else '.' :: more) ++ power x ++ rest) =
      some (scientific negative first more x, rest) := by
  have digit : first.isDigit = true := digits first List.mem_cons_self
  have stop : ∀ c ∈ (power x ++ rest).head?, c.isDigit = false := by simp [power]
  have alone : ∀ c ∈ [first], c.isDigit = true := by simpa using digit
  have front : ∀ tail : List Char, (∀ c ∈ tail.head?, c.isDigit = false) →
      whole? (first :: tail) = some ([first], tail) := fun tail none =>
    whole?_append alone (by simp) (by simp) none
  cases more with
  | nil =>
    have back : fraction? (power x ++ rest) = some (none, power x ++ rest) :=
      fraction?_none (by simp [power])
    simp [unsigned?, front _ stop, back, exponent?_power x ended, scientific]
  | cons d ds =>
    have back : digits? (d :: ds ++ (power x ++ rest)) = some (d :: ds, power x ++ rest) :=
      digits?_append (fun c there => digits c (List.mem_cons_of_mem first there)) (by simp) stop
    have point : ∀ c ∈ ('.' :: (d :: ds ++ (power x ++ rest))).head?, c.isDigit = false := by simp
    simp only [List.cons_append] at back point
    simp [unsigned?, front _ point, fraction?, back, exponent?_power x ended, scientific]

theorem readsDouble_scientific (negative : Bool) {first : Char} {more : List Char} (x : Int)
    (digits : ∀ c ∈ first :: more, c.isDigit = true) (short : more.length ≤ 17) {value : Binary64}
    (fits : ofDecimal (Nat.ofDigitChars 10 (first :: more) 0) (x - more.length) = some value) :
    ReadsDouble negative (first :: (if more = [] then [] else '.' :: more) ++ power x) := by
  refine ⟨scientific negative first more x, ?_, ?_, ?_⟩
  · exact fun rest ended => unsigned?_scientific negative x digits ended
  · intro _ none
    cases none
  · rw [double?, decimal_scientific negative x digits short]
    exact ⟨_, congrArg (Option.map _) fits⟩

theorem isDigit_of_mem_zeros {n : Nat} {d : Char} (there : d ∈ List.replicate n '0') :
    d.isDigit = true := by
  rw [List.eq_of_mem_replicate there]
  decide

section Layouts

variable (negative : Bool) {digits : List Char} (all : ∀ d ∈ digits, d.isDigit = true)
  (nonempty : digits ≠ [])
include all nonempty

theorem readsDouble_before (nonzero : digits.head? ≠ some '0') {n : Nat}
    (short : digits.length + n ≤ 16) :
    ReadsDouble negative (digits ++ List.replicate n '0' ++ ['.', '0']) := by
  have zero : ∀ d ∈ ['0'], d.isDigit = true := by simp
  refine readsDouble_positional negative ?_ (by simp [nonempty]) ?_ ?_ zero (by simp)
  · exact fun d there => (List.mem_append.mp there).elim (all d) isDigit_of_mem_zeros
  · rw [List.head?_append, List.head?_eq_some_head nonempty, Option.some_or,
      ← List.head?_eq_some_head nonempty]
    exact fun zero => absurd zero nonzero
  · rw [List.length_append, List.length_replicate]
    exact short

theorem readsDouble_between (nonzero : digits.head? ≠ some '0') {n : Nat} (some : 0 < n)
    (short : n ≤ 16) (more : n < digits.length) :
    ReadsDouble negative (digits.take n ++ '.' :: digits.drop n) := by
  refine readsDouble_positional negative ?_ ?_ ?_ ?_ ?_ ?_
  · exact fun d there => all d (List.mem_of_mem_take there)
  · rw [ne_eq, List.take_eq_nil_iff]
    exact fun h => h.elim (Nat.ne_of_gt some) nonempty
  · rw [List.head?_take, if_neg (Nat.ne_of_gt some)]
    exact fun zero => absurd zero nonzero
  · rw [List.length_take]
    omega
  · exact fun d there => all d (List.mem_of_mem_drop there)
  · rw [ne_eq, List.drop_eq_nil_iff]
    omega

theorem readsDouble_behind (n : Nat) :
    ReadsDouble negative (['0', '.'] ++ List.replicate n '0' ++ digits) := by
  have zero : ∀ d ∈ ['0'], d.isDigit = true := by simp
  have digits' : ∀ d ∈ List.replicate n '0' ++ digits, d.isDigit = true := fun d there =>
    (List.mem_append.mp there).elim isDigit_of_mem_zeros (all d)
  have nonempty' : List.replicate n '0' ++ digits ≠ [] := by simp [nonempty]
  exact readsDouble_positional negative zero (by simp) (by simp) (by simp) digits' nonempty'

end Layouts

theorem readsDouble_write (negative : Bool) {c : Decimal} (readable : Readable c) :
    ReadsDouble negative (c.write doubleLayout) := by
  have all : ∀ d ∈ digitsOf c.digits, d.isDigit = true := fun _ => isDigit_of_mem_digitsOf
  have nonempty : digitsOf c.digits ≠ [] := Nat.toDigits_ne_nil
  have nonzero : (digitsOf c.digits).head? ≠ some '0' := head?_digitsOf readable.positive
  have few : (digitsOf c.digits).length ≤ 18 :=
    (Nat.length_toDigits_le_iff (by decide) (by decide)).mpr
      (Nat.lt_of_le_of_lt readable.digits (by decide))
  have value : Nat.ofDigitChars 10 (digitsOf c.digits) 0 = c.digits := ofDigitChars_digitsOf _
  have highest : doubleLayout.highest = 15 := rfl
  unfold write
  simp only
  generalize digitsOf c.digits = digits at *
  generalize place : c.exponent + digits.length - 1 = leading
  by_cases near : doubleLayout.lowest ≤ leading ∧ leading ≤ doubleLayout.highest
  · rw [if_pos near]
    by_cases whole : 0 ≤ c.exponent
    · rw [if_pos whole]
      exact readsDouble_before negative all nonempty nonzero (by omega)
    rw [if_neg whole]
    by_cases split : 0 ≤ leading
    · rw [if_pos split]
      exact readsDouble_between negative all nonempty nonzero (by omega) (by omega) (by omega)
    · rw [if_neg split]
      exact readsDouble_behind negative all nonempty _
  · rw [if_neg near]
    obtain ⟨double, fits⟩ := readable.value
    cases digits with
    | nil => exact absurd rfl nonempty
    | cons first more =>
      have exponent : leading - more.length = c.exponent := by
        simp only [List.length_cons] at place
        omega
      rw [← value, ← exponent] at fits
      have read := readsDouble_scientific negative leading all (Nat.le_of_succ_le_succ few) fits
      cases more with
      | nil => exact read
      | cons d ds => exact read

theorem read?_signed {negative : Bool} {cs rest : List Char} {l : Literal}
    (unsigned : unsigned? negative cs = some (l, rest)) :
    read? ((if negative then ['-'] else []) ++ cs) = some (l, rest) := by
  cases negative with
  | true => exact unsigned
  | false =>
    simp only [Bool.false_eq_true, if_false, List.nil_append]
    unfold read?
    split
    · rename_i more
      exact absurd unsigned (by simp [unsigned?, whole?, digits?])
    · exact unsigned

theorem readsDouble_zero (negative : Bool) : ReadsDouble negative ['0', '.', '0'] :=
  have zero : ∀ d ∈ ['0'], d.isDigit = true := by simp
  readsDouble_positional negative zero (by simp) (by simp) (by simp) zero (by simp)

theorem read?_writeDouble {d : Binary64} (finite : d.Finite) :
    ∃ l d', (∀ rest, Ended rest → read? (writeDouble d ++ rest) = some (l, rest)) ∧
      l.number? = some (.double d') := by
  have reads : ReadsDouble d.negative
      (if d.significand = 0 then ['0', '.', '0'] else d.shortest.write doubleLayout) := by
    by_cases zero : d.significand = 0
    · rw [if_pos zero]
      exact readsDouble_zero d.negative
    · rw [if_neg zero]
      exact readsDouble_write d.negative (finite.readable_shortest zero)
  obtain ⟨l, unsigned, double, d', value⟩ := reads
  refine ⟨l, d', ?_, ?_⟩
  · intro rest ended
    rw [writeDouble, List.append_assoc]
    exact read?_signed (unsigned rest ended)
  · have notInteger : ¬ (l.fraction = none ∧ l.exponent = none) := fun ⟨f, e⟩ => double f e
    unfold number?
    rw [if_neg (fun h => notInteger ⟨h.1, h.2.1⟩), value]
    rfl

theorem finite_double? {l : Literal} {d : Binary64} (h : l.double? = some d) : d.Finite := by
  obtain ⟨value, made, signed⟩ := Option.map_eq_some_iff.mp h
  have finite := finite_ofDecimal made
  rw [← signed]
  split
  · exact finite.negate
  · exact finite

theorem finite_number? {l : Literal} {n : Number} (h : l.number? = some n) : n.Finite := by
  unfold number? at h
  simp only at h
  generalize (if l.negative = true then -(l.natural : Int) else l.natural) = value at h
  by_cases integer : l.fraction = none ∧ l.exponent = none ∧ Number.Fits value ∧
      ¬(l.negative = true ∧ value = 0)
  · rw [if_pos integer] at h
    cases h
    exact integer.2.2.1
  · rw [if_neg integer] at h
    obtain ⟨d, read, rfl⟩ := Option.map_eq_some_iff.mp h
    exact finite_double? read

end Literal

end Json

end CacheAside
