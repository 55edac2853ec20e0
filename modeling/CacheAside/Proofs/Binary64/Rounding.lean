import CacheAside.Binary64
import Mathlib.Algebra.Group.Nat.Defs

namespace CacheAside

namespace Binary64

def one : Nat := Nat.pow 2 1074

theorem one_pos : 0 < one := by decide +kernel

structure Finite (d : Binary64) : Prop where
  significand : d.significand < 2 ^ 53
  exponent : d.exponent ≤ 2045

theorem Finite.negate {d : Binary64} (finite : d.Finite) : d.negate.Finite :=
  ⟨finite.significand, finite.exponent⟩

theorem roundDiv_cases (a d : Nat) :
    roundDiv a d = a / d ∧ 2 * (a % d) ≤ d ∨ roundDiv a d = a / d + 1 ∧ d ≤ 2 * (a % d) := by
  simp only [roundDiv]
  by_cases below : 2 * (a % d) < d
  · rw [if_pos below]
    exact .inl ⟨rfl, by omega⟩
  rw [if_neg below]
  by_cases above : d < 2 * (a % d)
  · rw [if_pos above]
    exact .inr ⟨rfl, by omega⟩
  rw [if_neg above]
  by_cases even : a / d % 2 = 0
  · rw [if_pos even]
    exact .inl ⟨rfl, by omega⟩
  · rw [if_neg even]
    exact .inr ⟨rfl, by omega⟩

theorem div_le_div_of_mul_le {a d a' d' : Nat} (hd : 0 < d) (hd' : 0 < d')
    (le : a * d' ≤ a' * d) : a / d ≤ a' / d' := by
  have floor : a / d * d ≤ a := Nat.div_mul_le_self a d
  have scaled : a / d * d' * d ≤ a' * d := calc
    a / d * d' * d = a / d * d * d' := Nat.mul_right_comm _ _ _
    _ ≤ a * d' := Nat.mul_le_mul_right d' floor
    _ ≤ a' * d := le
  exact (Nat.le_div_iff_mul_le hd').mpr (Nat.le_of_mul_le_mul_right scaled hd)

theorem roundDiv_mono {a d a' d' : Nat} (hd : 0 < d) (hd' : 0 < d') (le : a * d' ≤ a' * d) :
    roundDiv a d ≤ roundDiv a' d' := by
  have quotients := div_le_div_of_mul_le hd hd' le
  rcases Nat.lt_or_eq_of_le quotients with less | equal
  · rcases roundDiv_cases a d with ⟨h, _⟩ | ⟨h, _⟩ <;>
      rcases roundDiv_cases a' d' with ⟨h', _⟩ | ⟨h', _⟩ <;> omega
  have parts : d * (a / d) + a % d = a := Nat.div_add_mod a d
  have parts' : d' * (a / d) + a' % d' = a' := by
    rw [equal]
    exact Nat.div_add_mod a' d'
  -- With equal quotients the order is that of the remainders.
  have remainders : a % d * d' ≤ a' % d' * d := by
    rw [← parts, ← parts', Nat.add_mul, Nat.add_mul, Nat.mul_right_comm d,
      Nat.mul_right_comm d', Nat.mul_comm d d'] at le
    exact Nat.le_of_add_le_add_left le
  simp only [roundDiv, ← equal]
  generalize a % d = r at remainders
  generalize a' % d' = r' at remainders
  by_cases low : 2 * r' < d'
  · have half : 2 * r * d' < d * d' := by
      have strict : 2 * r' * d < d' * d := Nat.mul_lt_mul_of_pos_right low hd
      rw [Nat.mul_assoc, Nat.mul_comm d d']
      rw [Nat.mul_assoc] at strict
      omega
    have low' : 2 * r < d := Nat.lt_of_mul_lt_mul_right half
    simp [low, low']
  by_cases high : d' < 2 * r'
  · simp only [low, high, if_false, if_true]
    split
    · omega
    split
    · omega
    · split <;> omega
  have tie : 2 * r' = d' := by omega
  have atMost : 2 * r ≤ d := by
    have half : 2 * r * d' ≤ d * d' := by
      rw [Nat.mul_assoc, ← tie, Nat.mul_left_comm d, Nat.mul_comm d r', tie]
      omega
    exact Nat.le_of_mul_le_mul_right half hd'
  simp only [low, high, if_false]
  split
  · split <;> omega
  · have notAbove : ¬ d < 2 * r := by omega
    simp only [notAbove, if_false, Nat.le_refl]

theorem roundDiv_mul_le (a d : Nat) : 2 * (roundDiv a d * d) ≤ 2 * a + d := by
  have parts : a / d * d + a % d = a := Nat.div_add_mod' a d
  rcases roundDiv_cases a d with ⟨h, _⟩ | ⟨h, half⟩
  · rw [h]
    omega
  · rw [h, Nat.add_mul]
    omega

theorem exponentOf_bounds (units : Nat) :
    units < 2 ^ 53 * 2 ^ exponentOf units ∧
      (exponentOf units = 0 ∨ 2 ^ 52 * 2 ^ exponentOf units ≤ units) := by
  have above : units < 2 ^ (units.log2 + 1) := Nat.lt_log2_self
  simp only [exponentOf, ← Nat.pow_add]
  constructor
  · exact Nat.lt_of_lt_of_le above (Nat.pow_le_pow_right (by decide) (by omega))
  by_cases small : units.log2 + 1 ≤ 53
  · exact .inl (by omega)
  · right
    have below : 2 ^ units.log2 ≤ units := Nat.log2_self_le (by rintro rfl; simp at small)
    rw [show 52 + (units.log2 + 1 - 53) = units.log2 by omega]
    exact below

theorem exponentOf_mono {units units' : Nat} (le : units ≤ units') :
    exponentOf units ≤ exponentOf units' := by
  have logs : units.log2 ≤ units'.log2 := by
    refine Nat.le_of_not_lt fun more => ?_
    have above : units' < 2 ^ (units'.log2 + 1) := Nat.lt_log2_self
    have below : 2 ^ units.log2 ≤ units := Nat.log2_self_le (by rintro rfl; simp at more)
    have powers : 2 ^ (units'.log2 + 1) ≤ 2 ^ units.log2 :=
      Nat.pow_le_pow_right (by decide) (by omega)
    omega
  simp only [exponentOf]
  omega

def quantum (num den : Nat) : Nat := exponentOf (num * one / den)

def mantissa (num den : Nat) : Nat := roundDiv (num * one) (den * Nat.pow 2 (quantum num den))

def rounded (num den : Nat) : Binary64 :=
  if mantissa num den = Nat.pow 2 53 then ⟨false, Nat.pow 2 52, quantum num den + 1⟩
  else ⟨false, mantissa num den, quantum num den⟩

theorem ofRatio_eq (num den : Nat) : ofRatio num den =
    if (rounded num den).exponent ≤ 2045 then some (rounded num den) else none := by
  unfold ofRatio rounded mantissa quantum one
  rfl

section Order

variable {num den num' den' : Nat}

theorem mantissa_le (num den : Nat) : mantissa num den ≤ 2 ^ 53 := by
  have fits := (exponentOf_bounds (num * one / den)).1
  rw [← Nat.div_lt_iff_lt_mul (Nat.two_pow_pos _), Nat.div_div_eq_div_mul] at fits
  rcases roundDiv_cases (num * one) (den * 2 ^ quantum num den) with ⟨low, _⟩ | ⟨high, _⟩
  · exact Nat.le_trans (Nat.le_of_eq low) (Nat.le_of_lt fits)
  · exact Nat.le_trans (Nat.le_of_eq high) fits

theorem le_mantissa (normal : 0 < quantum num den) : 2 ^ 52 ≤ mantissa num den := by
  have full : 2 ^ 52 * 2 ^ quantum num den ≤ num * one / den := by
    rcases (exponentOf_bounds (num * one / den)).2 with least | full
    · exact absurd least (Nat.ne_of_gt normal)
    · exact full
  rw [← Nat.le_div_iff_mul_le (Nat.two_pow_pos _), Nat.div_div_eq_div_mul] at full
  rcases roundDiv_cases (num * one) (den * 2 ^ quantum num den) with ⟨low, _⟩ | ⟨high, _⟩
  · exact Nat.le_trans full (Nat.le_of_eq low.symm)
  · exact Nat.le_trans (Nat.le_succ_of_le full) (Nat.le_of_eq high.symm)

theorem rounded_magnitude (num den : Nat) :
    (rounded num den).magnitude = mantissa num den * 2 ^ quantum num den := by
  unfold rounded
  by_cases carried : mantissa num den = Nat.pow 2 53
  · have double : Nat.pow 2 53 = 2 * Nat.pow 2 52 := by decide
    rw [if_pos carried, carried, double, Nat.mul_comm 2, Nat.mul_assoc]
    exact congrArg (Nat.pow 2 52 * ·) (Nat.pow_succ')
  · rw [if_neg carried]
    rfl

theorem scaled_le (le : num * den' ≤ num' * den) : num * one * den' ≤ num' * one * den := by
  rw [Nat.mul_right_comm, Nat.mul_right_comm num']
  exact Nat.mul_le_mul_right one le

theorem quantum_mono (hd : 0 < den) (hd' : 0 < den') (le : num * den' ≤ num' * den) :
    quantum num den ≤ quantum num' den' :=
  exponentOf_mono (div_le_div_of_mul_le hd hd' (scaled_le le))

theorem mantissa_mono (hd : 0 < den) (hd' : 0 < den') (le : num * den' ≤ num' * den)
    (same : quantum num den = quantum num' den') : mantissa num den ≤ mantissa num' den' := by
  have unit : 0 < 2 ^ quantum num den := Nat.two_pow_pos _
  unfold mantissa
  rw [← same]
  refine roundDiv_mono (Nat.mul_pos hd unit) (Nat.mul_pos hd' unit) ?_
  rw [← Nat.mul_assoc, ← Nat.mul_assoc]
  exact Nat.mul_le_mul_right _ (scaled_le le)

theorem rounded_mono (hd : 0 < den) (hd' : 0 < den') (le : num * den' ≤ num' * den) :
    (rounded num den).magnitude ≤ (rounded num' den').magnitude ∧
      (rounded num den).exponent ≤ (rounded num' den').exponent := by
  rw [rounded_magnitude, rounded_magnitude]
  have atMost : mantissa num den ≤ 2 ^ 53 := mantissa_le num den
  rcases Nat.lt_or_eq_of_le (quantum_mono hd hd' le) with less | same
  · have atLeast : 2 ^ 52 ≤ mantissa num' den' := le_mantissa (by omega)
    constructor
    · calc mantissa num den * 2 ^ quantum num den
          _ ≤ 2 ^ 53 * 2 ^ quantum num den := Nat.mul_le_mul_right _ atMost
          _ = 2 ^ 52 * 2 ^ (quantum num den + 1) := by rw [Nat.pow_succ]; omega
          _ ≤ 2 ^ 52 * 2 ^ quantum num' den' :=
            Nat.mul_le_mul_left _ (Nat.pow_le_pow_right (by decide) less)
          _ ≤ mantissa num' den' * 2 ^ quantum num' den' := Nat.mul_le_mul_right _ atLeast
    · unfold rounded
      split <;> split <;> simp only <;> omega
  · have significands := mantissa_mono hd hd' le same
    have atMost' : mantissa num' den' ≤ 2 ^ 53 := mantissa_le num' den'
    constructor
    · rw [same]
      exact Nat.mul_le_mul_right _ significands
    · unfold rounded
      split <;> split <;> simp only [Nat.pow_eq] at * <;> omega

theorem ofRatio_of_le {d' : Binary64} (hd : 0 < den) (hd' : 0 < den')
    (le : num * den' ≤ num' * den) (bound : ofRatio num' den' = some d') :
    ∃ d, ofRatio num den = some d ∧ d.magnitude ≤ d'.magnitude := by
  have ⟨magnitudes, exponents⟩ := rounded_mono hd hd' le
  rw [ofRatio_eq] at bound
  split at bound
  · rename_i small
    cases bound
    refine ⟨rounded num den, ?_, magnitudes⟩
    rw [ofRatio_eq, if_pos (Nat.le_trans exponents small)]
  · cases bound

end Order

theorem finite_ofRatio {num den : Nat} {d : Binary64} (h : ofRatio num den = some d) :
    d.Finite := by
  rw [ofRatio_eq] at h
  split at h
  · rename_i small
    cases h
    refine ⟨?_, small⟩
    have atMost := mantissa_le num den
    unfold rounded
    split <;> simp only [Nat.pow_eq] at * <;> omega
  · cases h

theorem finite_zero (negative : Bool) : (zero negative).Finite :=
  ⟨Nat.two_pow_pos 53, Nat.zero_le _⟩

theorem finite_ofDecimal {significand : Nat} {exponent : Int} {d : Binary64}
    (h : ofDecimal significand exponent = some d) : d.Finite := by
  simp only [ofDecimal, Option.bind_eq_bind, Option.bind_eq_some_iff] at h
  obtain ⟨first, read, h⟩ := h
  split at h
  · split at h
    · cases h
      exact finite_ofRatio read
    split at h
    · cases h
    · obtain ⟨_, _, h⟩ := Option.bind_eq_some_iff.mp h
      exact finite_ofRatio h
  · split at h
    · obtain ⟨_, _, h⟩ := Option.bind_eq_some_iff.mp h
      exact finite_ofRatio h
    · obtain ⟨_, _, h⟩ := Option.bind_eq_some_iff.mp h
      obtain ⟨_, _, h⟩ := Option.bind_eq_some_iff.mp h
      split at h
      · obtain ⟨_, _, h⟩ := Option.bind_eq_some_iff.mp h
        exact finite_ofRatio h
      · cases h
        exact finite_zero false

theorem mul_eq (a b : Binary64) :
    a.mul b = ofRatio (a.magnitude * b.magnitude) (one * one) := by
  unfold mul one
  rfl

theorem mul_of_le {a b a' b' d' : Binary64} (first : a.magnitude ≤ a'.magnitude)
    (second : b.magnitude ≤ b'.magnitude) (bound : a'.mul b' = some d') :
    ∃ d, a.mul b = some d := by
  have unit : 0 < one * one := Nat.mul_pos one_pos one_pos
  have products := Nat.mul_le_mul_right (one * one) (Nat.mul_le_mul first second)
  rw [mul_eq] at bound ⊢
  obtain ⟨d, made, _⟩ := ofRatio_of_le unit unit products bound
  exact ⟨d, made⟩

theorem tenPow_of_le {n n' : Nat} {d' : Binary64} (le : n ≤ n') (bound : tenPow n' = some d') :
    ∃ d, tenPow n = some d ∧ d.magnitude ≤ d'.magnitude :=
  ofRatio_of_le Nat.one_pos Nat.one_pos
    (Nat.mul_le_mul_right 1 (Nat.pow_le_pow_right (by decide) le)) bound

theorem ofDecimal_of_le {s s' n n' : Nat} {d' : Binary64} (digits : s ≤ s') (places : n ≤ n')
    (bound : ofDecimal s' n' = some d') : ∃ d, ofDecimal s n = some d := by
  simp only [ofDecimal, Option.bind_eq_bind, Option.bind_eq_some_iff, Int.natCast_nonneg,
    if_true, Int.toNat_natCast] at bound ⊢
  obtain ⟨whole', read', bound⟩ := bound
  obtain ⟨whole, read, smaller⟩ :=
    ofRatio_of_le Nat.one_pos Nat.one_pos (Nat.mul_le_mul_right 1 digits) read'
  by_cases none : s = 0
  · exact ⟨whole, whole, read, if_pos none⟩
  rw [if_neg (by omega)] at bound
  split at bound
  · cases bound
  obtain ⟨power', raised', bound⟩ := Option.bind_eq_some_iff.mp bound
  obtain ⟨power, raised, lower⟩ := tenPow_of_le places raised'
  obtain ⟨d, made⟩ := mul_of_le smaller lower bound
  refine ⟨d, whole, read, ?_⟩
  rw [if_neg none, if_neg (by omega), raised, Option.bind_some]
  exact made

theorem ofRatio_word : ∃ word, ofRatio (2 ^ 64) 1 = some word ∧ word.magnitude = 2 ^ 64 * one :=
  ⟨⟨false, 2 ^ 52, 1086⟩, by decide +kernel, by decide +kernel⟩

theorem div_of_le {n : Nat} {a b word : Binary64} (bound : ofRatio n 1 = some word)
    (size : word.magnitude = n * one) (small : a.magnitude ≤ word.magnitude)
    (large : one ≤ b.magnitude) : ∃ d, a.div b = some d ∧ d.magnitude ≤ word.magnitude := by
  have positive : 0 < b.magnitude := Nat.lt_of_lt_of_le one_pos large
  have below : a.magnitude * 1 ≤ n * b.magnitude := calc
    a.magnitude * 1 = a.magnitude := Nat.mul_one _
    _ ≤ n * one := size ▸ small
    _ ≤ n * b.magnitude := Nat.mul_le_mul_left n large
  exact ofRatio_of_le positive Nat.one_pos below bound

theorem tenPow_ge {n : Nat} (fits : n ≤ 308) : ∃ d, tenPow n = some d ∧ one ≤ d.magnitude := by
  obtain ⟨largest, bound⟩ : ∃ largest, tenPow 308 = some largest :=
    Option.isSome_iff_exists.mp (by decide +kernel)
  obtain ⟨d, raised, _⟩ := tenPow_of_le fits bound
  have unit : (rounded 1 1).magnitude = one := by decide +kernel
  have atLeast : 1 ≤ Nat.pow 10 n := Nat.one_le_pow n 10 (by decide)
  have larger := (rounded_mono Nat.one_pos Nat.one_pos (Nat.mul_le_mul_right 1 atLeast)).1
  refine ⟨d, raised, ?_⟩
  rw [tenPow, ofRatio_eq] at raised
  split at raised
  · cases raised
    exact Nat.le_trans (Nat.le_of_eq unit.symm) larger
  · cases raised

theorem ofDecimal_of_neg {s : Nat} {exponent : Int} (digits : s < 2 ^ 64) (neg : exponent < 0) :
    ∃ d, ofDecimal s exponent = some d := by
  obtain ⟨word, bound, size⟩ := ofRatio_word
  obtain ⟨whole, read, small⟩ := ofRatio_of_le Nat.one_pos Nat.one_pos
    (Nat.mul_le_mul_right 1 (Nat.le_of_lt digits)) bound
  generalize 2 ^ 64 = n at bound size
  simp only [ofDecimal, read, Option.bind_eq_bind, Option.bind_some]
  rw [if_neg (by omega)]
  by_cases near : (-exponent).toNat ≤ 308
  · obtain ⟨power, raised, large⟩ := tenPow_ge near
    obtain ⟨d, made, _⟩ := div_of_le bound size small large
    rw [if_pos near, raised, Option.bind_some]
    exact ⟨d, made⟩
  obtain ⟨power, raised, large⟩ := tenPow_ge (Nat.le_refl 308)
  obtain ⟨part, divided, small⟩ := div_of_le bound size small large
  rw [if_neg near, raised, Option.bind_some, divided, Option.bind_some]
  by_cases far : (-exponent).toNat ≤ 616
  · obtain ⟨power, raised, large⟩ := tenPow_ge (n := (-exponent).toNat - 308) (by omega)
    obtain ⟨d, made, _⟩ := div_of_le bound size small large
    rw [if_pos far, raised, Option.bind_some]
    exact ⟨d, made⟩
  · rw [if_neg far]
    exact ⟨zero false, rfl⟩

end Binary64

end CacheAside
