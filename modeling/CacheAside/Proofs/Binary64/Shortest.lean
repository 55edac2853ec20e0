import CacheAside.Binary64.Shortest
import CacheAside.Proofs.Binary64.Rounding

namespace CacheAside

namespace Binary64

theorem tenRatio_shift {x : Int} {a b : Nat} (h : x + a = b) :
    (tenRatio x).1 * 10 ^ a = 10 ^ b * (tenRatio x).2 := by
  rcases Int.le_total 0 x with above | below
  · have whole : (-x).toNat = 0 := by omega
    have sum : x.toNat + a = b := by omega
    simp only [tenRatio, Nat.pow_eq, whole, Nat.pow_zero, Nat.mul_one, ← Nat.pow_add, sum]
  · have whole : x.toNat = 0 := by omega
    have sum : b + (-x).toNat = a := by omega
    simp only [tenRatio, Nat.pow_eq, whole, Nat.pow_zero, Nat.one_mul, ← Nat.pow_add, sum]

theorem tenRatio_pos (x : Int) : 0 < (tenRatio x).1 ∧ 0 < (tenRatio x).2 :=
  ⟨Nat.pow_pos (by decide), Nat.pow_pos (by decide)⟩

theorem length_toDigits_bounds {n : Nat} (positive : 0 < n) :
    10 ^ (Nat.toDigits 10 n).length ≤ 10 * n ∧ n < 10 ^ (Nat.toDigits 10 n).length := by
  have nonempty : 0 < (Nat.toDigits 10 n).length := Nat.length_toDigits_pos
  refine ⟨?_, (Nat.length_toDigits_le_iff (by decide) nonempty).mp (Nat.le_refl _)⟩
  obtain ⟨k, length⟩ : ∃ k, (Nat.toDigits 10 n).length = k + 1 :=
    ⟨_, (Nat.succ_pred_eq_of_pos nonempty).symm⟩
  rw [length, Nat.pow_succ, Nat.mul_comm]
  refine Nat.mul_le_mul_left 10 ?_
  rcases Nat.eq_zero_or_pos k with rfl | more
  · exact positive
  · refine Nat.le_of_not_lt fun less => ?_
    have fewer := (Nat.length_toDigits_le_iff (by decide) more).mpr less
    omega

theorem leading_bounds {d : Binary64} (positive : 0 < d.magnitude) :
    ∃ places : Nat, d.leading = places - 343 ∧ 16 ≤ places ∧
      10 ^ places * one ≤ 10 * (d.magnitude * Nat.pow 10 342) ∧
      d.magnitude * Nat.pow 10 342 < 10 ^ places * one := by
  have least : 10 ^ 16 ≤ Nat.pow 10 342 / one := by decide +kernel
  have scaled : 10 ^ 16 ≤ d.magnitude * Nat.pow 10 342 / one := by
    generalize Nat.pow 10 342 = t at least ⊢
    exact Nat.le_trans least (Nat.div_le_div_right (Nat.le_mul_of_pos_left t positive))
  have ⟨low, high⟩ := length_toDigits_bounds (Nat.lt_of_lt_of_le (by decide) scaled)
  have leading : d.leading =
      ((Nat.toDigits 10 (d.magnitude * Nat.pow 10 342 / one)).length : Int) - 343 := by
    delta Binary64.leading one
    rfl
  refine ⟨_, leading, ?_, ?_, (Nat.div_lt_iff_lt_mul one_pos).mp high⟩
  · have powers := Nat.lt_of_le_of_lt scaled high
    exact Nat.le_of_lt ((Nat.pow_lt_pow_iff_right (by decide)).mp powers)
  · refine Nat.le_trans (Nat.mul_le_mul_right one low) ?_
    rw [Nat.mul_assoc]
    exact Nat.mul_le_mul_left 10 (Nat.div_mul_le_self _ _)

def below (d : Binary64) (x : Int) : Nat :=
  d.magnitude * (tenRatio x).2 / (one * (tenRatio x).1)

def nearest (d : Binary64) (x : Int) : Nat :=
  roundDiv (d.magnitude * (tenRatio x).2) (one * (tenRatio x).1)

theorem below_lt {d : Binary64} {x : Int} (positive : 0 < d.magnitude)
    (low : d.leading ≤ x + 16) : d.below x < 10 ^ 17 := by
  obtain ⟨places, leading, many, _, above⟩ := leading_bounds positive
  obtain ⟨b, shift⟩ : ∃ b : Nat, x + (359 : Nat) = b := ⟨(x + 359).toNat, by omega⟩
  have powers := tenRatio_shift shift
  have split : 10 ^ 359 = 10 ^ 17 * Nat.pow 10 342 := by decide +kernel
  have scale : 0 < Nat.pow 10 342 := by decide +kernel
  have ⟨up, down⟩ := tenRatio_pos x
  have unit := one_pos
  rw [split] at powers
  unfold below
  generalize Nat.pow 10 342 = t at *
  generalize one = u at *
  rw [Nat.div_lt_iff_lt_mul (Nat.mul_pos unit up)]
  refine Nat.lt_of_mul_lt_mul_right (a := t) ?_
  calc d.magnitude * (tenRatio x).2 * t
    _ = d.magnitude * t * (tenRatio x).2 := Nat.mul_right_comm _ _ _
    _ < 10 ^ places * u * (tenRatio x).2 := Nat.mul_lt_mul_of_pos_right above down
    _ ≤ 10 ^ b * u * (tenRatio x).2 :=
      Nat.mul_le_mul_right _ (Nat.mul_le_mul_right _ (Nat.pow_le_pow_right (by decide) (by omega)))
    _ = (tenRatio x).1 * (10 ^ 17 * t) * u := by rw [powers, Nat.mul_right_comm]
    _ = 10 ^ 17 * (u * (tenRatio x).1) * t := by ac_rfl

theorem below_pos {d : Binary64} {x : Int} (positive : 0 < d.magnitude) (high : x ≤ d.leading)
    (low : d.leading ≤ x + 16) : 0 < d.below x := by
  obtain ⟨places, leading, many, under, _⟩ := leading_bounds positive
  obtain ⟨b, shift⟩ : ∃ b : Nat, x + (343 : Nat) = b := ⟨(x + 343).toNat, by omega⟩
  have powers := tenRatio_shift shift
  have split : 10 ^ 343 = 10 * Nat.pow 10 342 := by decide +kernel
  have scale : 0 < Nat.pow 10 342 := by decide +kernel
  have ⟨up, down⟩ := tenRatio_pos x
  have unit := one_pos
  rw [split] at powers
  unfold below
  generalize Nat.pow 10 342 = t at *
  generalize one = u at *
  refine (Nat.le_div_iff_mul_le (Nat.mul_pos unit up)).mpr
    (Nat.le_of_mul_le_mul_right ?_ (Nat.mul_pos (show 0 < 10 by decide) scale))
  calc 1 * (u * (tenRatio x).1) * (10 * t)
    _ = (tenRatio x).1 * (10 * t) * u := by rw [Nat.one_mul]; ac_rfl
    _ = 10 ^ b * u * (tenRatio x).2 := by rw [powers, Nat.mul_right_comm]
    _ ≤ 10 ^ places * u * (tenRatio x).2 :=
      Nat.mul_le_mul_right _ (Nat.mul_le_mul_right _ (Nat.pow_le_pow_right (by decide) (by omega)))
    _ ≤ 10 * (d.magnitude * t) * (tenRatio x).2 := Nat.mul_le_mul_right _ under
    _ = d.magnitude * (tenRatio x).2 * (10 * t) := by ac_rfl

theorem nearest_cases (d : Binary64) (x : Int) :
    d.nearest x = d.below x ∨ d.nearest x = d.below x + 1 :=
  (roundDiv_cases _ _).imp And.left And.left

theorem holds_high {i : Interval} {digits : Nat} {x : Int} (held : i.holds digits x = true) :
    digits * (tenRatio x).1 * (4 * one) ≤ i.high * (tenRatio x).2 := by
  delta Interval.holds at held
  delta one
  generalize 4 * Nat.pow 2 1074 = unit at held ⊢
  cases closed : i.closed with
  | true =>
    simp only [closed, if_true, Bool.and_eq_true, decide_eq_true_eq] at held
    exact held.2
  | false =>
    simp only [closed, Bool.false_eq_true, if_false, Bool.and_eq_true, decide_eq_true_eq] at held
    exact Nat.le_of_lt held.2

theorem gridPoint?_eq (d : Binary64) (x : Int) :
    d.gridPoint? x =
      if d.interval.holds (d.nearest x) x then some (d.nearest x)
      else
        let other := if d.nearest x = d.below x then d.below x + 1 else d.below x
        if d.interval.holds other x then some other else none := by
  delta gridPoint? nearest below one
  generalize Nat.pow 2 1074 = unit
  rfl

theorem gridPoint?_cases {d : Binary64} {x : Int} {digits : Nat}
    (found : d.gridPoint? x = some digits) :
    (digits = d.below x ∨ digits = d.below x + 1) ∧ d.interval.holds digits x = true := by
  have neighbours := nearest_cases d x
  rw [gridPoint?_eq] at found
  generalize d.nearest x = nearest at found neighbours
  generalize d.below x = below at found neighbours ⊢
  by_cases held : d.interval.holds nearest x = true
  · rw [if_pos held] at found
    cases found
    exact ⟨neighbours, held⟩
  rw [if_neg held] at found
  have others : (if nearest = below then below + 1 else below) = below ∨
      (if nearest = below then below + 1 else below) = below + 1 := by
    split
    · exact .inr rfl
    · exact .inl rfl
  simp only at found
  generalize (if nearest = below then below + 1 else below) = other at found others
  split at found
  · rename_i held
    cases found
    exact ⟨others, held⟩
  · cases found

theorem shortestFrom_zero (d : Binary64) (x : Int) :
    d.shortestFrom 0 x = ⟨d.nearest x, x⟩ := by
  rw [shortestFrom]
  delta nearest one
  generalize Nat.pow 2 1074 = unit
  rfl

/-- What is tried last has seventeen digits, and it need not be asked for. -/
theorem shortestFrom_cases (d : Binary64) (more : Nat) (x : Int) :
    ∃ n ≤ more, ∃ digits, d.shortestFrom more x = ⟨digits, x - n⟩ ∧
      (d.gridPoint? (x - n) = some digits ∨ digits = d.nearest (x - n) ∧ n = more) := by
  induction more generalizing x with
  | zero =>
    refine ⟨0, Nat.le_refl 0, d.nearest x, ?_, .inr ⟨?_, rfl⟩⟩
    · rw [shortestFrom_zero, Int.natCast_zero, Int.sub_zero]
    · rw [Int.natCast_zero, Int.sub_zero]
  | succ more ih =>
    simp only [shortestFrom]
    cases found : d.gridPoint? x with
    | some digits => exact ⟨0, Nat.zero_le _, digits, by simp, .inl (by simpa using found)⟩
    | none =>
      obtain ⟨n, few, digits, result, which⟩ := ih (x - 1)
      have shift : x - 1 - n = x - (n + 1 : Nat) := by omega
      rw [shift] at result which
      refine ⟨n + 1, by omega, digits, result, which.imp_right fun ⟨last, all⟩ => ⟨last, by omega⟩⟩

def largest (negative : Bool) : Binary64 := ⟨negative, 2 ^ 53 - 1, 2045⟩

def ceiling : Nat := (2 ^ 54 - 3) * 2 ^ 2044

theorem interval_high (d : Binary64) :
    d.interval.high = 4 * d.magnitude + 2 * 2 ^ d.exponent := rfl

theorem interval_high_le {d : Binary64} (finite : d.Finite) (notLargest : d ≠ largest d.negative) :
    d.interval.high ≤ 4 * ceiling := by
  rcases d with ⟨negative, s, e⟩
  have small : s < 2 ^ 53 := finite.significand
  have high : (interval ⟨negative, s, e⟩).high = (4 * s + 2) * 2 ^ e := by
    rw [interval_high, magnitude, Nat.add_mul, Nat.mul_assoc]
    rfl
  obtain ⟨k, top, within, other⟩ : ∃ k, ceiling = (2 ^ 54 - 3) * 2 ^ k ∧ e ≤ k + 1 ∧
      (e = k + 1 → s ≠ 2 ^ 53 - 1) := by
    refine ⟨2044, rfl, finite.exponent, ?_⟩
    rintro last rfl
    exact notLargest (congrArg (Binary64.mk negative _) last)
  rw [high, top]
  rcases Nat.lt_or_eq_of_le within with less | last
  · calc (4 * s + 2) * 2 ^ e
      _ ≤ (4 * (2 ^ 54 - 3)) * 2 ^ e := Nat.mul_le_mul_right _ (by omega)
      _ ≤ (4 * (2 ^ 54 - 3)) * 2 ^ k :=
        Nat.mul_le_mul_left _ (Nat.pow_le_pow_right (by decide) (Nat.le_of_lt_succ less))
      _ = 4 * ((2 ^ 54 - 3) * 2 ^ k) := Nat.mul_assoc _ _ _
  · have lower : s ≠ 2 ^ 53 - 1 := other last
    calc (4 * s + 2) * 2 ^ e
      _ = (4 * s + 2) * (2 * 2 ^ k) := by rw [last, Nat.pow_succ']
      _ = (4 * s + 2) * 2 * 2 ^ k := (Nat.mul_assoc _ _ _).symm
      _ ≤ (4 * (2 ^ 54 - 3)) * 2 ^ k := Nat.mul_le_mul_right _ (by omega)
      _ = 4 * ((2 ^ 54 - 3) * 2 ^ k) := Nat.mul_assoc _ _ _

structure Moderate (c : Decimal) : Prop where
  positive : 0 < c.digits
  digits : c.digits ≤ 10 ^ 17
  value : 0 ≤ c.exponent → c.digits * 10 ^ c.exponent.toNat * one ≤ ceiling

theorem tenRatio_natCast (n : Nat) : tenRatio n = (10 ^ n, 1) := by
  have none : (-(n : Int)).toNat = 0 := by omega
  rw [tenRatio, Int.toNat_natCast, none]
  rfl

theorem Finite.grid_le {d : Binary64} (finite : d.Finite) (positive : 0 < d.magnitude) {n : Nat}
    (last : d.leading = n + 16) : 10 ^ n * one ≤ 2 ^ d.exponent := by
  obtain ⟨places, leading, _, under, _⟩ := leading_bounds positive
  have all : places = n + 359 := by omega
  have split : 10 ^ (n + 359) = 10 ^ n * (10 ^ 16 * (10 * Nat.pow 10 342)) :=
    (Nat.pow_add 10 n 359).trans (congrArg (10 ^ n * ·) (by decide +kernel))
  have scale : 0 < 10 * Nat.pow 10 342 := by decide +kernel
  rw [all, split] at under
  generalize Nat.pow 10 342 = t at under scale
  generalize one = unit at under ⊢
  have shifted : 10 ^ n * unit * 10 ^ 16 * (10 * t) ≤ d.magnitude * (10 * t) := calc
    10 ^ n * unit * 10 ^ 16 * (10 * t) = 10 ^ n * (10 ^ 16 * (10 * t)) * unit := by ac_rfl
    _ ≤ 10 * (d.magnitude * t) := under
    _ = d.magnitude * (10 * t) := by ac_rfl
  have digits : 10 ^ n * unit * 10 ^ 16 ≤ d.magnitude := Nat.le_of_mul_le_mul_right shifted scale
  have bits : d.magnitude ≤ 2 ^ d.exponent * 10 ^ 16 := calc
    d.magnitude = 2 ^ d.exponent * d.significand := Nat.mul_comm _ _
    _ ≤ 2 ^ d.exponent * 2 ^ 53 := Nat.mul_le_mul_left _ (Nat.le_of_lt finite.significand)
    _ ≤ 2 ^ d.exponent * 10 ^ 16 := Nat.mul_le_mul_left _ (by decide)
  exact Nat.le_of_mul_le_mul_right (Nat.le_trans digits bits) (by decide)

theorem Finite.nearest_le {d : Binary64} (finite : d.Finite) (positive : 0 < d.magnitude) {n : Nat}
    (last : d.leading = n + 16) : 4 * (d.nearest n * 10 ^ n * one) ≤ d.interval.high := by
  have grid := finite.grid_le positive last
  unfold nearest
  rw [tenRatio_natCast, interval_high]
  simp only [Nat.mul_one, Nat.mul_comm one, Nat.mul_assoc]
  have half := roundDiv_mul_le d.magnitude (10 ^ n * one)
  generalize 10 ^ n * one = step at grid half ⊢
  omega

theorem Finite.shortestFrom_le {d : Binary64} (finite : d.Finite) (positive : 0 < d.magnitude) :
    ∃ digits x, d.shortestFrom 16 d.leading = ⟨digits, x⟩ ∧ 0 < digits ∧ digits ≤ 10 ^ 17 ∧
      ∀ n : Nat, x = n → 4 * (digits * 10 ^ n * one) ≤ d.interval.high := by
  obtain ⟨n, few, digits, result, which⟩ := shortestFrom_cases d 16 d.leading
  have least := below_pos positive (x := d.leading - n) (by omega) (by omega)
  have most := below_lt positive (x := d.leading - n) (by omega)
  have few : digits = d.below (d.leading - n) ∨ digits = d.below (d.leading - n) + 1 := by
    rcases which with found | ⟨last, _⟩
    · exact (gridPoint?_cases found).1
    · rw [last]
      exact nearest_cases d _
  generalize d.below (d.leading - n) = below at least most few
  refine ⟨digits, _, result, by omega, by omega, ?_⟩
  intro m whole
  rcases which with found | ⟨last, rfl⟩
  · have high := holds_high (gridPoint?_cases found).2
    rw [whole, tenRatio_natCast, Nat.mul_one, Nat.mul_left_comm] at high
    exact high
  · rw [last, whole]
    exact finite.nearest_le positive (by omega)

theorem Moderate.trim {c : Decimal} (h : Moderate c) (count : Nat) :
    Moderate (Decimal.trim count c) := by
  induction count generalizing c with
  | zero => exact h
  | succ count ih =>
    rw [Decimal.trim]
    split
    · rename_i tens
      have whole : c.digits = c.digits / 10 * 10 := by omega
      have less := h.digits
      refine ih ⟨by simp only; omega, by simp only; omega, ?_⟩
      intro nonneg
      rcases Int.lt_or_le c.exponent 0 with point | whole'
      · have atPoint : (c.exponent + 1).toNat = 0 := by omega
        have tenth : c.digits / 10 ≤ 10 ^ 17 := by omega
        have small : 10 ^ 17 * one ≤ ceiling := by decide +kernel
        simp only [atPoint, Nat.pow_zero, Nat.mul_one]
        exact Nat.le_trans (Nat.mul_le_mul_right one tenth) small
      · have next : (c.exponent + 1).toNat = c.exponent.toNat + 1 := by omega
        have value := h.value whole'
        rw [whole, Nat.mul_assoc (c.digits / 10), ← Nat.pow_succ'] at value
        simp only [next]
        exact value
    · exact h

structure Readable (c : Decimal) : Prop where
  positive : 0 < c.digits
  digits : c.digits ≤ 10 ^ 17
  value : ∃ d, ofDecimal c.digits c.exponent = some d

theorem Moderate.readable {c : Decimal} (h : Moderate c) : Readable c := by
  refine ⟨h.positive, h.digits, ?_⟩
  rcases Int.lt_or_le c.exponent 0 with fraction | whole
  · exact ofDecimal_of_neg (Nat.lt_of_le_of_lt h.digits (by decide)) fraction
  obtain ⟨n, exponent⟩ := Int.eq_ofNat_of_zero_le whole
  have value := h.value whole
  rw [exponent] at value ⊢
  rw [Int.toNat_natCast] at value
  by_cases low : n ≤ 291
  · obtain ⟨d, bound⟩ : ∃ d, ofDecimal (10 ^ 17) (291 : Nat) = some d :=
      Option.isSome_iff_exists.mp (by decide +kernel)
    exact ofDecimal_of_le h.digits low bound
  by_cases high : n ≤ 308
  · have table : ∀ k : Fin 17,
        (ofDecimal (ceiling / (10 ^ (292 + k.val) * one)) ((292 + k.val : Nat) : Int)).isSome := by
      decide +kernel
    obtain ⟨d, bound⟩ := Option.isSome_iff_exists.mp (table ⟨n - 292, by omega⟩)
    have same : 292 + (n - 292) = n := by omega
    simp only [same] at bound
    refine ofDecimal_of_le ?_ (Nat.le_refl n) bound
    refine (Nat.le_div_iff_mul_le (Nat.mul_pos (Nat.pow_pos (by decide)) one_pos)).mpr ?_
    rw [← Nat.mul_assoc]
    exact value
  · exfalso
    obtain ⟨limit, beyond, power⟩ : ∃ limit, ceiling < limit * one ∧ limit ≤ 10 ^ n :=
      ⟨10 ^ 309, by decide +kernel, Nat.pow_le_pow_right (by decide) (by omega)⟩
    have more : limit * one ≤ c.digits * 10 ^ n * one :=
      Nat.mul_le_mul_right one (Nat.le_trans power (Nat.le_mul_of_pos_left _ h.positive))
    exact absurd value (Nat.not_le_of_lt (Nat.lt_of_lt_of_le beyond more))

theorem readable_largest (negative : Bool) : Readable (largest negative).shortest := by
  have digits : (largest negative).shortest = ⟨17976931348623157, 292⟩ := by
    revert negative
    decide +kernel
  have read : (ofDecimal 17976931348623157 292).isSome := by decide +kernel
  rw [digits]
  exact ⟨by decide, by decide, Option.isSome_iff_exists.mp read⟩

theorem Finite.readable_shortest {d : Binary64} (finite : d.Finite) (nonzero : d.significand ≠ 0) :
    Readable d.shortest := by
  by_cases last : d = largest d.negative
  · rw [last]
    exact readable_largest _
  have positive : 0 < d.magnitude :=
    Nat.mul_pos (Nat.pos_of_ne_zero nonzero) (Nat.two_pow_pos _)
  obtain ⟨digits, x, result, some, few, high⟩ := finite.shortestFrom_le positive
  refine (Moderate.trim ?_ 17).readable
  rw [result]
  refine ⟨some, few, fun nonneg => ?_⟩
  obtain ⟨n, rfl⟩ := Int.eq_ofNat_of_zero_le nonneg
  exact Nat.le_of_mul_le_mul_left
    (Nat.le_trans (high n rfl) (interval_high_le finite last)) (by decide)

end Binary64

end CacheAside
