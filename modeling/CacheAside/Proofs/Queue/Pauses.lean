import CacheAside.Queue.Policy
import Mathlib.Algebra.Group.Nat.Defs

namespace CacheAside

/-- A span in words of a machine. Their arithmetic goes round where it is not checked. -/
structure Words where
  seconds : UInt64
  nanos : UInt32
  deriving DecidableEq, Repr

def Span.words (s : Span) : Words := ⟨.ofNat s.seconds, .ofNat s.nanos⟩

namespace Words

def longest : Words := ⟨0xffff_ffff_ffff_ffff, 999_999_999⟩

def times? (a b : UInt64) : Option UInt64 :=
  if a.toNat * b.toNat < 2 ^ 64 then some (a * b) else none

def plus? (a b : UInt64) : Option UInt64 :=
  if a.toNat + b.toNat < 2 ^ 64 then some (a + b) else none

def scale (w : Words) (factor : UInt32) : Words :=
  let total := w.nanos.toUInt64 * factor.toUInt64
  let seconds? := (times? w.seconds factor.toUInt64).bind (plus? · (total / 1_000_000_000))
  match seconds? with
  | some seconds => ⟨seconds, (total % 1_000_000_000).toUInt32⟩
  | none => longest

def twice? (factor : UInt32) : Option UInt32 :=
  if 2 * factor.toNat < 2 ^ 32 then some (2 * factor) else none

def powerOfTwo? (n : Nat) : Option UInt32 := Nat.repeat (·.bind twice?) n (some 1)

def factorAfter (attempt : UInt32) : UInt32 :=
  let doublings := if attempt = 0 then 0 else attempt - 1
  (powerOfTwo? doublings.toNat).getD 0xffff_ffff

def pauseAfter (first : Words) (attempt : UInt32) : Words := first.scale (factorAfter attempt)

end Words

@[simp] theorem Span.seconds_words (s : Span) : s.words.seconds.toNat = s.seconds :=
  UInt64.toNat_ofNat_of_lt s.seconds_lt

@[simp] theorem Span.nanos_words (s : Span) : s.words.nanos.toNat = s.nanos :=
  UInt32.toNat_ofNat_of_lt (Nat.lt_trans s.nanos_lt (by decide))

namespace Words

theorem ext_toNat {v w : Words} (seconds : v.seconds.toNat = w.seconds.toNat)
    (nanos : v.nanos.toNat = w.nanos.toNat) : v = w := by
  cases v
  cases w
  congr
  · exact UInt64.toNat_inj.mp seconds
  · exact UInt32.toNat_inj.mp nanos

theorem words_longest : Span.longest.words = longest := by
  apply ext_toNat <;> simp [Span.longest, longest]

theorem times?_eq_some {a b p : UInt64} :
    times? a b = some p ↔ p.toNat = a.toNat * b.toNat := by
  have most := p.toNat_lt
  rw [times?, Option.ite_none_right_eq_some, Option.some.injEq, ← UInt64.toNat_inj,
    UInt64.toNat_mul]
  constructor
  · rintro ⟨room, same⟩
    rw [← same, Nat.mod_eq_of_lt room]
  · intro same
    rw [← same]
    exact ⟨most, Nat.mod_eq_of_lt most⟩

theorem plus?_eq_some {a b sum : UInt64} :
    plus? a b = some sum ↔ sum.toNat = a.toNat + b.toNat := by
  have most := sum.toNat_lt
  rw [plus?, Option.ite_none_right_eq_some, Option.some.injEq, ← UInt64.toNat_inj,
    UInt64.toNat_add]
  omega

theorem times?_plus?_eq_some {a b carry seconds : UInt64} :
    (times? a b).bind (plus? · carry) = some seconds ↔
      seconds.toNat = a.toNat * b.toNat + carry.toNat := by
  rw [Option.bind_eq_some_iff]
  constructor
  · rintro ⟨product, multiplied, added⟩
    rw [plus?_eq_some.mp added, times?_eq_some.mp multiplied]
  · intro same
    have room : a.toNat * b.toNat < 2 ^ 64 :=
      Nat.lt_of_le_of_lt (same ▸ Nat.le_add_right ..) seconds.toNat_lt
    have product := UInt64.toNat_ofNat_of_lt' room
    refine ⟨.ofNat (a.toNat * b.toNat), times?_eq_some.mpr product, plus?_eq_some.mpr ?_⟩
    rw [product, same]

theorem room_for_nanos (nanos factor : UInt32) : nanos.toNat * factor.toNat < 2 ^ 64 :=
  calc nanos.toNat * factor.toNat
      < 2 ^ 32 * 2 ^ 32 := Nat.mul_lt_mul_of_lt_of_lt nanos.toNat_lt factor.toNat_lt
    _ = 2 ^ 64 := by decide

theorem toNat_total (nanos factor : UInt32) :
    (nanos.toUInt64 * factor.toUInt64).toNat = nanos.toNat * factor.toNat := by
  rw [UInt64.toNat_mul, UInt32.toNat_toUInt64, UInt32.toNat_toUInt64,
    Nat.mod_eq_of_lt (room_for_nanos nanos factor)]

theorem scale_words (s : Span) (factor : UInt32) :
    s.words.scale factor = (s.scale factor.toNat).words := by
  have total := toNat_total s.words.nanos factor
  rw [Span.nanos_words] at total
  simp only [scale, Span.scale, Span.ofParts]
  generalize s.words.nanos.toUInt64 * factor.toUInt64 = product at total
  have carry : (product / 1_000_000_000).toNat = s.nanos * factor.toNat / 1_000_000_000 := by
    rw [UInt64.toNat_div, total]
    rfl
  have rest : (product % 1_000_000_000).toUInt32.toNat =
      s.nanos * factor.toNat % 1_000_000_000 := by
    rw [UInt64.toNat_toUInt32, UInt64.toNat_mod, total]
    exact Nat.mod_eq_of_lt (Nat.lt_trans (Nat.mod_lt _ (by decide)) (by decide))
  split
  · next seconds found =>
    rw [times?_plus?_eq_some, Span.seconds_words, UInt32.toNat_toUInt64, carry] at found
    have room := seconds.toNat_lt
    rw [found] at room
    rw [dif_pos room]
    refine ext_toNat ?_ ?_
    · rw [Span.seconds_words, found]
    · rw [Span.nanos_words, rest]
  · next missing =>
    rw [dif_neg, words_longest]
    intro room
    have found := times?_plus?_eq_some.mpr ((UInt64.toNat_ofNat_of_lt' room).trans
      (by rw [Span.seconds_words, UInt32.toNat_toUInt64, carry] :
        _ = s.words.seconds.toNat * factor.toUInt64.toNat + (product / 1_000_000_000).toNat))
    cases missing.symm.trans found

theorem twice?_eq_some {factor double : UInt32} :
    twice? factor = some double ↔ double.toNat = 2 * factor.toNat := by
  have most := double.toNat_lt
  rw [twice?, Option.ite_none_right_eq_some, Option.some.injEq, ← UInt32.toNat_inj,
    UInt32.toNat_mul, show (2 : UInt32).toNat = 2 from rfl]
  omega

theorem powerOfTwo?_succ (n : Nat) : powerOfTwo? (n + 1) = (powerOfTwo? n).bind twice? := rfl

theorem powerOfTwo?_eq_some {n : Nat} {power : UInt32} :
    powerOfTwo? n = some power ↔ power.toNat = 2 ^ n := by
  induction n generalizing power with
  | zero =>
    rw [powerOfTwo?, Nat.repeat, Option.some.injEq, ← UInt32.toNat_inj]
    exact eq_comm
  | succ n ih =>
    rw [powerOfTwo?_succ, Option.bind_eq_some_iff, Nat.pow_succ']
    constructor
    · rintro ⟨half, found, doubled⟩
      rw [twice?_eq_some.mp doubled, ih.mp found]
    · intro same
      have room : 2 ^ n < 2 ^ 32 := by
        have most := power.toNat_lt
        omega
      have half := UInt32.toNat_ofNat_of_lt' room
      exact ⟨.ofNat (2 ^ n), ih.mpr half, twice?_eq_some.mpr (by rw [half, same])⟩

theorem toNat_factorAfter (attempt : UInt32) :
    (factorAfter attempt).toNat = QueuePolicy.pauseFactor attempt.toNat := by
  have doublings : (if attempt = 0 then 0 else attempt - 1).toNat = attempt.toNat - 1 := by
    split
    · next none => rw [none]; rfl
    · next some =>
      have positive : 1 ≤ attempt.toNat :=
        Nat.pos_of_ne_zero fun zero => some (UInt32.toNat_inj.mp zero)
      rw [UInt32.toNat_sub_of_le _ _ positive]
      rfl
  rw [factorAfter, doublings, QueuePolicy.pauseFactor]
  generalize attempt.toNat - 1 = n
  cases found : powerOfTwo? n with
  | some power =>
    have exact_power := powerOfTwo?_eq_some.mp found
    have most := power.toNat_lt
    have few : n < 32 := (Nat.pow_lt_pow_iff_right (by decide)).mp (exact_power ▸ most)
    rw [if_pos few]
    exact exact_power
  | none =>
    rw [if_neg]
    · rfl
    · intro few
      have room : 2 ^ n < 2 ^ 32 := Nat.pow_lt_pow_right (by decide) few
      cases found.symm.trans (powerOfTwo?_eq_some.mpr (UInt32.toNat_ofNat_of_lt' room))

end Words

namespace QueuePolicy

theorem pauseFactor_eq (attempt : Nat) :
    pauseFactor attempt = min (2 ^ (max attempt 1 - 1)) (2 ^ 32 - 1) := by
  have exponent : max attempt 1 - 1 = attempt - 1 := by omega
  rw [pauseFactor, exponent]
  split
  · next few =>
    have small : 2 ^ (attempt - 1) ≤ 2 ^ 31 := Nat.pow_le_pow_right (by decide) (by omega)
    rw [Nat.pow_eq]
    omega
  · next many =>
    have large : 2 ^ 32 ≤ 2 ^ (attempt - 1) := Nat.pow_le_pow_right (by decide) (by omega)
    omega

theorem pauseFactor_le {attempt later : Nat} (order : attempt ≤ later) :
    pauseFactor attempt ≤ pauseFactor later := by
  have powers : 2 ^ (max attempt 1 - 1) ≤ 2 ^ (max later 1 - 1) :=
    Nat.pow_le_pow_right (by decide) (by omega)
  rw [pauseFactor_eq, pauseFactor_eq]
  omega

theorem pauseFactor_succ {attempt : Nat} (first : 1 ≤ attempt) (few : attempt ≤ 31) :
    pauseFactor (attempt + 1) = 2 * pauseFactor attempt := by
  have doubled : 2 ^ attempt = 2 * 2 ^ (attempt - 1) := by
    rw [← Nat.pow_succ', Nat.succ_eq_add_one, Nat.sub_add_cancel first]
  simp only [pauseFactor, Nat.pow_eq]
  rw [if_pos (by omega), if_pos (by omega), Nat.add_sub_cancel, doubled]

theorem toNanos_longest :
    Span.longest.toNanos = (2 ^ 64 - 1) * 1_000_000_000 + 999_999_999 := rfl

theorem toNanos_pauseAfter (policy : QueuePolicy) (attempt : Nat) :
    (policy.pauseAfter attempt).toNanos =
      min (policy.firstPause.toNanos * pauseFactor attempt) Span.longest.toNanos :=
  Span.toNanos_scale ..

theorem pauseAfter_mono {policy longer : QueuePolicy} {attempt later : Nat}
    (pauses : policy.firstPause.toNanos ≤ longer.firstPause.toNanos) (order : attempt ≤ later) :
    (policy.pauseAfter attempt).toNanos ≤ (longer.pauseAfter later).toNanos := by
  have products := Nat.mul_le_mul pauses (pauseFactor_le order)
  rw [toNanos_pauseAfter, toNanos_pauseAfter]
  omega

theorem pauseAfter_succ (policy : QueuePolicy) {attempt : Nat} (first : 1 ≤ attempt)
    (few : attempt ≤ 31) : (policy.pauseAfter (attempt + 1)).toNanos =
      min (2 * (policy.pauseAfter attempt).toNanos) Span.longest.toNanos := by
  rw [toNanos_pauseAfter, toNanos_pauseAfter, pauseFactor_succ first few, Nat.mul_left_comm]
  omega

theorem words_pauseAfter (policy : QueuePolicy) (attempt : UInt32) :
    policy.firstPause.words.pauseAfter attempt = (policy.pauseAfter attempt.toNat).words := by
  rw [Words.pauseAfter, Words.scale_words, Words.toNat_factorAfter]
  rfl

/-- The pause after a run is the first one times a power of two that has room in 32 bits, or the
longest span. Its words come out of arithmetic that goes round, so nothing goes round on the way:
the one product that is not checked has room in 64 bits. A later run and a longer first pause do not
shorten it, and from the first run to the thirty-second it doubles each time as long as there is
room. -/
theorem pause_exact (policy : QueuePolicy) (attempt : UInt32) :
    let pause := policy.pauseAfter attempt.toNat
    let next := policy.pauseAfter (attempt.toNat + 1)
    let words := policy.firstPause.words.pauseAfter attempt
    let factor := min (2 ^ (max attempt.toNat 1 - 1)) (2 ^ 32 - 1)
    let most := (2 ^ 64 - 1) * 1_000_000_000 + 999_999_999
    pause.toNanos = min (policy.firstPause.toNanos * factor) most ∧
    words.seconds.toNat = pause.seconds ∧ words.nanos.toNat = pause.nanos ∧
    words.nanos.toNat < 1_000_000_000 ∧
    (Words.factorAfter attempt).toNat = factor ∧
    policy.firstPause.words.nanos.toNat * (Words.factorAfter attempt).toNat < 2 ^ 64 ∧
    (∀ later : UInt32, attempt ≤ later →
      pause.toNanos ≤ (policy.pauseAfter later.toNat).toNanos) ∧
    (∀ longer : Span, policy.firstPause.toNanos ≤ longer.toNanos →
      pause.toNanos ≤ ({ policy with firstPause := longer }.pauseAfter attempt.toNat).toNanos) ∧
    (1 ≤ attempt → attempt ≤ 31 →
      next.toNanos = min (2 * pause.toNanos) most ∧
      (next.toNanos < most → next.toNanos = 2 * pause.toNanos)) := by
  intro pause next words factor most
  have computed : words = pause.words := words_pauseAfter policy attempt
  have factor_eq : pauseFactor attempt.toNat = factor := pauseFactor_eq attempt.toNat
  refine ⟨?_, ?_, ?_, ?_, ?_, Words.room_for_nanos .., ?_, ?_, ?_⟩
  · rw [toNanos_pauseAfter, factor_eq, toNanos_longest]
  · rw [computed, Span.seconds_words]
  · rw [computed, Span.nanos_words]
  · rw [computed, Span.nanos_words]
    exact pause.nanos_lt
  · rw [Words.toNat_factorAfter, factor_eq]
  · intro later order
    exact pauseAfter_mono (Nat.le_refl _) (UInt32.le_iff_toNat_le.mp order)
  · intro longer order
    refine pauseAfter_mono ?_ (Nat.le_refl _)
    exact order
  · intro first few
    have doubled : next.toNanos = min (2 * pause.toNanos) most :=
      pauseAfter_succ policy (UInt32.le_iff_toNat_le.mp first) (UInt32.le_iff_toNat_le.mp few)
    refine ⟨doubled, fun room => ?_⟩
    omega

/-- The doubling ends with the last power that has room. -/
example : [pauseFactor 0, pauseFactor 1, pauseFactor 32, pauseFactor 33, pauseFactor 34] =
    [1, 1, 2 ^ 31, 2 ^ 32 - 1, 2 ^ 32 - 1] := by decide

end QueuePolicy

end CacheAside
