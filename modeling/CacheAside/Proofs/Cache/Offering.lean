import CacheAside.Proofs.Cache.Granted
import CacheAside.Proofs.Cache.Operations
import CacheAside.Proofs.Program.Interleaving

namespace CacheAside

def Request.isOffer : Request → Bool
  | offerRebuild _ => true
  | offerPatch _ => true
  | _ => false

def Request.OffersOnly (job : Rebuild) : Request → Prop
  | offerRebuild job' => job' = job
  | offerPatch _ => False
  | _ => True

namespace Program

variable {α β : Type} {job : Rebuild} {m n : Nat}

def OffersAtMost (job : Rebuild) : Program α → Nat → Prop
  | done _, _ => True
  | ask request next, n => request.OffersOnly job ∧ request.isOffer.toNat ≤ n ∧
    ∀ reply, (next reply).OffersAtMost job (n - request.isOffer.toNat)

theorem OffersAtMost.mono {p : Program α} (offers : p.OffersAtMost job m) (order : m ≤ n) :
    p.OffersAtMost job n := by
  induction p generalizing m n with
  | done => exact True.intro
  | ask request next ih =>
    obtain ⟨only, within, goesOn⟩ := offers
    exact ⟨only, Nat.le_trans within order, fun reply => ih reply (goesOn reply) (by omega)⟩

theorem OffersAtMost.bind {p : Program α} {f : α → Program β} (first : p.OffersAtMost job m)
    (second : ∀ a, (f a).OffersAtMost job n) : (p >>= f).OffersAtMost job (m + n) := by
  change (p.bind f).OffersAtMost job (m + n)
  induction p generalizing m with
  | done result =>
    cases result with
    | ok a => exact (second a).mono (Nat.le_add_left _ _)
    | error failure => exact True.intro
  | ask request next ih =>
    obtain ⟨only, within, goesOn⟩ := first
    refine ⟨only, by omega, fun reply => ?_⟩
    rw [Nat.sub_add_comm within]
    exact ih reply (goesOn reply)

def Unoffering : Terms := asking fun request => request.isOffer = false

theorem offersAtMost_zero {p : Program α} (abides : Abides Unoffering p) :
    p.OffersAtMost job 0 := by
  induction p with
  | done => exact True.intro
  | ask request next ih =>
    obtain ⟨asks, goesOn⟩ := abides
    have unoffered : request.isOffer = false := asks
    refine ⟨?_, by simp [unoffered], fun reply => ?_⟩
    · cases request with
      | offerRebuild | offerPatch => cases asks
      | _ => exact True.intro
    · simpa [unoffered] using ih reply (goesOn reply True.intro)

end Program

theorem Rebuild.eq_sweep {job : Rebuild} (all : job.target? = none) : job = .sweep job.ns := by
  obtain ⟨ns, id⟩ := job
  cases id with
  | none => rfl
  | some id => simp [Rebuild.target?, Rebuild.isSweep] at all

namespace Cache

open Program

variable {c : Config}

def offersOf (job : Rebuild) : Nat := if job = .sweep .collections then 1 else 0

theorem offersOf_le (job : Rebuild) : offersOf job ≤ 1 := by
  unfold offersOf
  split <;> decide

theorem unoffering_granted (c : Config) (key : Key) : Granted Unoffering c key where
  get := rfl
  erase := rfl
  question _ := rfl
  clock := rfl
  again _ _ := rfl

theorem unoffering_rebuild (c : Config) (key : Key) : Abides Unoffering (rebuild c key) :=
  (unoffering_granted c key).rebuild fun _ _ _ _ => rfl

theorem unoffering_parts (c : Config) (job : Patch) :
    ∀ part ∈ parts c job, Abides Unoffering part.2 := by
  intro part there
  obtain ⟨target, _, rfl⟩ := List.mem_map.mp there
  exact (unoffering_granted c target.2).editEntry (fun _ _ _ _ => rfl) fun _ _ _ _ _ _ _ _ => rfl

theorem offersAtMost_sweep (c : Config) (ns : Namespace) :
    (sweep c ns).OffersAtMost (.sweep .autoCollects) (offersOf (.sweep ns)) := by
  have lists : Abides Unoffering (expectedKeys ns) := abides_expectedKeys rfl rfl ns
  have entries : ∀ keys, Abides Unoffering (rebuildEach c keys ⟨0, []⟩) := fun keys =>
    Obliging.rebuildEach (unoffering_rebuild c) keys _
  rw [← Nat.zero_add (offersOf _)]
  refine (offersAtMost_zero lists).bind fun keys => ?_
  rw [← Nat.zero_add (offersOf _)]
  refine (offersAtMost_zero (entries keys)).bind fun summary => ?_
  split
  · rename_i collections
    have one : offersOf (.sweep ns) = 1 := if_pos (congrArg Rebuild.sweep collections)
    rw [one]
    exact ⟨rfl, Nat.le_refl _, fun _ => True.intro⟩
  · exact True.intro

theorem offersAtMost_carryOut (c : Config) (job : Rebuild) :
    (carryOut c job).OffersAtMost (.sweep .autoCollects) (offersOf job) := by
  unfold carryOut
  split
  · rename_i key _
    have rebuilds := (unoffering_rebuild c key).returns fun _ => ()
    exact (offersAtMost_zero rebuilds).mono (Nat.zero_le _)
  · rename_i all
    have same : job = .sweep job.ns := Rebuild.eq_sweep all
    have follows : offersOf job = offersOf (.sweep job.ns) := congrArg offersOf same
    rw [follows, ← Nat.add_zero (offersOf _)]
    exact (offersAtMost_sweep c job.ns).bind fun _ => True.intro

end Cache

end CacheAside
