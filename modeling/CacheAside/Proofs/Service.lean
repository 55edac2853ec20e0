import CacheAside.Proofs.Cache.Offering
import CacheAside.Proofs.Queue.Budget
import CacheAside.Proofs.Queue.Shutdown

namespace CacheAside

open Program Cache

def Ending.of : Except Failure Unit → Ending
  | .ok () => .success
  | .error fault => .failure fault.message

namespace Program

variable {α ι : Type}

inductive Turns : Program α → Exchange → Program α → Prop
  | turn {request : Request} {next : request.Reply → Program α} (reply : request.Reply) :
    Turns (ask request next) ⟨request, reply⟩ (next reply)

inductive OneTurns : List (ι × Program α) → Exchange → List (ι × Program α) → Prop
  | turn {before after : List (ι × Program α)} {name : ι} {p p' : Program α} {x : Exchange}
    (turns : p.Turns x p') :
    OneTurns (before ++ (name, p) :: after) x (before ++ (name, p') :: after)

end Program

namespace Cache

def rebuilding (c : Config) : Trade Rebuild (Program Unit) where
  begin := carryOut c
  turn := Turns
  ends p ending := ∃ result, p = done result ∧ ending = .of result

def patching (c : Config) : Trade Patch (List (String × Program Outcome)) where
  begin := parts c
  turn := OneTurns
  ends ps ending := ∃ results, ps = ended results ∧ ending = .of (Report.mk results).verdict

end Cache

structure Service where
  rebuilds : Crew Rebuild (Program Unit)
  patches : Crew Patch (List (String × Program Outcome))

/-- A step of one of the queues that no run causes, or an exchange of a run. -/
inductive Act where
  | rebuilds (event : Queue.Event Rebuild)
  | patches (event : Queue.Event Patch)
  | rebuildTurn (t : Ticket Rebuild) (x : Exchange)
  | patchTurn (t : Ticket Patch) (x : Exchange)

namespace Exchange

def rebuildOffer? : Exchange → Option (Queue.Event Rebuild)
  | ⟨.offerRebuild job, taken⟩ => some (.offered job taken)
  | _ => none

def patchOffer? : Exchange → Option (Queue.Event Patch)
  | ⟨.offerPatch job, taken⟩ => some (.offered job taken)
  | _ => none

theorem rebuildOffer?_eq_some {x : Exchange} {job : Rebuild} {taken : Bool}
    (offers : x.rebuildOffer? = some (.offered job taken)) : x.request = .offerRebuild job := by
  obtain ⟨request, reply⟩ := x
  cases request with
  | offerRebuild =>
    cases offers
    rfl
  | _ => cases offers

theorem patchOffer?_eq_some {x : Exchange} {job : Patch} {taken : Bool}
    (offers : x.patchOffer? = some (.offered job taken)) : x.request = .offerPatch job := by
  obtain ⟨request, reply⟩ := x
  cases request with
  | offerPatch =>
    cases offers
    rfl
  | _ => cases offers

theorem rebuildOffer?_of_calm {x : Exchange} (calm : x.request.isOffer = false) :
    x.rebuildOffer? = none := by
  obtain ⟨request, reply⟩ := x
  cases request <;> first | rfl | cases calm

theorem patchOffer?_of_calm {x : Exchange} (calm : x.request.isOffer = false) :
    x.patchOffer? = none := by
  obtain ⟨request, reply⟩ := x
  cases request <;> first | rfl | cases calm

end Exchange

namespace Act

def onRebuilds? : Act → Option (Queue.Event Rebuild)
  | rebuilds event => some event
  | patches _ => none
  | rebuildTurn _ x => x.rebuildOffer?
  | patchTurn _ x => x.rebuildOffer?

def onPatches? : Act → Option (Queue.Event Patch)
  | rebuilds _ => none
  | patches event => some event
  | rebuildTurn _ x => x.patchOffer?
  | patchTurn _ x => x.patchOffer?

def isOutside : Act → Bool
  | rebuilds (.offered ..) => true
  | patches (.offered ..) => true
  | _ => false

def begins : Act → Bool
  | rebuilds event => event.isTaken
  | patches event => event.isTaken
  | _ => false

def isOfferBy (number attempt : Nat) : Act → Bool
  | rebuildTurn t x => t.number = number && t.attempt = attempt && x.request.isOffer
  | _ => false

end Act

namespace Service

def start (c : Config) : Service := ⟨.start c.rebuilds, .start c.patches⟩

inductive Replies (s : Service) : Exchange → Service → Prop
  | other {x : Exchange} (unoffered : x.request.isOffer = false) : Replies s x s
  | rebuild (job : Rebuild) : Replies s ⟨.offerRebuild job, (s.rebuilds.queue.enqueue job).1⟩
    { s with rebuilds := ⟨(s.rebuilds.queue.enqueue job).2, s.rebuilds.duties⟩ }
  | patch (job : Patch) : Replies s ⟨.offerPatch job, (s.patches.queue.enqueue job).1⟩
    { s with patches := ⟨(s.patches.queue.enqueue job).2, s.patches.duties⟩ }

inductive Step (c : Config) (s : Service) : Act → Service → Prop
  | rebuilds {event : Queue.Event Rebuild} {crew : Crew Rebuild (Program Unit)}
    (works : s.rebuilds.Works (rebuilding c) event crew) :
    Step c s (.rebuilds event) { s with rebuilds := crew }
  | patches {event : Queue.Event Patch} {crew : Crew Patch (List (String × Program Outcome))}
    (works : s.patches.Works (patching c) event crew) :
    Step c s (.patches event) { s with patches := crew }
  | rebuildTurn {t : Ticket Rebuild} {x : Exchange} {crew : Crew Rebuild (Program Unit)}
    {s' : Service} (turns : s.rebuilds.Turns (rebuilding c) t x crew)
    (replies : Replies { s with rebuilds := crew } x s') : Step c s (.rebuildTurn t x) s'
  | patchTurn {t : Ticket Patch} {x : Exchange}
    {crew : Crew Patch (List (String × Program Outcome))} {s' : Service}
    (turns : s.patches.Turns (patching c) t x crew)
    (replies : Replies { s with patches := crew } x s') : Step c s (.patchTurn t x) s'

inductive Goes (c : Config) (s : Service) : List Act → Service → Prop
  | nil : Goes c s [] s
  | snoc {acts : List Act} {act : Act} {s' s'' : Service} (before : Goes c s acts s')
    (step : Step c s' act s'') : Goes c s (acts ++ [act]) s''

def spentBy (acts : List Act) (number attempt : Nat) : Nat :=
  acts.countP (Act.isOfferBy number attempt)

end Service

def Act.Lawful : Act → Prop
  | rebuildTurn t x => x.request.isOffer = true →
    t.job = .sweep .collections ∧ x.request = .offerRebuild (.sweep .autoCollects)
  | patchTurn _ x => x.request.isOffer = false
  | _ => True

def Spares (n : Nat) (p : Program Unit) : Prop := p.OffersAtMost (.sweep .autoCollects) n

def Unoffered (_ : Nat) (ps : List (String × Program Outcome)) : Prop :=
  ∀ part ∈ ps, part.2.OffersAtMost (.sweep .autoCollects) 0

theorem spares_begin (c : Config) (job : Rebuild) :
    Spares (offersOf job) ((rebuilding c).begin job) := offersAtMost_carryOut c job

theorem unoffered_begin (c : Config) (job : Patch) : Unoffered 0 ((patching c).begin job) :=
  fun part there => offersAtMost_zero (unoffering_parts c job part there)

theorem Spares.turns {n : Nat} {p p' : Program Unit} {x : Exchange} (spares : Spares n p)
    (turns : p.Turns x p') : x.request.OffersOnly (.sweep .autoCollects) ∧
      ∃ m, Spares m p' ∧ m + x.request.isOffer.toNat ≤ n := by
  cases turns with
  | turn reply =>
    obtain ⟨only, within, goesOn⟩ := spares
    exact ⟨only, _, goesOn reply, Nat.le_of_eq (Nat.sub_add_cancel within)⟩

theorem Unoffered.turns {n : Nat} {ps ps' : List (String × Program Outcome)} {x : Exchange}
    (unoffered : Unoffered n ps) (turns : OneTurns ps x ps') :
    x.request.isOffer = false ∧ Unoffered n ps' := by
  cases turns with
  | turn turns =>
    obtain ⟨before, own⟩ := List.forall_mem_append.mp unoffered
    obtain ⟨own, after⟩ := List.forall_mem_cons.mp own
    cases turns with
    | @turn request _ reply =>
      obtain ⟨only, within, goesOn⟩ := own
      have calm : request.isOffer = false := by simpa using within
      refine ⟨calm, List.forall_mem_append.mpr ⟨before, List.forall_mem_cons.mpr ⟨?_, after⟩⟩⟩
      simpa [calm] using goesOn reply

theorem offersOf_pos {job : Rebuild} (positive : 0 < offersOf job) :
    job = .sweep .collections := by
  unfold offersOf at positive
  split at positive
  · assumption
  · cases positive

namespace Service

variable {c : Config} {s s' : Service} {acts : List Act} {act : Act}

structure Sound (c : Config) (acts : List Act) (s : Service) : Prop where
  rebuilds : Queue.Run (Queue.create c.rebuilds).start (acts.filterMap Act.onRebuilds?)
    s.rebuilds.queue
  patches : Queue.Run (Queue.create c.patches).start (acts.filterMap Act.onPatches?)
    s.patches.queue
  rebuilders : s.rebuilds.Solvent c.rebuilds offersOf Spares (spentBy acts)
  patchers : s.patches.Solvent c.patches (fun _ => 0) Unoffered fun _ _ => 0
  once : ∀ number attempt, spentBy acts number attempt ≤ 1
  lawful : ∀ act ∈ acts, act.Lawful

theorem sound_start (c : Config) : Sound c [] (start c) where
  rebuilds := .nil
  patches := .nil
  rebuilders := Crew.solvent_start ..
  patchers := Crew.solvent_start ..
  once _ _ := Nat.zero_le _
  lawful := List.forall_mem_nil _

theorem spentBy_snoc (acts : List Act) (act : Act) (number attempt : Nat) :
    spentBy (acts ++ [act]) number attempt =
      spentBy acts number attempt + (act.isOfferBy number attempt).toNat :=
  Queue.countP_snoc _ _ _

theorem spentBy_turn (acts : List Act) (t : Ticket Rebuild) (x : Exchange) :
    spentBy (acts ++ [.rebuildTurn t x]) =
      Crew.spend (spentBy acts) t x.request.isOffer.toNat := by
  funext number attempt
  rw [spentBy_snoc]
  by_cases mine : number = t.number ∧ attempt = t.attempt
  · obtain ⟨rfl, rfl⟩ := mine
    simp [Act.isOfferBy, Crew.spend_self]
  · have other : (Act.rebuildTurn t x).isOfferBy number attempt = false := by
      simp only [Act.isOfferBy, Bool.and_eq_false_iff, decide_eq_false_iff_not]
      exact .inl (Decidable.not_and_iff_or_not.mp fun same => mine ⟨same.1.symm, same.2.symm⟩)
    rw [other, Crew.spend_of_ne fun same later => mine ⟨same, later⟩]
    rfl

theorem spentBy_other (acts : List Act) (act : Act)
    (other : ∀ number attempt, act.isOfferBy number attempt = false) :
    spentBy (acts ++ [act]) = spentBy acts := by
  funext number attempt
  rw [spentBy_snoc, other]
  rfl

theorem Replies.lawful {x : Exchange} (replies : Replies s x s')
    (only : x.request.OffersOnly (.sweep .autoCollects)) :
    x.request.isOffer = false ∧ s' = s ∨ x.request.isOffer = true ∧ ∃ event crew,
      x.rebuildOffer? = some event ∧ x.patchOffer? = none ∧
        Crew.grant c.rebuilds offersOf event ≤ c.rebuilds.mostRuns ∧
        s.rebuilds.Works (rebuilding c) event crew ∧ event.isTaken = false ∧
        s' = { s with rebuilds := crew } := by
  cases replies with
  | other calm => exact .inl ⟨calm, rfl⟩
  | rebuild job =>
    obtain rfl : job = .sweep .autoCollects := only
    refine .inr ⟨rfl, _, _, rfl, rfl, ?_, .beside (.offered _ _) rfl, rfl, rfl⟩
    generalize (s.rebuilds.queue.enqueue _).1 = taken
    cases taken with
    | false => exact Nat.zero_le _
    | true =>
      simp only [Crew.grant, Crew.fare]
      rw [show offersOf (.sweep .autoCollects) = 0 from rfl]
      omega
  | patch job => exact only.elim

theorem Sound.rebuildTurn (sound : Sound c acts s) {t : Ticket Rebuild} {x : Exchange}
    {crew : Crew Rebuild (Program Unit)} (turns : s.rebuilds.Turns (rebuilding c) t x crew) :
    x.request.OffersOnly (.sweep .autoCollects) ∧ (Act.rebuildTurn t x).Lawful ∧
      spentBy acts t.number t.attempt + x.request.isOffer.toNat ≤ 1 ∧
      crew.Solvent c.rebuilds offersOf Spares (spentBy (acts ++ [.rebuildTurn t x])) := by
  have accounts := Queue.accounts_of_run sound.rebuilds
  have solvent : crew.Solvent c.rebuilds offersOf Spares
      (spentBy (acts ++ [.rebuildTurn t x])) := by
    rw [spentBy_turn]
    exact sound.rebuilders.turns _ accounts (fun _ _ _ spares turn => (spares.turns turn).2) turns
  cases turns with
  | @turn before after work work' place turn =>
  have there : ⟨t, work⟩ ∈ s.rebuilds.duties := by simp [place]
  obtain ⟨n, spares, within⟩ := (sound.rebuilders.running _ there).allowed
  obtain ⟨only, m, _, cheaper⟩ := spares.turns turn
  have few := offersOf_le t.job
  simp only at within
  refine ⟨only, fun offers => ⟨offersOf_pos ?_, ?_⟩, by omega, solvent⟩
  · rw [offers, Bool.toNat_true] at cheaper
    omega
  · obtain ⟨request, reply⟩ := x
    cases request with
    | offerRebuild job => exact congrArg Request.offerRebuild only
    | offerPatch => exact only.elim
    | _ => cases offers

theorem Sound.patchTurn (sound : Sound c acts s) {t : Ticket Patch} {x : Exchange}
    {crew : Crew Patch (List (String × Program Outcome))}
    (turns : s.patches.Turns (patching c) t x crew) :
    x.request.isOffer = false ∧ crew.Solvent c.patches (fun _ => 0) Unoffered fun _ _ => 0 := by
  have accounts := Queue.accounts_of_run sound.patches
  have solvent := sound.patchers.turns 0 accounts
    (fun n _ _ unoffered turn => ⟨n, (unoffered.turns turn).2, Nat.le_refl _⟩) turns
  rw [Crew.spend_nothing] at solvent
  cases turns with
  | @turn before after work work' place turn =>
  have there : ⟨t, work⟩ ∈ s.patches.duties := by simp [place]
  obtain ⟨n, unoffered, _⟩ := (sound.patchers.running _ there).allowed
  exact ⟨(unoffered.turns turn).1, solvent⟩

theorem Sound.step (sound : Sound c acts s) (step : Step c s act s') :
    Sound c (acts ++ [act]) s' := by
  have atRebuilds := Queue.accounts_of_run sound.rebuilds
  have atPatches := Queue.accounts_of_run sound.patches
  have lawful : act.Lawful → ∀ other ∈ acts ++ [act], other.Lawful := fun own =>
    List.forall_mem_append.mpr ⟨sound.lawful, List.forall_mem_singleton.mpr own⟩
  have rebuildsAs : ∀ told : Option (Queue.Event Rebuild), act.onRebuilds? = told →
      (acts ++ [act]).filterMap Act.onRebuilds? =
        acts.filterMap Act.onRebuilds? ++ told.toList := by
    rintro _ rfl
    exact Queue.filterMap_snoc _ _ _
  have patchesAs : ∀ told : Option (Queue.Event Patch), act.onPatches? = told →
      (acts ++ [act]).filterMap Act.onPatches? =
        acts.filterMap Act.onPatches? ++ told.toList := by
    rintro _ rfl
    exact Queue.filterMap_snoc _ _ _
  cases step with
  | @rebuilds event _ works =>
    have same := spentBy_other acts (.rebuilds event) fun _ _ => rfl
    refine ⟨?_, ?_, ?_, sound.patchers, same ▸ sound.once, lawful True.intro⟩
    · rw [rebuildsAs _ rfl]
      exact sound.rebuilds.snoc works.step
    · rw [patchesAs none rfl]
      simpa using sound.patches
    · rw [same]
      exact sound.rebuilders.works atRebuilds (spares_begin c) works
  | @patches event _ works =>
    have same := spentBy_other acts (.patches event) fun _ _ => rfl
    refine ⟨?_, ?_, same ▸ sound.rebuilders, ?_, same ▸ sound.once, lawful True.intro⟩
    · rw [rebuildsAs none rfl]
      simpa using sound.rebuilds
    · rw [patchesAs _ rfl]
      exact sound.patches.snoc works.step
    · exact sound.patchers.works atPatches (unoffered_begin c) works
  | @rebuildTurn t x crew _ turns replies =>
    obtain ⟨only, lawfully, few, solvent⟩ := sound.rebuildTurn turns
    have queue := turns.queue
    -- A run that offers a job was still granted one, so it has offered none before.
    have once : ∀ number attempt, spentBy (acts ++ [.rebuildTurn t x]) number attempt ≤ 1 := by
      intro number attempt
      rw [spentBy_turn]
      by_cases mine : number = t.number ∧ attempt = t.attempt
      · obtain ⟨rfl, rfl⟩ := mine
        rw [Crew.spend_self]
        exact few
      · rw [Crew.spend_of_ne fun same later => mine ⟨same, later⟩]
        exact sound.once number attempt
    rcases replies.lawful (c := c) only with ⟨calm, rfl⟩ |
      ⟨_, event, crew', onRebuilds, onPatches, _, works, _, rfl⟩
    · refine ⟨?_, ?_, solvent, sound.patchers, once, lawful lawfully⟩
      · rw [rebuildsAs _ (Exchange.rebuildOffer?_of_calm calm)]
        simpa [queue] using sound.rebuilds
      · rw [patchesAs _ (Exchange.patchOffer?_of_calm calm)]
        simpa using sound.patches
    · rw [← queue] at atRebuilds
      refine ⟨?_, ?_, solvent.works atRebuilds (spares_begin c) works, sound.patchers,
        once, lawful lawfully⟩
      · rw [rebuildsAs _ onRebuilds]
        exact (queue ▸ sound.rebuilds).snoc works.step
      · rw [patchesAs _ onPatches]
        simpa using sound.patches
  | @patchTurn t x crew _ turns replies =>
    obtain ⟨calm, solvent⟩ := sound.patchTurn turns
    have same := spentBy_other acts (.patchTurn t x) fun _ _ => rfl
    have queue := turns.queue
    cases replies with
    | other =>
      refine ⟨?_, ?_, same ▸ sound.rebuilders, solvent, same ▸ sound.once, lawful calm⟩
      · rw [rebuildsAs _ (Exchange.rebuildOffer?_of_calm calm)]
        simpa using sound.rebuilds
      · rw [patchesAs _ (Exchange.patchOffer?_of_calm calm)]
        simpa [queue] using sound.patches
    | rebuild | patch => cases calm

theorem Sound.goes (sound : Sound c acts s) {more : List Act} (goes : Goes c s more s') :
    Sound c (acts ++ more) s' := by
  induction goes with
  | nil => simpa using sound
  | snoc _ step ih =>
    rw [← List.append_assoc]
    exact ih.step step

/-- How many runs may still begin, if nothing is offered from outside. -/
def budget (c : Config) (acts : List Act) (s : Service) : Nat :=
  s.rebuilds.budget c.rebuilds offersOf (spentBy acts) +
    s.patches.budget c.patches (fun _ => 0) fun _ _ => 0

theorem grant_of_inside {J : Type} {policy : QueuePolicy} {limit : J → Nat}
    {event : Queue.Event J} (inside : ∀ job taken, event ≠ .offered job taken) :
    Crew.grant policy limit event = 0 := by
  cases event with
  | offered job taken => exact absurd rfl (inside job taken)
  | _ => rfl

theorem Sound.spends (sound : Sound c acts s) (step : Step c s act s')
    (inside : act.isOutside = false) :
    budget c (acts ++ [act]) s' + act.begins.toNat ≤ budget c acts s := by
  have atRebuilds := Queue.accounts_of_run sound.rebuilds
  have atPatches := Queue.accounts_of_run sound.patches
  cases step with
  | @rebuilds event _ works =>
    have same := spentBy_other acts (.rebuilds event) fun _ _ => rfl
    have paid := sound.rebuilders.budget_works atRebuilds works
    rw [grant_of_inside] at paid
    · simp only [budget, same, Act.begins]
      omega
    · rintro job taken rfl
      cases inside
  | @patches event _ works =>
    have same := spentBy_other acts (.patches event) fun _ _ => rfl
    have paid := sound.patchers.budget_works atPatches works
    rw [grant_of_inside] at paid
    · simp only [budget, same, Act.begins]
      omega
    · rintro job taken rfl
      cases inside
  | @rebuildTurn t x crew _ turns replies =>
    obtain ⟨only, -, -, solvent⟩ := sound.rebuildTurn turns
    have paid := sound.rebuilders.budget_turns x.request.isOffer.toNat atRebuilds
      (fun _ _ _ spares turn => (spares.turns turn).2) turns
    rw [← spentBy_turn] at paid
    rcases replies.lawful (c := c) only with ⟨calm, rfl⟩ |
      ⟨offers, event, crew', -, -, cheap, works, apart, rfl⟩
    · simp only [budget, Act.begins, Bool.toNat_false]
      omega
    · rw [← turns.queue] at atRebuilds
      have followed := solvent.budget_works atRebuilds works
      simp only [offers, Bool.toNat_true, Nat.mul_one] at paid
      simp only [budget, Act.begins, Bool.toNat_false]
      omega
  | @patchTurn t x crew _ turns replies =>
    obtain ⟨calm, -⟩ := sound.patchTurn turns
    have same := spentBy_other acts (.patchTurn t x) fun _ _ => rfl
    have paid := sound.patchers.budget_turns 0 atPatches
      (fun n _ _ unoffered turn => ⟨n, (unoffered.turns turn).2, Nat.le_refl _⟩) turns
    rw [Crew.spend_nothing] at paid
    cases replies with
    | other =>
      simp only [budget, same, Act.begins, Bool.toNat_false]
      omega
    | rebuild | patch => cases calm

theorem Sound.spends_all (sound : Sound c acts s) {more : List Act} (goes : Goes c s more s')
    (inside : ∀ act ∈ more, act.isOutside = false) :
    budget c (acts ++ more) s' + more.countP Act.begins ≤ budget c acts s := by
  induction goes with
  | nil => simp
  | snoc before step ih =>
    obtain ⟨earlier, last⟩ := List.forall_mem_append.mp inside
    have paid := (sound.goes before).spends step (last _ List.mem_cons_self)
    have spent := ih earlier
    rw [← List.append_assoc, Queue.countP_snoc]
    omega

/-- What becomes of a caller that waits until both queues are empty. It reads the one count and then
the other, and waits for each in turn if one of them is not zero. -/
inductive Waiter where
  | readsRebuilds
  | readsPatches
  | awaitsRebuilds
  | awaitsPatches
  | returned
  deriving DecidableEq

inductive Waiter.Step (s : Service) : Waiter → Waiter → Prop
  | noRebuilds (idle : s.rebuilds.queue.outstanding = 0) : Step s readsRebuilds readsPatches
  | rebuilds (busy : 0 < s.rebuilds.queue.outstanding) : Step s readsRebuilds awaitsRebuilds
  | noPatches (idle : s.patches.queue.outstanding = 0) : Step s readsPatches returned
  | patches (busy : 0 < s.patches.queue.outstanding) : Step s readsPatches awaitsRebuilds
  | rebuildsDone (idle : s.rebuilds.queue.outstanding = 0) : Step s awaitsRebuilds awaitsPatches
  | patchesDone (idle : s.patches.queue.outstanding = 0) : Step s awaitsPatches readsRebuilds

/-- The service goes on while the caller waits, and may be offered jobs from outside, except between
the two counts that are read one after the other. -/
inductive Waits (c : Config) (s : Service) : Service → Waiter → Prop
  | called : Waits c s s .readsRebuilds
  | meanwhile {s' s'' : Service} {waiter : Waiter} {act : Act} (before : Waits c s s' waiter)
    (step : Step c s' act s'') (waiting : waiter ≠ .returned)
    (alone : waiter = .readsPatches → act.isOutside = false) : Waits c s s'' waiter
  | moves {s' : Service} {waiter waiter' : Waiter} (before : Waits c s s' waiter)
    (step : waiter.Step s' waiter') : Waits c s s' waiter'

theorem Waits.meanwhile_all {s'' : Service} {waiter : Waiter} {more : List Act}
    (before : Waits c s s' waiter) (goes : Goes c s' more s'') (waiting : waiter ≠ .returned)
    (apart : waiter ≠ .readsPatches) : Waits c s s'' waiter := by
  induction goes with
  | nil => exact before
  | snoc _ step ih => exact ih.meanwhile step waiting fun same => absurd same apart

theorem Sound.stays_idle (sound : Sound c acts s) (step : Step c s act s')
    (inside : act.isOutside = false) (idle : s.rebuilds.queue.outstanding = 0) :
    s'.rebuilds.queue.outstanding = 0 := by
  have accounts := Queue.accounts_of_run sound.rebuilds
  cases step with
  | @rebuilds event _ works =>
    have change := (accounts.balances works.step).outstanding
    have refused : event.accepts = false := by
      cases event with
      | offered => cases inside
      | _ => rfl
    rw [idle, refused] at change
    exact Nat.eq_zero_of_add_eq_zero_right change
  | patches => exact idle
  | @rebuildTurn t x crew _ turns =>
    have running := sound.rebuilders.manned
    have nowhere := accounts.outstanding.symm.trans idle
    rw [Queue.length_numbers] at nowhere
    cases turns with
    | turn place =>
      have some := congrArg List.length running
      rw [place] at some
      simp at some
      omega
  | @patchTurn t x _ _ turns replies =>
    obtain ⟨calm, -⟩ := sound.patchTurn turns
    cases replies with
    | other => exact idle
    | rebuild | patch => cases calm

theorem Sound.waits (sound : Sound c acts s) {waiter : Waiter} (waits : Waits c s s' waiter) :
    (∃ more, Goes c s more s') ∧
      (waiter = .readsPatches → s'.rebuilds.queue.outstanding = 0) ∧
      (waiter = .returned → s'.rebuilds.queue.outstanding = 0 ∧
        s'.patches.queue.outstanding = 0) := by
  induction waits with
  | called => exact ⟨⟨[], .nil⟩, nofun, nofun⟩
  | meanwhile _ step waiting alone ih =>
    obtain ⟨⟨more, goes⟩, reads, _⟩ := ih
    refine ⟨⟨_, goes.snoc step⟩, fun reading => ?_, fun gone => absurd gone waiting⟩
    exact (sound.goes goes).stays_idle step (alone reading) (reads reading)
  | moves _ step ih =>
    obtain ⟨goes, reads, _⟩ := ih
    refine ⟨goes, ?_, ?_⟩
    · rintro rfl
      cases step with
      | noRebuilds idle => exact idle
    · rintro rfl
      cases step with
      | noPatches idle => exact ⟨reads rfl, idle⟩

def admissions (acts : List Act) : List (Rebuild × Act) :=
  acts.filterMap fun act =>
    (act.onRebuilds?.bind Queue.Event.accepted?).map fun job => (job, act)

theorem map_admissions (acts : List Act) : (admissions acts).map (·.1) =
    (acts.filterMap Act.onRebuilds?).filterMap Queue.Event.accepted? := by
  simp only [admissions, List.map_filterMap, List.filterMap_filterMap, Option.map_map]
  congr 1
  funext act
  cases act.onRebuilds?.bind Queue.Event.accepted? <;> rfl

/-- The rebuilds that no one from outside has offered are sweeps of the auto-collect listings, each
offered by the run of a sweep of the collections, which offers it once at most; the runs of other
jobs offer nothing. So without offers from outside no more runs begin than the jobs outstanding and
the policies allow, and when a caller who waits for both queues returns, neither has anything
left. -/
theorem background_limited (goes : Goes c (start c) acts s) :
    (∀ t x, .rebuildTurn t x ∈ acts → x.request.isOffer = true →
      t.job = .sweep .collections ∧ x.request = .offerRebuild (.sweep .autoCollects)) ∧
    (∀ t x, .patchTurn t x ∈ acts → x.request.isOffer = false) ∧
    (∀ number attempt, acts.countP (Act.isOfferBy number attempt) ≤ 1) ∧
    (∀ t ∈ s.rebuilds.queue.tickets, ∃ act,
      (admissions acts)[t.number]? = some (t.job, act) ∧
      (act.isOutside = true ∨ ∃ giver x, act = .rebuildTurn giver x ∧
        giver.job = .sweep .collections ∧ t.job = .sweep .autoCollects)) ∧
    (∀ t ∈ s.patches.queue.tickets, .patches (.offered t.job true) ∈ acts) ∧
    (∀ more s', Goes c s more s' → (∀ act ∈ more, act.isOutside = false) →
      more.countP Act.begins ≤
        s.rebuilds.queue.outstanding * (c.rebuilds.mostRuns * (c.rebuilds.mostRuns + 1)) +
          s.patches.queue.outstanding * c.patches.mostRuns) ∧
    ∀ s', Waits c s s' .returned →
      s'.rebuilds.queue.outstanding = 0 ∧ s'.patches.queue.outstanding = 0 := by
  have sound : Sound c acts s := (sound_start c).goes goes
  have turned : ∀ t x, .rebuildTurn t x ∈ acts → x.request.isOffer = true →
      t.job = .sweep .collections ∧ x.request = .offerRebuild (.sweep .autoCollects) :=
    fun t x there => sound.lawful _ there
  have silent : ∀ t x, .patchTurn t x ∈ acts → x.request.isOffer = false :=
    fun t x there => sound.lawful _ there
  refine ⟨turned, silent, sound.once, fun t there => ?_, fun t there => ?_, ?_, ?_⟩
  · have known := (Queue.known_of_run sound.rebuilds).tickets t there
    rw [← map_admissions, List.getElem?_map] at known
    obtain ⟨⟨_, _⟩, admitted, rfl⟩ := Option.map_eq_some_iff.mp known
    refine ⟨_, admitted, ?_⟩
    obtain ⟨act, member, same⟩ := List.mem_filterMap.mp (List.mem_of_getElem? admitted)
    obtain ⟨_, accepted, pair⟩ := Option.map_eq_some_iff.mp same
    obtain ⟨rfl, rfl⟩ := Prod.mk.inj pair
    obtain ⟨event, told, accepted⟩ := Option.bind_eq_some_iff.mp accepted
    obtain rfl := Queue.Event.accepted?_eq_some.mp accepted
    cases act with
    | rebuilds =>
      obtain rfl := Option.some.inj told
      exact .inl rfl
    | patches => cases told
    | rebuildTurn giver x =>
      have request := Exchange.rebuildOffer?_eq_some told
      have offers : x.request.isOffer = true := by rw [request]; rfl
      obtain ⟨collections, follows⟩ := turned giver x member offers
      rw [request] at follows
      exact .inr ⟨giver, x, rfl, collections, Request.offerRebuild.inj follows⟩
    | patchTurn giver x =>
      have calm := silent giver x member
      rw [Exchange.rebuildOffer?_eq_some told] at calm
      cases calm
  · have known := (Queue.known_of_run sound.patches).tickets t there
    obtain ⟨event, told, accepted⟩ := List.mem_filterMap.mp (List.mem_of_getElem? known)
    obtain rfl := Queue.Event.accepted?_eq_some.mp accepted
    obtain ⟨act, member, told⟩ := List.mem_filterMap.mp told
    cases act with
    | patches =>
      obtain rfl := Option.some.inj told
      exact member
    | rebuilds => cases told
    | rebuildTurn giver x =>
      have request := Exchange.patchOffer?_eq_some told
      have offers : x.request.isOffer = true := by rw [request]; rfl
      have follows := (turned giver x member offers).2
      rw [request] at follows
      cases follows
    | patchTurn giver x =>
      have calm := silent giver x member
      rw [Exchange.patchOffer?_eq_some told] at calm
      cases calm
  · intro more s' goesOn inside
    have paid := sound.spends_all goesOn inside
    have rebuilds := sound.rebuilders.budget_le (Queue.accounts_of_run sound.rebuilds) 1
      offersOf_le
    have patches := sound.patchers.budget_le (Queue.accounts_of_run sound.patches) 0
      fun _ => Nat.le_refl _
    rw [Nat.mul_one, Nat.add_comm 1] at rebuilds
    rw [Nat.mul_zero, Nat.add_zero, Nat.mul_one] at patches
    simp only [budget] at paid
    omega
  · intro s' waits
    exact (sound.waits waits).2.2 rfl

/-- A sweep of the collections offers the other sweep, and a caller waits for both. -/
theorem background_limited_sweep :
    let c := Config.standard
    let first : Ticket Rebuild := ⟨0, .sweep .collections, 1⟩
    let second : Ticket Rebuild := ⟨1, .sweep .autoCollects, 1⟩
    let users : Exchange := ⟨.source .users, .ok []⟩
    let offer : Exchange := ⟨.offerRebuild second.job, true⟩
    let acts : List Act := [.rebuilds (.offered first.job true), .rebuilds (.taken first),
      .rebuildTurn first users, .rebuildTurn first offer]
    let more : List Act := [.rebuilds (.ended 0 first .success), .rebuilds (.taken second),
      .rebuildTurn second users, .rebuilds (.ended 0 second .success)]
    ∃ s s', Goes c (start c) acts s ∧ Goes c s more s' ∧
      more.countP Act.begins ≤ s.rebuilds.queue.outstanding * (3 * (3 + 1)) +
        s.patches.queue.outstanding * 1 ∧
      Waits c s s' .returned ∧ s'.rebuilds.queue.outstanding = 0 := by
  intro c first second users offer acts more
  let idle : Queue Rebuild := (Queue.create c.rebuilds).start
  -- The second sweep waits while the first is at its end, and is then the only job that is left.
  let last (t : Ticket Rebuild) : Duty Rebuild (Program Unit) := ⟨t, .done (.ok ())⟩
  let first_ends : Service := ⟨⟨{ idle with
    channel := [second], running := [first], enqueued := 2, outstanding := 2 },
    [last first]⟩, start c |>.patches⟩
  let second_waits : Service := ⟨⟨{ idle with
    channel := [second], enqueued := 2, outstanding := 1, completed := 1 }, []⟩,
    start c |>.patches⟩
  let second_ends : Service := ⟨⟨{ idle with
    running := [second], enqueued := 2, outstanding := 1, completed := 1 },
    [last second]⟩, start c |>.patches⟩
  have accepted : Goes c (start c) [.rebuilds (.offered first.job true)] _ :=
    Goes.nil.snoc (.rebuilds (.beside (.offered _ first.job) rfl))
  have begun := accepted.snoc (.rebuilds (.begins (t := first) (.taken rfl)))
  have listed := begun.snoc (.rebuildTurn (.alone rfl (@Turns.turn _ users.request _ users.reply))
    (.other rfl))
  have offered : Goes c (start c) acts first_ends := listed.snoc
    (.rebuildTurn (.alone rfl (@Turns.turn _ offer.request _ true)) (.rebuild second.job))
  have success : (rebuilding c).ends (.done (.ok ())) .success := ⟨.ok (), rfl, rfl⟩
  have ends (crew : Crew Rebuild (Program Unit)) (t : Ticket Rebuild) (there : last t ∈ crew.duties)
      (running : t ∈ crew.queue.running) : crew.Works (rebuilding c) (.ended 0 t .success)
        ⟨(crew.queue.finish 0 t .success).2, crew.others t⟩ :=
    .ends there (.inl success) (.ended running 0 .success)
  have ended : Step c first_ends (.rebuilds (.ended 0 first .success)) second_waits :=
    .rebuilds (ends _ first List.mem_cons_self List.mem_cons_self)
  have again := (Goes.nil.snoc ended).snoc (.rebuilds (.begins (t := second) (.taken rfl)))
  have users_again : Goes c first_ends _ second_ends := again.snoc
    (.rebuildTurn (.alone rfl (@Turns.turn _ users.request _ users.reply)) (.other rfl))
  have goes_on : Goes c first_ends more _ :=
    users_again.snoc (.rebuilds (ends _ second List.mem_cons_self List.mem_cons_self))
  have waited := ((Waits.called.moves (.rebuilds (by exact Nat.succ_pos 1))).meanwhile_all goes_on
    nofun nofun).moves (.rebuildsDone rfl)
  have returned : Waits c _ _ .returned :=
    ((waited.moves (.patchesDone rfl)).moves (.noRebuilds rfl)).moves (.noPatches rfl)
  obtain ⟨-, -, -, -, -, bounded, drained⟩ := background_limited offered
  exact ⟨_, _, offered, goes_on, bounded _ _ goes_on (by decide), returned, (drained _ returned).1⟩

end Service

end CacheAside
