import CacheAside.Proofs.Cache.Succession
import CacheAside.Proofs.Service
import Mathlib.Data.List.Forall2

namespace CacheAside

open Program

theorem forall₂_imp_mem {α β : Type} {R S : α → β → Prop} {as : List α} {bs : List β}
    (all : List.Forall₂ R as bs) (implied : ∀ a b, b ∈ bs → R a b → S a b) :
    List.Forall₂ S as bs := by
  induction all with
  | nil => exact .nil
  | cons first _ ih =>
    refine .cons (implied _ _ List.mem_cons_self first) (ih ?_)
    intro a b there
    exact implied a b (List.mem_cons_of_mem _ there)

theorem forall₂_replace {α β : Type} {R S : α → β → Prop} {before after : List α} {a : α}
    (a' : α) {bs : List β} (all : List.Forall₂ R (before ++ a :: after) bs) (distinct : bs.Nodup) :
    ∃ b ∈ bs, R a b ∧ (S a' b → (∀ other b', b' ∈ bs → b' ≠ b → R other b' → S other b') →
      List.Forall₂ S (before ++ a' :: after) bs) := by
  induction before generalizing bs with
  | nil =>
    obtain ⟨b, rest, own, others, rfl⟩ := List.forall₂_cons_left_iff.mp all
    have absent := (List.nodup_cons.mp distinct).1
    refine ⟨b, List.mem_cons_self, own, fun own' kept => .cons own' ?_⟩
    refine forall₂_imp_mem others fun other b' there related => ?_
    exact kept other b' (List.mem_cons_of_mem _ there) (fun same => absent (same ▸ there)) related
  | cons first before ih =>
    obtain ⟨b, rest, related, others, rfl⟩ := List.forall₂_cons_left_iff.mp all
    obtain ⟨absent, distinct⟩ := List.nodup_cons.mp distinct
    obtain ⟨mine, there, own, replaced⟩ := ih others distinct
    refine ⟨mine, List.mem_cons_of_mem _ there, own, fun own' kept => .cons ?_ ?_⟩
    · exact kept first b List.mem_cons_self (fun same => absent (same ▸ there)) related
    · exact replaced own' fun other b' later => kept other b' (List.mem_cons_of_mem _ later)

namespace Cache

variable {outages : Outages} {answers : Answers} {c : Config} {jobs : List Patch} {job : Patch}
  {reports : List Report} {state : Nat → World} {well : Nat → Key → Bool} {w w' : World} {n : Nat}
  {key : Key} {p p' : Program Outcome} {x : Exchange}

def Local (c : Config) (name : String) (request : Request) : Prop :=
  Within name request ∧
    ∀ name text lifetime, request = .store (.set name text lifetime) → lifetime = c.lifetime

theorem local_set (c : Config) (name text : String) :
    Local c name (.store (.set name text c.lifetime)) := by
  refine ⟨rfl, ?_⟩
  rintro _ _ _ ⟨⟩
  rfl

theorem local_editEntry (c : Config) (job : Patch) (key : Key) :
    Abides (asking (Local c key.text)) (editEntry c job key) := by
  have granted : Granted (asking (Local c key.text)) c key :=
    ⟨⟨rfl, nofun⟩, ⟨rfl, nofun⟩, fun _ => ⟨True.intro, nofun⟩, ⟨True.intro, nofun⟩,
      fun text _ => local_set c key.text text⟩
  exact granted.editEntry (fun _ _ _ _ => local_set ..) fun _ _ _ _ _ _ _ _ => local_set ..

theorem now_of_regularly (met : World.Regularly outages answers w x w') : w'.now = w.now := by
  obtain ⟨time, met⟩ := met
  have same := World.now_reply outages answers time x.request w
  rwa [met] at same

def Unexpiring (c : Config) (w : World) : Prop :=
  c.lifetime = none ∧ ∀ name entry, w.entries.get? name = some entry → entry.expiry = none

theorem Unexpiring.find? (unexpiring : Unexpiring c w) (now : Nat) (name : String) :
    w.entries.find? now name = (w.entries.get? name).map (·.text) := by
  unfold Entries.find?
  cases there : w.entries.get? name with
  | none => rfl
  | some entry => simp [Entry.isLive, unexpiring.2 name entry there]

theorem Unexpiring.regularly {name : String} (unexpiring : Unexpiring c w)
    (own : Local c name x.request) (met : World.Regularly outages answers w x w') (now : Nat) :
    World.Regularly outages answers { w with now } x { w' with now } ∧ Unexpiring c w' := by
  obtain ⟨time, met⟩ := met
  obtain ⟨request, reply⟩ := x
  cases request with
  | store call =>
    simp only [World.regular] at met
    cases outcome : outages call.name call.key with
    | some reason =>
      rw [outcome] at met
      obtain ⟨rfl, rfl⟩ := Prod.mk.inj met
      exact ⟨⟨time, by simp only [World.regular, outcome]⟩, unexpiring⟩
    | none =>
      rw [outcome] at met
      obtain ⟨rfl, rfl⟩ := Prod.mk.inj met
      cases call with
      | get key =>
        refine ⟨⟨time, ?_⟩, unexpiring⟩
        simp only [World.regular, outcome, Entries.serve, unexpiring.find?]
      | set key text lifetime =>
        obtain rfl := own.2 _ _ _ rfl
        refine ⟨⟨time, ?_⟩, unexpiring.1, fun other entry there => ?_⟩
        · simp only [World.regular, outcome, Entries.serve, Entries.set]
          simp only [unexpiring.1, Option.map_none]
        · by_cases here : other = key
          · subst here
            cases (Entries.get?_insert_self ..).symm.trans there
            simp [unexpiring.1]
          · exact unexpiring.2 other entry ((Entries.get?_insert_of_ne here _ _).symm.trans there)
      | erase key =>
        refine ⟨⟨time, ?_⟩, unexpiring.1, fun other entry there => ?_⟩
        · simp only [World.regular, outcome, Entries.serve]
        · by_cases here : other = key
          · subst here
            cases (Entries.get?_erase_self ..).symm.trans there
          · exact unexpiring.2 other entry ((Entries.get?_erase_of_ne here _).symm.trans there)
      | erasePrefix start => exact own.1.elim
  | source question =>
    obtain ⟨rfl, rfl⟩ := Prod.mk.inj met
    exact ⟨⟨time, rfl⟩, unexpiring⟩
  | timestamp =>
    obtain ⟨rfl, rfl⟩ := Prod.mk.inj met
    exact ⟨⟨time, rfl⟩, unexpiring⟩
  | offerRebuild job => exact own.1.elim
  | offerPatch job => exact own.1.elim

/-- What is left of an edit can only end as the edit in turn has ended. -/
structure Left (outages : Outages) (answers : Answers) (c : Config) (state : Nat → World)
    (well : Nat → Key → Bool) (w : World) (n : Nat) (key : Key) (p : Program Outcome) : Prop where
  within : Abides (asking (Local c key.text)) p
  ends : ∃ u, SameEntry key.text w u ∧ ∀ result u',
    p.Comes (World.Regularly outages answers) u result u' →
      result.isOk = well n key ∧ Similar c outages key.text u' (state (n + 1))

theorem left_begin (succession : Succession outages answers c jobs reports state well)
    (there : jobs[n]? = some job) (member : key ∈ job.keys)
    (similar : Similar c outages key.text w (state n)) :
    Left outages answers c state well w n key (editEntry c job key) :=
  ⟨local_editEntry c job key, w, ⟨rfl, rfl⟩, succession.edits n job there key member w similar⟩

theorem Left.beside (left : Left outages answers c state well w n key p)
    (same : SameEntry key.text w' w) : Left outages answers c state well w' n key p := by
  obtain ⟨within, u, here, ends⟩ := left
  exact ⟨within, u, same.trans here, ends⟩

theorem Left.asks (left : Left outages answers c state well w n key p) (turns : p.Turns x p') :
    Local c key.text x.request := by
  cases turns with
  | turn => exact left.within.1

theorem Left.turns (left : Left outages answers c state well w n key p) (turns : p.Turns x p')
    (met : World.Regularly outages answers w x w') :
    Left outages answers c state well w' n key p' := by
  have asked := (left.asks turns).1
  obtain ⟨within, u, here, ends⟩ := left
  have apart : Apart (World.Regularly outages answers) (fun key : Key => Within key.text)
      fun key => SameEntry key.text :=
    apart_entries outages answers fun _ _ => Key.text_injective
  obtain ⟨u', met', here'⟩ := apart.own key _ _ _ u asked met here
  cases turns with
  | turn reply =>
    refine ⟨within.2 reply True.intro, u', here', fun result v comes => ?_⟩
    exact ends result v (comes_ask.mpr ⟨reply, u', met', comes⟩)

theorem Left.done {result : Except Failure Outcome}
    (left : Left outages answers c state well w n key (.done result)) :
    result.isOk = well n key ∧ Similar c outages key.text w (state (n + 1)) := by
  obtain ⟨_, u, here, ends⟩ := left
  obtain ⟨same, similar⟩ := ends result u (comes_done.mpr ⟨rfl, rfl⟩)
  exact ⟨same, .congr here similar ⟨rfl, rfl⟩⟩

def AllLeft (outages : Outages) (answers : Answers) (c : Config) (state : Nat → World)
    (well : Nat → Key → Bool) (w : World) (n : Nat) (job : Patch)
    (ps : List (String × Program Outcome)) : Prop :=
  List.Forall₂ (fun part key => Left outages answers c state well w n key part.2) ps job.keys

variable {ps ps' : List (String × Program Outcome)}

theorem allLeft_begin (succession : Succession outages answers c jobs reports state well)
    (there : jobs[n]? = some job)
    (similar : ∀ key ∈ job.keys, Similar c outages key.text w (state n)) :
    AllLeft outages answers c state well w n job (parts c job) := by
  refine List.forall₂_map_left_iff.mpr (List.forall₂_map_right_iff.mpr (List.forall₂_same.mpr ?_))
  intro target named
  have member : target.2 ∈ job.keys := List.mem_map_of_mem named
  exact left_begin succession there member (similar _ member)

theorem AllLeft.beside (left : AllLeft outages answers c state well w n job ps)
    (same : ∀ key ∈ job.keys, SameEntry key.text w' w) :
    AllLeft outages answers c state well w' n job ps :=
  forall₂_imp_mem left fun _ key there own => own.beside (same key there)

theorem sameEntry_of_regularly {name other : String} (within : Within name x.request)
    (met : World.Regularly outages answers w x w') (beside : other ≠ name) :
    SameEntry other w' w := by
  obtain ⟨time, met⟩ := met
  have same := regular_beside outages answers time within beside w
  rwa [met] at same

theorem AllLeft.asks (left : AllLeft outages answers c state well w n job ps)
    (distinct : job.keys.Nodup) (turns : OneTurns ps x ps') :
    ∃ key ∈ job.keys, Local c key.text x.request := by
  cases turns with
  | @turn before after name p p' _ turns =>
    obtain ⟨key, there, own, _⟩ := forall₂_replace (S := fun _ _ => True) (name, p') left distinct
    exact ⟨key, there, own.asks turns⟩

theorem AllLeft.turns (left : AllLeft outages answers c state well w n job ps)
    (distinct : job.keys.Nodup) (turns : OneTurns ps x ps')
    (met : World.Regularly outages answers w x w') :
    AllLeft outages answers c state well w' n job ps' := by
  cases turns with
  | @turn before after name p p' _ turns =>
    obtain ⟨key, _, own, replaced⟩ := forall₂_replace (name, p') left distinct
    refine replaced (own.turns turns met) fun part other _ different others => ?_
    have elsewhere : other.text ≠ key.text := fun same => different (Key.text_injective same)
    exact others.beside (sameEntry_of_regularly (own.asks turns).1 met elsewhere)

theorem AllLeft.ended {results : List (String × Except Failure Outcome)}
    (left : AllLeft outages answers c state well w n job (Program.ended results)) :
    (Report.mk results).allSucceeded = job.keys.all (well n) ∧
      ∀ key ∈ job.keys, Similar c outages key.text w (state (n + 1)) := by
  rw [Report.allSucceeded_eq]
  have all := List.forall₂_map_left_iff.mp left
  clear left
  generalize job.keys = keys at all ⊢
  induction all with
  | nil => exact ⟨rfl, nofun⟩
  | @cons result key results keys own _ ih =>
    obtain ⟨same, similar⟩ := own.done
    obtain ⟨others, rest⟩ := ih
    refine ⟨?_, List.forall_mem_cons.mpr ⟨similar, rest⟩⟩
    rw [List.all_cons, List.all_cons, same, others]

end Cache

end CacheAside
