import CacheAside.Proofs.Cache.SweepJobs

namespace CacheAside

namespace World

/-- Time passes, and then there is an exchange in which every call is served. -/
def Elapses (answers : Answers) (w : World) (x : Exchange) (w' : World) : Prop :=
  ∃ now, w.now ≤ now ∧ Healthily answers { w with now } x w'

variable {answers : Answers} {w w' : World}

theorem Elapses.served {call : StoreCall} {reply : Except String call.Answer}
    (met : w.Elapses answers ⟨.store call, reply⟩ w') :
    w.now ≤ w'.now ∧ reply = .ok (w.entries.serve w'.now call).1 ∧
      w' = { w with entries := (w.entries.serve w'.now call).2, now := w'.now } := by
  obtain ⟨now, later, met⟩ := met
  obtain ⟨rfl, rfl⟩ := met.served
  exact ⟨later, rfl, rfl⟩

theorem Elapses.offerPatch {job : Patch} {taken : Bool}
    (met : w.Elapses answers ⟨.offerPatch job, taken⟩ w') :
    taken = true ∧ w.now ≤ w'.now ∧
      w' = { w with now := w'.now, patches := w.patches ++ [job] } := by
  obtain ⟨now, later, _, met⟩ := met
  obtain ⟨rfl, rfl⟩ := Prod.mk.inj met
  exact ⟨rfl, later, rfl⟩

theorem Elapses.source {question : Question} {answer : Except String question.Answer}
    (met : w.Elapses answers ⟨.source question, answer⟩ w') :
    answer = answers question ∧ w.now ≤ w'.now ∧ w' = { w with now := w'.now } := by
  obtain ⟨now, later, _, met⟩ := met
  obtain ⟨rfl, rfl⟩ := Prod.mk.inj met
  exact ⟨rfl, later, rfl⟩

theorem elapses_of_healthily {α : Type} {request : Request} {next : request.Reply → Program α}
    {now : Nat} {ending : Except Failure α} (later : w.now ≤ now)
    (comes : (Program.ask request next).Comes (Healthily answers) { w with now } ending w') :
    (Program.ask request next).Comes (Elapses answers) w ending w' := by
  obtain ⟨reply, between, met, xs, runs, follows⟩ := Program.comes_ask.mp comes
  refine Program.comes_ask.mpr ⟨reply, between, ⟨now, later, met⟩, xs, runs, ?_⟩
  clear runs met comes
  induction follows with
  | nil w => exact .nil w
  | @cons w _ _ _ _ first _ ih => exact .cons ⟨w.now, Nat.le_refl _, first⟩ ih

end World

/-- A world, and the instants at which its entries have been looked at. -/
structure Watched where
  world : World
  looks : List (String × Nat)

namespace Watched

open Cache Program

variable {α ι : Type} {answers : Answers} {text : ι → String} {programs : ι → Program α}
  {names : List ι} {w : World} {name : String} {x : Exchange} {s s' u : Watched}

def noted (now : Nat) : Request → List (String × Nat)
  | .store (.get name) => [(name, now)]
  | _ => []

theorem noted_within {other : String} {request : Request} {now instant : Nat}
    (within : Within name request) (there : (other, instant) ∈ noted now request) :
    other = name ∧ instant = now := by
  unfold noted at there
  split at there
  · cases within
    simpa using there
  · cases there

def Elapses (answers : Answers) (s : Watched) (x : Exchange) (s' : Watched) : Prop :=
  s.world.Elapses answers x s'.world ∧ s'.looks = s.looks ++ noted s'.world.now x.request

theorem looks_subset {xs : List Exchange} (follows : Exchange.Follows (Elapses answers) s xs s') :
    s.looks ⊆ s'.looks := by
  induction follows with
  | nil s => exact List.Subset.refl _
  | cons first _ ih => exact fun look there => ih (first.2 ▸ List.mem_append_left _ there)

theorem Elapses.found {entry : Entry} {reply : Except String (Option String)}
    (met : s.Elapses answers ⟨.store (.get name), reply⟩ s')
    (there : s.world.entries.get? name = some entry)
    (live : ∀ instant, (name, instant) ∈ s'.looks → entry.isLive instant = true) :
    reply = .ok (some entry.text) ∧ s.world.now ≤ s'.world.now ∧
      s'.world = { s.world with now := s'.world.now } := by
  obtain ⟨met, looks⟩ := met
  obtain ⟨later, told, stays⟩ := met.served
  have looked : (name, s'.world.now) ∈ s'.looks := by simp [looks, noted]
  have found := Entries.find?_of_live there (live _ looked)
  exact ⟨told.trans (congrArg Except.ok found), later, stays⟩

theorem Elapses.entries (met : s.Elapses answers x s') (within : Within name x.request) :
    s.world.now ≤ s'.world.now ∧
      s'.world = { s.world with entries := s'.world.entries, now := s'.world.now } := by
  obtain ⟨⟨now, later, time, replied⟩, _⟩ := met
  have after := regular_entries (fun _ _ => none) answers time within { s.world with now }
  rw [replied] at after
  have clock : s'.world.now = now := congrArg World.now after
  rw [clock]
  exact ⟨later, after⟩

theorem Elapses.beside {other : String} (met : s.Elapses answers x s')
    (within : Within other x.request) (apart : name ≠ other) :
    s'.world.entries.get? name = s.world.entries.get? name := by
  obtain ⟨⟨now, _, time, replied⟩, _⟩ := met
  have beside := regular_beside (fun _ _ => none) answers time within apart { s.world with now }
  rw [replied] at beside
  exact beside.2

/-- One entry of two worlds is the same and has been looked at at the same instants; the first world
may be the later one. -/
structure Level (name : String) (s u : Watched) : Prop where
  later : u.world.now ≤ s.world.now
  entry : s.world.entries.get? name = u.world.entries.get? name
  looks : ∀ instant, (name, instant) ∈ s.looks ↔ (name, instant) ∈ u.looks

theorem Level.own (level : Level name s u) (within : Within name x.request)
    (met : s.Elapses answers x s') : ∃ u', u.Elapses answers x u' ∧ Level name s' u' := by
  obtain ⟨⟨now, later, time, replied⟩, looks⟩ := met
  have same : SameEntry name { s.world with now } { u.world with now } := ⟨rfl, level.entry⟩
  obtain ⟨agrees, after⟩ := regular_within (fun _ _ => none) answers time within same
  rw [replied] at agrees after
  let world := ((World.regular (fun _ _ => none) answers time).reply x.request
    { u.world with now }).2
  refine ⟨⟨world, u.looks ++ noted world.now x.request⟩,
    ⟨⟨now, Nat.le_trans level.later later, time, Prod.ext agrees.symm rfl⟩, rfl⟩,
    ⟨Nat.le_of_eq after.1.symm, after.2, fun instant => ?_⟩⟩
  rw [looks, List.mem_append, List.mem_append, level.looks, after.1]

theorem Level.others {other : String} (level : Level name s u) (apart : name ≠ other)
    (within : Within other x.request) (met : s.Elapses answers x s') : Level name s' u := by
  have later := (met.entries within).1
  refine ⟨Nat.le_trans level.later later, (met.beside within apart).trans level.entry,
    fun instant => ?_⟩
  rw [met.2, List.mem_append, level.looks]
  exact or_iff_left fun there => apart (noted_within within there).1

theorem apart_elapsing (answers : Answers) (injective : ∀ i j, text i = text j → i = j) :
    Apart (Elapses answers) (fun i => Within (text i)) fun i => Level (text i) where
  refl _ _ := ⟨Nat.le_refl _, rfl, fun _ => Iff.rfl⟩
  replied _ request s _ := by
    let replied := (World.regular (fun _ _ => none) answers "").reply request s.world
    let after : Watched := ⟨replied.2, s.looks ++ noted replied.2.now request⟩
    exact ⟨replied.1, after, ⟨s.world.now, Nat.le_refl _, "", rfl⟩, rfl⟩
  own _ _ _ _ _ within met level := level.own within met
  others i other _ _ _ _ different within met level :=
    level.others (fun same => different (injective _ _ same).symm) within met

/-- What work on several entries has come to while time has passed: each of them is as the work on
it can leave it alone, and nothing else has changed. -/
structure Undisturbed (answers : Answers) (text : ι → String) (programs : ι → Program α)
    (names : List ι) (w : World) (s : Watched) : Prop where
  alone : ∀ i ∈ names, ∃ result u,
    (programs i).Comes (Elapses answers) ⟨w, []⟩ result u ∧ Level (text i) s u
  others : ∀ name, (∀ i ∈ names, name ≠ text i) → s.world.entries.get? name = w.entries.get? name
  looks : ∀ look ∈ s.looks, w.now ≤ look.2 ∧ look.2 ≤ s.world.now
  later : w.now ≤ s.world.now
  rest : s.world = { w with entries := s.world.entries, now := s.world.now }

theorem inevitably_undisturbed (answers : Answers) (injective : ∀ i j, text i = text j → i = j)
    (within : ∀ i ∈ names, Abides (asking (Within (text i))) (programs i))
    (distinct : names.Nodup) (w : World) :
    Inevitably (Elapses answers) (fun _ => Undisturbed answers text programs names w)
      (names.map fun i => (i, programs i)) ⟨w, []⟩ := by
  let kept (s : Watched) : Prop :=
    (∀ name, (∀ i ∈ names, name ≠ text i) →
      s.world.entries.get? name = w.entries.get? name) ∧
    (∀ look ∈ s.looks, w.now ≤ look.2 ∧ look.2 ≤ s.world.now) ∧ w.now ≤ s.world.now ∧
      s.world = { w with entries := s.world.entries, now := s.world.now }
  have frame : ∀ i ∈ names, ∀ x s s', Within (text i) x.request →
      Elapses answers s x s' → kept s → kept s' := by
    rintro i named x s s' own met ⟨same, inside, since, rest⟩
    obtain ⟨later, entries⟩ := met.entries own
    refine ⟨fun name other => ?_, fun look there => ?_, Nat.le_trans since later, ?_⟩
    · exact (met.beside own (other i named)).trans (same name other)
    · rw [met.2] at there
      rcases List.mem_append.mp there with before | new
      · have within := inside look before
        omega
      · have instant := (noted_within own new).2
        omega
    · rw [entries]
      exact congrArg (fun before : World =>
        { before with entries := s'.world.entries, now := s'.world.now }) rest
  have start : kept ⟨w, []⟩ := ⟨fun _ _ => rfl, nofun, Nat.le_refl _, rfl⟩
  refine (inevitably_apart programs kept ⟨w, []⟩ (apart_elapsing answers injective) distinct within
    frame start).mono ?_
  rintro results s ⟨same, alone, others, looks, later, rest⟩
  refine ⟨fun i named => ?_, others, looks, later, rest⟩
  obtain ⟨⟨_, result⟩, there, rfl⟩ := List.mem_map.mp (same.symm ▸ named)
  obtain ⟨u, comes, level⟩ := alone _ _ there
  exact ⟨result, u, comes, level⟩

end Watched

end CacheAside
