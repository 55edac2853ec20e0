import CacheAside.Cache.Reading
import CacheAside.Proofs.Cache.Derivation

namespace CacheAside

namespace Exchange

def isQuestion (x : Exchange) : Bool := x.question?.isSome

variable {xs ys : List Exchange}

theorem eq_of_isQuestion {x : Exchange} (h : x.isQuestion = true) :
    ∃ question answer, x = ⟨.source question, answer⟩ := by
  rcases x with ⟨request, reply⟩
  cases request with
  | source question => exact ⟨question, reply, rfl⟩
  | _ => cases h

theorem storeCalls_of_questions (questions : ∀ x ∈ ys, x.isQuestion = true) :
    storeCalls ys = [] := by
  refine List.filterMap_eq_nil_iff.mpr fun x there => ?_
  obtain ⟨question, answer, rfl⟩ := eq_of_isQuestion (questions x there)
  rfl

theorem offers_of_questions (questions : ∀ x ∈ ys, x.isQuestion = true) : offers ys = [] := by
  refine List.filterMap_eq_nil_iff.mpr fun x there => ?_
  obtain ⟨question, answer, rfl⟩ := eq_of_isQuestion (questions x there)
  rfl

end Exchange

theorem World.eq_of_questions {answering : Answering} {w w' : World} {ys : List Exchange}
    (questions : ∀ x ∈ ys, x.isQuestion = true)
    (follows : Exchange.Follows (World.Meets answering) w ys w') : w' = w := by
  induction follows with
  | nil w => rfl
  | cons first rest ih =>
    obtain ⟨asked, others⟩ := List.forall_mem_cons.mp questions
    obtain ⟨question, answer, rfl⟩ := Exchange.eq_of_isQuestion asked
    cases first
    exact ih others

namespace Cache

open Program Exchange

variable {c : Config} {key : Key} {xs : List Exchange}

/-- The exchanges of a read and its end, for each thing that the store may answer. -/
inductive Reads (c : Config) (key : Key) : List Exchange → Except Failure Reading → Prop
  | refused {fault : KeyFault} (checked : key.check = .error fault) :
    Reads c key [] (.error (.invalidKey fault))
  | hit {text : String} {value : Json} (valid : key.Valid)
    (read : Json.ofText? text = some value) :
    Reads c key [⟨.store (.get key.text), .ok (some text)⟩] (.ok ⟨value, .stored⟩)
  | miss {ys : List Exchange} {derived : Except Failure Json} (valid : key.Valid) (taken : Bool)
    (derives : (derive c key).Runs ys (some derived)) :
    Reads c key (⟨.store (.get key.text), .ok none⟩ :: ⟨.offerRebuild (.ofKey key), taken⟩ :: ys)
      (derived.map (⟨·, .derived⟩))
  | unreadable {text : String} {ys : List Exchange} {derived : Except Failure Json}
    (valid : key.Valid) (unread : Json.ofText? text = none) (erased : Except String Unit)
    (taken : Bool) (derives : (derive c key).Runs ys (some derived)) :
    Reads c key (⟨.store (.get key.text), .ok (some text)⟩ ::
      ⟨.store (.erase key.text), erased⟩ :: ⟨.offerRebuild (.ofKey key), taken⟩ :: ys)
      (derived.map (⟨·, .derived⟩))
  | outOfReach {reason : String} {ys : List Exchange} {derived : Except Failure Json}
    (valid : key.Valid) (derives : (derive c key).Runs ys (some derived)) :
    Reads c key (⟨.store (.get key.text), .error reason⟩ :: ys) (derived.map (⟨·, .bypassed⟩))

theorem runs_answer {provenance : Provenance} {ending : Except Failure Reading}
    (runs : (do return ⟨← derive c key, provenance⟩ : Program Reading).Runs xs (some ending)) :
    ∃ derived, (derive c key).Runs xs (some derived) ∧ ending = derived.map (⟨·, provenance⟩) := by
  rcases runs_bind.mp runs with ⟨v, before, after, rfl, derives, ends⟩ | ⟨failure, rfl, derives⟩
  · obtain ⟨rfl, rfl⟩ := runs_done.mp ends
    rw [List.append_nil]
    exact ⟨.ok v, derives, rfl⟩
  · exact ⟨.error failure, derives, rfl⟩

theorem runs_load {result : Except Failure (Option Json)}
    (runs : (load key).Runs xs (some result)) :
    (∃ reason, xs = [⟨.store (.get key.text), .error reason⟩] ∧
        result = .error (.storeUnavailable reason)) ∨
      (xs = [⟨.store (.get key.text), .ok none⟩] ∧ result = .ok none) ∨
      (∃ text value, Json.ofText? text = some value ∧
        xs = [⟨.store (.get key.text), .ok (some text)⟩] ∧ result = .ok (some value)) ∨
      ∃ text, ∃ erased : Except String Unit, Json.ofText? text = none ∧
        xs = [⟨.store (.get key.text), .ok (some text)⟩, ⟨.store (.erase key.text), erased⟩] ∧
        result = .ok none := by
  rcases runs_bind.mp runs with ⟨found, before, after, rfl, asked, ends⟩ | ⟨failure, rfl, asked⟩
  · obtain ⟨reply, rfl, told⟩ := runs_store.mp asked
    cases reply with
    | error reason => cases told
    | ok answer =>
      cases told
      cases found with
      | none =>
        obtain ⟨rfl, rfl⟩ := runs_done.mp ends
        exact .inr (.inl ⟨rfl, rfl⟩)
      | some text =>
        cases read : Json.ofText? text with
        | some value =>
          simp only [read] at ends
          obtain ⟨rfl, rfl⟩ := runs_done.mp ends
          exact .inr (.inr (.inl ⟨text, value, read, rfl, rfl⟩))
        | none =>
          simp only [read] at ends
          rcases runs_bind.mp ends with ⟨result', _, _, rfl, erases, ends⟩ | ⟨failure, _, erases⟩
          · obtain ⟨rfl, rfl⟩ := runs_done.mp ends
            obtain ⟨_, _, erases⟩ := runs_attempt.mp erases
            obtain ⟨erased, rfl, _⟩ := runs_store.mp erases
            exact .inr (.inr (.inr ⟨text, erased, read, rfl, rfl⟩))
          · obtain ⟨_, impossible, _⟩ := runs_attempt.mp erases
            cases impossible
  · obtain ⟨reply, rfl, told⟩ := runs_store.mp asked
    cases reply with
    | error reason =>
      cases told
      exact .inl ⟨reason, rfl, rfl⟩
    | ok answer => cases told

theorem runs_derived {ending : Except Failure Reading}
    (runs : (do
      let _ ← offerRebuild (.ofKey key)
      return ⟨← derive c key, .derived⟩ : Program Reading).Runs xs (some ending)) :
    ∃ taken ys derived, xs = ⟨.offerRebuild (.ofKey key), taken⟩ :: ys ∧
      (derive c key).Runs ys (some derived) ∧ ending = derived.map (⟨·, .derived⟩) := by
  rcases runs_bind.mp runs with ⟨_, _, ys, rfl, offers, answers⟩ | ⟨_, _, offers⟩
  · obtain ⟨taken, rfl, _⟩ := runs_offerRebuild.mp offers
    obtain ⟨derived, derives, same⟩ := runs_answer answers
    exact ⟨taken, ys, derived, rfl, derives, same⟩
  · obtain ⟨_, _, impossible⟩ := runs_offerRebuild.mp offers
    cases impossible

theorem reads_of_runs {ending : Except Failure Reading}
    (runs : (read c key).Runs xs (some ending)) : Reads c key xs ending := by
  rcases runs_checked.mp runs with ⟨valid, goesOn⟩ | ⟨fault, checked, rfl, rfl⟩
  · rcases runs_bind.mp goesOn with ⟨_, _, _, rfl, loads, answers⟩ | ⟨_, _, loads⟩
    · obtain ⟨result, ⟨⟩, loads⟩ := runs_attempt.mp loads
      rcases runs_load loads with ⟨reason, rfl, rfl⟩ | ⟨rfl, rfl⟩ |
        ⟨text, value, read, rfl, rfl⟩ | ⟨text, erased, unread, rfl, rfl⟩
      · obtain ⟨derived, derives, rfl⟩ := runs_answer answers
        exact .outOfReach valid derives
      · obtain ⟨taken, ys, derived, rfl, derives, rfl⟩ := runs_derived answers
        exact .miss valid taken derives
      · obtain ⟨rfl, rfl⟩ := runs_done.mp answers
        exact .hit valid read
      · obtain ⟨taken, ys, derived, rfl, derives, rfl⟩ := runs_derived answers
        exact .unreadable valid unread erased taken derives
    · obtain ⟨_, impossible, _⟩ := runs_attempt.mp loads
      cases impossible
  · exact .refused checked

/-- What a read of a valid key does in a world once the store has replied to its first call, and
what it answers. -/
structure Aftermath (c : Config) (key : Key) (w : World) (reply : Except String (Option String))
    (rest : List Exchange) (ending : Except Failure Reading) (w' : World) : Prop where
  told : reply = .ok (w.stored? key) ∨ ∃ reason, reply = .error reason
  hit : ∀ text value, reply = .ok (some text) → Json.ofText? text = some value →
    rest = [] ∧ ending = .ok ⟨value, .stored⟩
  miss : ∀ found, reply = .ok found → found.bind Json.ofText? = none →
    storeCalls rest = (found.map fun _ => .erase key.text).toList ∧
      (∃ taken, offers rest = [(.ofKey key, taken)]) ∧
      ∃ derived, (derive c key).Runs (rest.filter isQuestion) (some derived) ∧
        ending = derived.map (⟨·, .derived⟩)
  outOfReach : ∀ reason, reply = .error reason → storeCalls rest = [] ∧ offers rest = [] ∧
    ∃ derived, (derive c key).Runs rest (some derived) ∧ ending = derived.map (⟨·, .bypassed⟩)
  fails : ∀ failure, ending = .error failure → ∃ fault, failure = .source key.text fault
  entries : w'.entries = w.entries ∨ w'.entries = w.entries.erase key.text ∧
    ∃ text, w.stored? key = some text ∧ Json.ofText? text = none
  rebuilds : w'.rebuilds = w.rebuilds ++ ((offers rest).filter (·.2)).map (·.1)
  patches : w'.patches = w.patches

theorem questions_of_derives {ys : List Exchange} {derived : Except Failure Json}
    (derives : (derive c key).Runs ys (some derived)) :
    (∀ x ∈ ys, x.isQuestion = true) ∧
      ∀ failure, derived = .error failure → ∃ fault, failure = .source key.text fault := by
  obtain ⟨asked, ends⟩ := (keeps_derive_questions c key).ends derives fun _ _ => True.intro
  refine ⟨fun x there => ?_, ?_⟩
  · obtain ⟨question, same⟩ := asked x there
    rw [isQuestion, question?, same]
    rfl
  · intro failure same
    subst same
    exact ends

theorem fails_of_derives {ys : List Exchange} {derived : Except Failure Json}
    (derives : (derive c key).Runs ys (some derived)) {provenance : Provenance} :
    ∀ failure, derived.map (Reading.mk · provenance) = .error failure →
      ∃ fault, failure = .source key.text fault := by
  intro failure same
  cases derived with
  | ok v => cases same
  | error failure' =>
    cases same
    exact (questions_of_derives derives).2 failure rfl

theorem offered_then_derived {answering : Answering} {w w' : World} {job : Rebuild} {taken : Bool}
    {ys : List Exchange} (questions : ∀ x ∈ ys, x.isQuestion = true)
    (follows : Exchange.Follows (World.Meets answering) w (⟨.offerRebuild job, taken⟩ :: ys) w') :
    w' = { w with rebuilds := w.rebuilds ++ if taken then [job] else [] } ∧
      storeCalls (⟨.offerRebuild job, taken⟩ :: ys) = [] ∧
      offers (⟨.offerRebuild job, taken⟩ :: ys) = [(job, taken)] ∧
      (⟨.offerRebuild job, taken⟩ :: ys : List Exchange).filter isQuestion = ys := by
  have silent : storeCalls (⟨.offerRebuild job, taken⟩ :: ys) = storeCalls ys := rfl
  have offered : offers (⟨.offerRebuild job, taken⟩ :: ys) = (job, taken) :: offers ys := rfl
  have asked : (⟨.offerRebuild job, taken⟩ :: ys : List Exchange).filter isQuestion =
      ys.filter isQuestion := rfl
  rw [silent, offered, asked, storeCalls_of_questions questions, offers_of_questions questions,
    List.filter_eq_self.mpr questions]
  cases follows with | cons offer rest =>
  refine ⟨?_, rfl, rfl, rfl⟩
  rw [World.eq_of_questions questions rest, offer.offerRebuild]

theorem Reads.aftermath {answering : Answering} {w w' : World} {ending : Except Failure Reading}
    (reads : Reads c key xs ending) (valid : key.Valid)
    (follows : Exchange.Follows (World.Meets answering) w xs w') :
    ∃ reply rest, xs = ⟨.store (.get key.text), reply⟩ :: rest ∧
      Aftermath c key w reply rest ending w' := by
  cases reads with
  | refused checked => cases checked.symm.trans valid
  | @hit text value _ read =>
    cases follows with | cons first rest =>
    cases rest
    obtain ⟨rfl, told⟩ := first.get
    refine ⟨_, _, rfl, told, ?_, ?_, nofun, nofun, .inl rfl, (List.append_nil _).symm, rfl⟩
    · intro _ value' same again
      cases same
      cases read.symm.trans again
      exact ⟨rfl, rfl⟩
    · intro _ same unread
      cases same
      cases read.symm.trans unread
  | @miss ys derived _ taken derives =>
    cases follows with | cons first rest =>
    obtain ⟨rfl, told⟩ := first.get
    obtain ⟨rfl, silent, offered, asked⟩ :=
      offered_then_derived (questions_of_derives derives).1 rest
    refine ⟨_, _, rfl, told, nofun, ?_, nofun, fails_of_derives derives, .inl rfl, ?_, rfl⟩
    · intro _ same _
      cases same
      rw [silent, offered, asked]
      exact ⟨rfl, ⟨taken, rfl⟩, derived, derives, rfl⟩
    · rw [offered]
      cases taken <;> rfl
  | @unreadable text ys derived _ unread erased taken derives =>
    cases follows with | cons first rest =>
    cases rest with | cons erase rest =>
    -- The text may still be there afterwards, as it may not have been possible to erase it.
    obtain ⟨same, told⟩ := first.get
    rw [same] at erase
    obtain ⟨after, silent, offered, asked⟩ :=
      offered_then_derived (questions_of_derives derives).1 rest
    have found : w.stored? key = some text := by
      rcases told with told | ⟨_, told⟩
      · exact (Except.ok.inj told).symm
      · cases told
    have derives' : (derive c key).Runs ((⟨.offerRebuild (.ofKey key), taken⟩ :: ys :
      List Exchange).filter isQuestion) (some derived) := asked.symm ▸ derives
    refine ⟨_, _, rfl, told, ?_, ?_, nofun, fails_of_derives derives, ?_, ?_, ?_⟩
    · intro _ value same read
      cases same
      cases unread.symm.trans read
    · intro _ same _
      cases same
      exact ⟨congrArg (_ :: ·) silent, ⟨taken, offered⟩, derived, derives', rfl⟩
    · rcases erase.erase with same | same <;> rw [after, same]
      · exact .inl rfl
      · exact .inr ⟨rfl, text, found, unread⟩
    · change w'.rebuilds = w.rebuilds ++
        ((offers (⟨.offerRebuild (.ofKey key), taken⟩ :: ys)).filter (·.2)).map (·.1)
      rw [offered]
      rcases erase.erase with same | same <;> rw [after, same] <;> cases taken <;> rfl
    · rcases erase.erase with same | same <;> rw [after, same]
  | @outOfReach reason ys derived _ derives =>
    cases follows with | cons first rest =>
    obtain ⟨rfl, told⟩ := first.get
    have questions := (questions_of_derives derives).1
    cases World.eq_of_questions questions rest
    have offered := offers_of_questions questions
    refine ⟨_, _, rfl, told, nofun, nofun, ?_, fails_of_derives derives, .inl rfl, ?_, rfl⟩
    · intro _ _
      exact ⟨storeCalls_of_questions questions, offered, derived, derives, rfl⟩
    · simp only [offered, List.filter_nil, List.map_nil, List.append_nil]

theorem Reads.of_stored {σ : Type} {answering : Answering} {around : Surroundings answering σ}
    (healthy : around.Healthy) {s s' : σ} {text : String} {value : Json} (valid : key.Valid)
    (found : (around.world s).stored? key = some text) (read : Json.ofText? text = some value)
    {ending : Except Failure Reading} (reads : Reads c key xs ending)
    (follows : around.Follows s xs s') :
    xs = [⟨.store (.get key.text), .ok (some text)⟩] ∧ ending = .ok ⟨value, .stored⟩ ∧
      around.world s' = around.world s := by
  obtain ⟨reply, rest, rfl, aftermath⟩ := reads.aftermath valid follows.meets
  cases follows with | cons first follows =>
  obtain ⟨served, stays⟩ := healthy.served first
  obtain rfl : reply = .ok (some text) := served.trans (congrArg Except.ok found)
  obtain ⟨rfl, rfl⟩ := aftermath.hit text value rfl read
  cases follows
  exact ⟨rfl, rfl, stays⟩

/-- A read always ends. An invalid key is refused before anything is asked; otherwise the store is
asked once for the text, and no failure but one of the source comes through. -/
theorem read_effects {σ : Type} {answering : Answering} (around : Surroundings answering σ)
    (c : Config) (key : Key) (s : σ) :
    ∃ xs ending s', (read c key).Runs xs (some ending) ∧ around.Follows s xs s' ∧
      (∀ fault, key.check = .error fault →
        xs = [] ∧ ending = .error (.invalidKey fault) ∧ s' = s) ∧
      (key.Valid → ∃ reply rest, xs = ⟨.store (.get key.text), reply⟩ :: rest ∧
        Aftermath c key (around.world s) reply rest ending (around.world s')) := by
  obtain ⟨xs, ending, s', runs, follows⟩ := around.exists_runs (read c key) s
  have reads := reads_of_runs runs
  refine ⟨xs, ending, s', runs, follows, fun fault checked => ?_, fun valid => ?_⟩
  · cases reads with
    | refused checked' =>
      cases checked.symm.trans checked'
      cases follows
      exact ⟨rfl, rfl, rfl⟩
    | _ valid => cases checked.symm.trans valid
  · exact reads.aftermath valid follows.meets

end Cache

end CacheAside
