import CacheAside.Cache.Purge
import CacheAside.Proofs.Cache.FanOut
import CacheAside.Proofs.Cache.Operations
import CacheAside.Proofs.Cache.Reading
import CacheAside.Proofs.Keys

namespace CacheAside

theorem isPrefixOf_keyStart {ns : Namespace} {cs : List Char} :
    ns.keyStart.toList.isPrefixOf cs = true ↔ ∃ rest, cs = ns.name.toList ++ ':' :: rest := by
  have spelled : ns.keyStart.toList = ns.name.toList ++ [':'] := by simp [Namespace.keyStart]
  rw [List.isPrefixOf_iff_prefix, spelled]
  constructor
  · rintro ⟨rest, rfl⟩
    exact ⟨rest, by simp⟩
  · rintro ⟨rest, rfl⟩
    exact ⟨rest, by simp⟩

theorem Key.startsWith_keyStart {ns : Namespace} {key : Key} :
    startsWith ns.keyStart key.text = true ↔ key.ns = ns ∧ key.id.isSome = true := by
  obtain ⟨ns', id⟩ := key
  rw [startsWith, isPrefixOf_keyStart]
  constructor
  · rintro ⟨rest, spelled⟩
    -- The first colon ends the name of the namespace, in the key as in the start.
    have parts := Key.splitColon_append (Key.colon_not_mem_name ns) rest
    rw [← spelled] at parts
    cases id with
    | none => cases parts.symm.trans (Key.splitColon_name ns')
    | some id =>
      have same := (Key.splitColon_keyStart ns' id).symm.trans parts
      simp only [Option.some.injEq, Prod.mk.injEq, String.toList_inj] at same
      exact ⟨Namespace.name_injective same.1, rfl⟩
  · rintro ⟨rfl, named⟩
    obtain ⟨id, rfl⟩ := Option.isSome_iff_exists.mp named
    exact ⟨id.toList, by simp [Key.text, Namespace.keyStart]⟩

/-- An identifier may look like the start of a key of another namespace. -/
example : startsWith Namespace.collections.keyStart (Key.of .userStats "collections:1").text =
    false := by decide

theorem Key.isSome_id {key : Key} (valid : key.Valid) (several : key.ns.isSingle = false) :
    key.id.isSome = true := by
  obtain ⟨ns, id⟩ := key
  cases id with
  | some id => rfl
  | none =>
    have single : ns.isSingle = true := Key.valid_only.mp valid
    cases several.symm.trans single

namespace Entries

variable {entries : Entries} {now : Nat} {key : String} {entry : Entry}

theorem get?_of_mem (there : (key, entry) ∈ entries.toList) : entries.get? key = some entry := by
  obtain ⟨pairs, distinct⟩ := entries
  unfold get?
  induction pairs with
  | nil => cases there
  | cons first rest ih =>
    obtain ⟨absent, distinct⟩ := List.nodup_cons.mp distinct
    rcases List.mem_cons.mp there with rfl | there
    · exact List.lookup_cons_self
    · have elsewhere : (key == first.1) = false := by
        rw [beq_eq_false_iff_ne]
        intro same
        subst same
        exact absent (List.mem_map.mpr ⟨_, there, rfl⟩)
      rw [List.lookup_cons, elsewhere]
      exact ih distinct there

theorem countPrefix_eq (entries : Entries) (now : Nat) (start : String) :
    entries.countPrefix now start = (entries.live now).countP fun pair =>
      ((entries.erasePrefix start).find? now pair.1).isNone := by
  rw [countPrefix, live, List.countP_map, List.countP_filter, ← List.countP_eq_length_filter]
  apply List.countP_congr
  rintro ⟨key, entry⟩ there
  have found := get?_of_mem there
  simp only [Function.comp_apply, Bool.and_eq_true, find?, get?_erasePrefix, found]
  cases startsWith start key with
  | true => simp
  | false =>
    cases alive : entry.isLive now <;> simp [alive]

end Entries

namespace Cache

open Program

variable {α : Type} {answering : Answering} {c : Config} {key : Key} {w w' u : World}

def Regarding (name : String) : Request → Prop
  | .offerRebuild _ => True
  | request => Within name request

theorem regarding_read (c : Config) (key : Key) :
    Abides (asking (Regarding key.text)) (read c key) :=
  abides_read (keeps_load_within rfl rfl).abides (keeps_derive_within fun _ => True.intro).abides
    fun _ => True.intro

theorem SameEntry.symm {name : String} (same : SameEntry name w u) : SameEntry name u w :=
  ⟨same.1.symm, same.2.symm⟩

theorem SameEntry.meets {name : String} {x : Exchange} (regarding : Regarding name x.request)
    (same : SameEntry name w u) (met : w.Meets answering x w') :
    ∃ u', u.Meets answering x u' ∧ SameEntry name w' u' := by
  obtain ⟨now, entry⟩ := same
  cases met with
  | failed call reason => exact ⟨u, .failed u call reason, now, entry⟩
  | answered may => exact ⟨u, .answered u may, now, entry⟩
  | rebuildTaken job => exact ⟨_, .rebuildTaken u job, now, entry⟩
  | rebuildRefused job => exact ⟨u, .rebuildRefused u job, now, entry⟩
  | patchTaken job => exact regarding.elim
  | patchRefused job => exact regarding.elim
  | told time => exact ⟨u, .told u time, now, entry⟩
  | served call =>
    cases call with
    | get key =>
      cases regarding
      have again : u.Meets answering _ _ := .served u (.get name)
      have found : w.entries.find? w.now name = u.entries.find? u.now name := by
        simp only [Entries.find?, now, entry]
      refine ⟨u, ?_, now, entry⟩
      simp only [Entries.serve] at again ⊢
      rw [found]
      exact again
    | set key text lifetime =>
      cases regarding
      refine ⟨_, .served u (.set name text lifetime), now, ?_⟩
      simp only [Entries.serve, Entries.set, Entries.get?_insert_self, now]
    | erase key =>
      cases regarding
      refine ⟨_, .served u (.erase name), now, ?_⟩
      simp only [Entries.serve, Entries.get?_erase_self]
    | erasePrefix start => exact regarding.elim

theorem SameEntry.lapses {name : String} (same : SameEntry name w u) (passed : w.Lapses w') :
    ∃ u', u.Lapses u' ∧ SameEntry name w' u' := by
  obtain ⟨now, entry⟩ := same
  obtain ⟨stays, later, order, rfl⟩ := passed
  refine ⟨_, ⟨stays, later, now ▸ order, rfl⟩, rfl, ?_⟩
  simp only [Entries.get?_keep, entry]

theorem SameEntry.passes {name : String} {x : Exchange} (regarding : Regarding name x.request)
    (same : SameEntry name w u) (passes : World.Passes answering w x w') :
    ∃ u', World.Passes answering u x u' ∧ SameEntry name w' u' := by
  obtain ⟨between, passed, met⟩ := passes
  obtain ⟨v, passed', same⟩ := same.lapses passed
  obtain ⟨u', met', same⟩ := same.meets regarding met
  exact ⟨u', ⟨v, passed', met'⟩, same⟩

def Reruns (step : World → Exchange → World → Prop) (name : String) (xs : List Exchange)
    (w u : World) : Prop :=
  ∀ w', Exchange.Follows step w xs w' → ∃ u', Exchange.Follows step u xs u' ∧ SameEntry name w' u'

theorem reruns_of_regarding {step : World → Exchange → World → Prop} {name : String}
    {xs : List Exchange} {result : Option (Except Failure α)} {p : Program α}
    (own : ∀ x w u w', Regarding name x.request → SameEntry name w u → step w x w' →
      ∃ u', step u x u' ∧ SameEntry name w' u')
    (abides : Abides (asking (Regarding name)) p) (runs : p.Runs xs result)
    (same : SameEntry name w u) : Reruns step name xs w u := by
  intro w' follows
  induction runs generalizing w u with
  | done result =>
    cases follows
    exact ⟨u, .nil u, same⟩
  | brokenOff p =>
    cases follows
    exact ⟨u, .nil u, same⟩
  | @ask request next xs result reply rest ih =>
    cases follows with | cons first others =>
    have may : Regarding name (Exchange.mk request reply).request := abides.1
    obtain ⟨between, again, same⟩ := own _ _ _ _ may same first
    obtain ⟨u', goesOn, same⟩ := ih (abides.2 reply True.intro) same others
    exact ⟨u', .cons again goesOn, same⟩

structure Calls (answering : Answering) (p : Program α) (call : StoreCall)
    (answer : call.Answer → α) (done : World → call.Answer → World → Prop) : Prop where
  runs : ∀ xs ending, p.Runs xs (some ending) ↔ ∃ reply : Except String call.Answer,
    xs = [⟨.store call, reply⟩] ∧ ending = (reply.map answer).mapError .storeUnavailable
  failed : ∀ w reason w', World.Meets answering w ⟨.store call, .error reason⟩ w' → w' = w
  served : ∀ w a w', World.Meets answering w ⟨.store call, .ok a⟩ w' → done w a w'

theorem calls_of_served {call : StoreCall} {answer : call.Answer → α}
    {done : World → call.Answer → World → Prop}
    (served : ∀ w, done w (w.entries.serve w.now call).1
      { w with entries := (w.entries.serve w.now call).2 }) :
    Calls answering (do return answer (← store call)) call answer done := by
  refine ⟨fun xs ending => ?_, ?_, ?_⟩
  · constructor
    · intro runs
      rcases runs_bind.mp runs with ⟨a, _, _, rfl, called, ends⟩ | ⟨failure, rfl, called⟩
      · obtain ⟨reply, rfl, told⟩ := runs_store.mp called
        obtain ⟨rfl, rfl⟩ := runs_done.mp ends
        cases reply with
        | error reason => cases told
        | ok a =>
          cases told
          exact ⟨.ok a, rfl, rfl⟩
      · obtain ⟨reply, rfl, told⟩ := runs_store.mp called
        cases reply with
        | error reason =>
          cases told
          exact ⟨.error reason, rfl, rfl⟩
        | ok a => cases told
    · rintro ⟨reply, rfl, rfl⟩
      have called : (store call).Runs [⟨.store call, reply⟩] (some _) :=
        runs_store.mpr ⟨reply, rfl, rfl⟩
      cases reply with
      | error reason => exact runs_bind.mpr (.inr ⟨_, rfl, called⟩)
      | ok a => exact runs_bind.mpr (.inl ⟨a, _, [], rfl, called, .done _⟩)
  · rintro w reason w' met
    cases met
    rfl
  · rintro w a w' met
    cases met
    exact served w

def Refused (p : Program α) (failure : Failure) : Prop :=
  ∀ xs ending, p.Runs xs (some ending) ↔ xs = [] ∧ ending = .error failure

structure Removed (name : String) (w w' : World) : Prop where
  rest : w' = { w with entries := w'.entries }
  gone : w'.entries.get? name = none
  others : ∀ other, other ≠ name → w'.entries.get? other = w.entries.get? other

/-- The entries of a namespace are gone, `n` of them, and nothing else has changed: reads of its
keys do not find a text, and reads of other keys go as they went before. -/
structure Purged (c : Config) (answering : Answering) (ns : Namespace) (w : World) (n : Nat)
    (w' : World) : Prop where
  rest : w' = { w with entries := w'.entries }
  gone : ∀ key : Key, key.Valid → ∀ text, w.stored? key = some text →
    (w'.stored? key = none ↔ key.ns = ns)
  others : ∀ name, startsWith ns.keyStart name = false →
    w'.entries.get? name = w.entries.get? name
  counted : n = (w.entries.live w.now).countP fun pair =>
    (w'.entries.find? w.now pair.1).isNone
  unstored : ∀ key : Key, key.Valid → key.ns = ns → ∀ xs reading later,
    (read c key).Runs xs (some (.ok reading)) →
    Exchange.Follows (World.Passes answering) w' xs later → reading.provenance ≠ .stored
  alike : ∀ key : Key, key.Valid → key.ns ≠ ns → ∀ xs result, (read c key).Runs xs result →
    ∀ step ∈ [World.Meets answering, World.Passes answering],
      Reruns step key.text xs w w' ∧ Reruns step key.text xs w' w

theorem stored_of_hit {xs : List Exchange} {reading : Reading}
    (runs : (read c key).Runs xs (some (.ok reading)))
    (follows : Exchange.Follows (World.Passes answering) w xs w')
    (hit : reading.provenance = .stored) :
    ∃ text, w.stored? key = some text ∧ Json.ofText? text = some reading.value := by
  have elsewhere : ∀ {derived : Except Failure Json} {provenance : Provenance},
      .ok reading = derived.map (Reading.mk · provenance) → provenance = .stored := by
    intro derived provenance same
    cases derived with
    | error failure => cases same
    | ok v =>
      cases same
      exact hit
  generalize ended : Except.ok reading = ending at runs
  cases reads_of_runs runs with
  | refused checked => cases ended
  | hit valid read =>
    cases ended
    cases follows with | cons first rest =>
    obtain ⟨between, passed, met⟩ := first
    obtain ⟨rfl, told | ⟨_, told⟩⟩ := met.get
    · exact ⟨_, passed.stored? (Except.ok.inj told).symm, read⟩
    · cases told
  | miss valid taken derives => cases elsewhere ended
  | unreadable valid unread erased taken derives => cases elsewhere ended
  | outOfReach valid derives => cases elsewhere ended

theorem not_stored_of_missing (missing : w.stored? key = none) {xs : List Exchange}
    {reading : Reading} (runs : (read c key).Runs xs (some (.ok reading)))
    (follows : Exchange.Follows (World.Passes answering) w xs w') :
    reading.provenance ≠ .stored := by
  intro hit
  obtain ⟨_, found, _⟩ := stored_of_hit runs follows hit
  cases missing.symm.trans found

theorem removed_erase (w : World) (name : String) :
    Removed name w { w with entries := w.entries.erase name } :=
  ⟨rfl, Entries.get?_erase_self _ _, fun _ other => Entries.get?_erase_of_ne other _⟩

theorem purged_erasePrefix (c : Config) (answering : Answering) {ns : Namespace}
    (several : ns.isSingle = false) (w : World) :
    Purged c answering ns w (w.entries.countPrefix w.now ns.keyStart)
      { w with entries := w.entries.erasePrefix ns.keyStart } := by
  let w' : World := { w with entries := w.entries.erasePrefix ns.keyStart }
  have others : ∀ name, startsWith ns.keyStart name = false →
      w'.entries.get? name = w.entries.get? name := by
    intro name other
    simp only [w', Entries.get?_erasePrefix, other, Bool.false_eq_true, if_false]
  have missing : ∀ key : Key, key.Valid → key.ns = ns → w'.stored? key = none := by
    rintro key valid rfl
    have there := Key.startsWith_keyStart.mpr ⟨rfl, Key.isSome_id valid several⟩
    simp only [World.stored?, w', Entries.find?, Entries.get?_erasePrefix, there, if_true]
  have same : ∀ key : Key, key.ns ≠ ns → SameEntry key.text w w' := by
    intro key other
    refine ⟨rfl, (others key.text ?_).symm⟩
    rw [Bool.eq_false_iff]
    exact fun there => other (Key.startsWith_keyStart.mp there).1
  refine ⟨rfl, ?_, others, Entries.countPrefix_eq _ _ _, ?_, ?_⟩
  · intro key valid text found
    constructor
    · intro gone
      by_cases mine : key.ns = ns
      · exact mine
      · have kept : w'.stored? key = w.stored? key := by
          simp only [World.stored?, Entries.find?, (same key mine).2, w']
        cases (kept.symm.trans gone).symm.trans found
    · exact missing key valid
  · intro key valid mine xs reading later runs follows
    exact not_stored_of_missing (missing key valid mine) runs follows
  · intro key valid other xs result runs step either
    have regarding := regarding_read c key
    have again : ∀ w u, SameEntry key.text w u → Reruns step key.text xs w u := by
      intro w u same
      simp only [List.mem_cons, List.not_mem_nil, or_false] at either
      rcases either with rfl | rfl
      · exact reruns_of_regarding (fun _ _ _ _ may same met => same.meets may met) regarding runs
          same
      · exact reruns_of_regarding (fun _ _ _ _ may same passes => same.passes may passes) regarding
          runs same
    exact ⟨again w w' (same key other), again w' w (same key other).symm⟩

theorem purgeAll_of_several {ns : Namespace} (several : ns.isSingle = false) :
    purgeAll ns = do return id (← store (.erasePrefix ns.keyStart)) := by
  simp only [purgeAll, several, Bool.false_eq_true, if_false]
  exact (bind_pure _).symm

theorem purgeAll_of_single {ns : Namespace} (single : ns.isSingle = true) :
    purgeAll ns = do let _ ← store (.erase (Key.only ns).text); return 1 := by
  simp only [purgeAll, single, if_true]
  rfl

theorem purge_of_valid (valid : key.Valid) :
    purge key = do return id (← store (.erase key.text)) := by
  have passes : key.check = .ok () := valid
  simp only [purge, check, passes]
  exact (bind_pure _).symm

theorem purgeWithin_of_valid {ns : Namespace} {id : String} (valid : (Key.of ns id).Valid) :
    purgeWithin ns (some id) = do let _ ← store (.erase (Key.of ns id).text); return 1 := by
  have passes : (Key.of ns id).check = .ok () := valid
  simp only [purgeWithin, purge, check, passes]
  rfl

theorem refused_of_done {failure : Failure} : Refused (done (.error failure) : Program α) failure :=
  fun _ _ => runs_done

/-- Purging a namespace makes one call, and when that is served the valid keys of the namespace are
gone, as many as it answers, and no others. Purging a key, or the namespace that has a single one,
makes one call for that key and removes no other; an invalid key is refused before anything is
asked. -/
theorem purge_exact (c : Config) (answering : Answering) :
    (∀ ns : Namespace, ns.isSingle = false → ∀ p ∈ [purgeAll ns, purgeWithin ns none],
      Calls answering p (.erasePrefix ns.keyStart) id (Purged c answering ns)) ∧
    (∀ ns : Namespace, ns.isSingle = true → ∀ p ∈ [purgeAll ns, purgeWithin ns none],
      Calls answering p (.erase (Key.only ns).text) (fun _ => 1)
        fun w _ w' => Removed (Key.only ns).text w w') ∧
    (∀ key : Key, key.Valid →
      Calls answering (purge key) (.erase key.text) id fun w _ w' => Removed key.text w w') ∧
    (∀ ns id, (Key.of ns id).Valid →
      Calls answering (purgeWithin ns (some id)) (.erase (Key.of ns id).text) (fun _ => 1)
        fun w _ w' => Removed (Key.of ns id).text w w') ∧
    (∀ (key : Key) fault, key.check = .error fault → Refused (purge key) (.invalidKey fault)) ∧
    ∀ ns id fault, (Key.of ns id).check = .error fault →
      Refused (purgeWithin ns (some id)) (.invalidKey fault) := by
  have both : ∀ {ns : Namespace} {p : Program Nat}, p ∈ [purgeAll ns, purgeWithin ns none] →
      p = purgeAll ns := by
    intro ns p either
    simpa [purgeWithin] using either
  refine ⟨?_, ?_, ?_, ?_, ?_, ?_⟩
  · intro ns several p either
    rw [both either, purgeAll_of_several several]
    exact calls_of_served (purged_erasePrefix c answering several)
  · intro ns single p either
    rw [both either, purgeAll_of_single single]
    exact calls_of_served fun w => removed_erase w _
  · intro key valid
    rw [purge_of_valid valid]
    exact calls_of_served fun w => removed_erase w _
  · intro ns id valid
    rw [purgeWithin_of_valid valid]
    exact calls_of_served fun w => removed_erase w _
  · intro key fault invalid
    simp only [purge, check, invalid]
    exact refused_of_done
  · intro ns id fault invalid
    simp only [purgeWithin, purge, check, invalid]
    exact refused_of_done

end Cache

end CacheAside
