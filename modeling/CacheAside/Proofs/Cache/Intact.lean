import CacheAside.Proofs.Cache.Editing
import CacheAside.Proofs.Cache.Rebuilding
import CacheAside.Proofs.Cache.SweepJobs

namespace CacheAside

/-- Calls that look, and after them at most one that writes the entry. -/
def StoreCall.WriteLast (name : String) (looks : StoreCall → Prop) (calls : List StoreCall) :
    Prop :=
  ∃ before last, calls = before ++ last ∧ (∀ call ∈ before, looks call) ∧
    (last = [] ∨ ∃ text lifetime, last = [.set name text lifetime])

namespace StoreCall

variable {name : String} {looks looks' : StoreCall → Prop} {call : StoreCall}
  {calls : List StoreCall}

theorem WriteLast.nil : WriteLast name looks [] := ⟨[], [], rfl, List.forall_mem_nil _, .inl rfl⟩

theorem WriteLast.set (text : String) (lifetime : Option Span) :
    WriteLast name looks [.set name text lifetime] :=
  ⟨[], _, rfl, List.forall_mem_nil _, .inr ⟨text, lifetime, rfl⟩⟩

theorem WriteLast.cons (look : looks call) (rest : WriteLast name looks calls) :
    WriteLast name looks (call :: calls) := by
  obtain ⟨before, last, rfl, all, ends⟩ := rest
  exact ⟨call :: before, last, rfl, List.forall_mem_cons.mpr ⟨look, all⟩, ends⟩

theorem WriteLast.mono (write : WriteLast name looks calls)
    (implied : ∀ call, looks call → looks' call) : WriteLast name looks' calls := by
  obtain ⟨before, last, rfl, all, ends⟩ := write
  exact ⟨before, last, rfl, fun call there => implied call (all call there), ends⟩

end StoreCall

namespace Program

open Exchange StoreCall

variable {α : Type} {p : Program α} {name : String} {xs : List Exchange}
  {ending : Except Failure α}

theorem WritesLast.calls (last : WritesLast p) (within : Abides (asking (Cache.Within name)) p)
    (runs : p.Runs xs (some ending)) : WriteLast name (· = .get name) (storeCalls xs) := by
  -- Only a call that looks has others after it.
  induction last generalizing xs with
  | done =>
    obtain ⟨rfl, _⟩ := runs_done.mp runs
    exact .nil
  | asks rest ih =>
    obtain ⟨answer, others, rfl, after⟩ := runs_ask.mp runs
    change WriteLast name _ (storeCalls others)
    exact ih answer (within.2 answer True.intro) after
  | stamps rest ih =>
    obtain ⟨time, others, rfl, after⟩ := runs_ask.mp runs
    change WriteLast name _ (storeCalls others)
    exact ih time (within.2 time True.intro) after
  | looks fails rest ih =>
    obtain ⟨reply, others, rfl, after⟩ := runs_ask.mp runs
    obtain ⟨same, goesOn⟩ := within
    cases same
    cases reply with
    | error reason =>
      rw [fails] at after
      obtain ⟨rfl, _⟩ := runs_done.mp after
      exact .cons rfl .nil
    | ok found => exact .cons rfl (ih found (goesOn (.ok found) True.intro) after)
  | writes fails ends =>
    obtain ⟨reply, others, rfl, after⟩ := runs_ask.mp runs
    obtain ⟨same, _⟩ := within
    cases same
    cases reply with
    | error reason =>
      rw [fails] at after
      obtain ⟨rfl, _⟩ := runs_done.mp after
      exact .set _ _
    | ok =>
      rw [ends] at after
      obtain ⟨rfl, _⟩ := runs_done.mp after
      exact .set _ _

end Program

namespace Cache

open Program Exchange StoreCall

variable {c : Config} {key : Key} {job : Patch} {answering : Answering} {w w' : World}
  {xs : List Exchange}

/-- A rebuild of a key that leaves everything as it was unless it succeeds. The entry is called
only after the source has given a value. -/
structure Intact {α : Type} (c : Config) (key : Key) (w : World) (xs : List Exchange)
    (ending : Except Failure α) (w' : World) : Prop where
  calls : WriteLast key.text (· = .get key.text) (storeCalls xs)
  derived : ∃ fetched rest, xs = fetched ++ rest ∧ storeCalls fetched = [] ∧
    (rest ≠ [] → ∃ value, (derive c key).Runs fetched (some (.ok value)))
  unchanged : ∀ failure, ending = .error failure → w' = w

theorem intact_rebuild {ending : Except Failure Json}
    (runs : (rebuild c key).Runs xs (some ending))
    (follows : Follows (World.Meets answering) w xs w') : Intact c key w xs ending w' where
  calls := (writesLast_rebuild c key).calls (within_rebuild c key) runs
  derived := by
    rcases runs_checked.mp runs with ⟨_, goesOn⟩ | ⟨_, _, rfl, _⟩
    · rcases runs_bind.mp goesOn with ⟨v, fetched, rest, rfl, derives, _⟩ | ⟨_, _, derives⟩
      · have silent := storeCalls_of_questions (questions_of_derives derives).1
        exact ⟨fetched, rest, rfl, silent, fun _ => ⟨v, derives⟩⟩
      · have silent := storeCalls_of_questions (questions_of_derives derives).1
        exact ⟨xs, [], (List.append_nil xs).symm, silent, fun more => absurd rfl more⟩
    · exact ⟨[], [], rfl, rfl, fun more => absurd rfl more⟩
  unchanged := ((writesLast_rebuild c key).spares runs follows).unchanged

theorem error_of_map {α β : Type} {result : Except Failure α} {f : α → β} {failure : Failure}
    (fails : result.map f = .error failure) : result = .error failure := by
  cases result with
  | ok => cases fails
  | error => exact congrArg _ (Except.error.inj fails)

theorem intact_carryOut {job : Rebuild} {ending : Except Failure Unit}
    (about : job.target? = some key) (runs : (carryOut c job).Runs xs (some ending))
    (follows : Follows (World.Meets answering) w xs w') : Intact c key w xs ending w' := by
  rw [carryOut_of_target about] at runs
  obtain ⟨result, rebuilds, rfl⟩ := runs_andReturn.mp runs
  obtain ⟨calls, derived, unchanged⟩ := intact_rebuild rebuilds follows
  exact ⟨calls, derived, fun failure fails => unchanged failure (error_of_map fails)⟩

/-- An edit of an entry that leaves everything as it was unless it succeeds, but for a text that
could not be read. -/
structure EditedIntact (key : Key) (w : World) (xs : List Exchange)
    (outcome : Except Failure Outcome) (w' : World) : Prop where
  calls : WriteLast key.text (fun call => call = .get key.text ∨ call = .erase key.text)
    (storeCalls xs)
  unchanged : ∀ failure, outcome = .error failure → w' = w ∨
    (∃ text, w.stored? key = some text ∧ Json.ofText? text = none) ∧
      w' = { w with entries := w.entries.erase key.text }

theorem EditedIntact.looked {reply : Except String (Option String)}
    {outcome : Except Failure Outcome}
    (calls : WriteLast key.text (· = .get key.text) (storeCalls xs))
    (unchanged : ∀ failure, outcome = .error failure → w' = w) :
    EditedIntact key w (⟨.store (.get key.text), reply⟩ :: xs) outcome w' where
  calls := .cons (.inl rfl) (calls.mono fun _ => .inl)
  unchanged failure fails := .inl (unchanged failure fails)

theorem Edits.intact {outcome : Except Failure Outcome} (edits : Edits c job key xs outcome)
    (follows : Follows (World.Meets answering) w xs w') : EditedIntact key w xs outcome w' := by
  cases follows with
  | nil => cases edits
  | @cons _ between _ x rest first goesOn =>
    cases edits with
    | outOfReach | notAList | unchanged =>
      cases goesOn
      obtain ⟨rfl, _⟩ := first.get
      exact .looked .nil fun _ _ => rfl
    | missing rebuilds =>
      obtain ⟨rfl, _⟩ := first.get
      obtain ⟨calls, _, unchanged⟩ := intact_rebuild rebuilds goesOn
      exact .looked calls fun failure fails => unchanged failure (error_of_map fails)
    | @changed _ _ edited _ _ _ _ saves =>
      obtain ⟨rfl, _⟩ := first.get
      have within : Abides (asking (Within key.text)) (save c key edited) :=
        (granted_within c key).save fun _ => rfl
      have last := writesLast_save c key edited
      exact .looked (last.calls within saves) fun failure fails =>
        (last.spares saves goesOn).unchanged failure (error_of_map fails)
    | @unreadable text _ _ unread _ rebuilds =>
      obtain ⟨rfl, told⟩ := first.get
      have stored : between.stored? key = some text := by
        rcases told with told | ⟨_, impossible⟩
        · exact (Except.ok.inj told).symm
        · cases impossible
      cases goesOn with | cons erase goesOn =>
      obtain ⟨calls, _, unchanged⟩ := intact_rebuild rebuilds goesOn
      refine ⟨.cons (.inl rfl) (.cons (.inr rfl) (calls.mono fun _ => .inl)), ?_⟩
      intro failure fails
      rw [unchanged failure (error_of_map fails)]
      rcases erase.erase with same | same
      · exact .inl same
      · exact .inr ⟨⟨text, stored, unread⟩, same⟩

theorem intact_editEntry {outcome : Except Failure Outcome}
    (runs : (editEntry c job key).Runs xs (some outcome))
    (follows : Follows (World.Meets answering) w xs w') : EditedIntact key w xs outcome w' := by
  rcases runs_checked.mp runs with ⟨valid, _⟩ | ⟨_, _, rfl, _⟩
  · exact (edits_of_runs valid runs).intact follows
  · cases follows
    exact ⟨.nil, fun _ _ => .inl rfl⟩

/-- Whatever calls of the store and answers of the source fail: a rebuild of a key, valid or not,
calls no entry but that of the key, looks at it before it writes it and after the source has given
the value, and erases nothing; a job about the key and the rebuild of the state do the same. An edit
of an entry calls that entry alone as well and writes it last, and it may erase it before. If one of
them fails every entry is as it was, unless the edit has erased a text that could not be read. -/
theorem failed_write_intact (c : Config) (answering : Answering) (w : World) :
    (∀ key xs ending w', (rebuild c key).Runs xs (some ending) →
      Follows (World.Meets answering) w xs w' → Intact c key w xs ending w') ∧
    (∀ job key xs ending w', Rebuild.target? job = some key →
      (carryOut c job).Runs xs (some ending) → Follows (World.Meets answering) w xs w' →
      Intact c key w xs ending w') ∧
    (∀ xs ending w', (rebuildState c).Runs xs (some ending) →
      Follows (World.Meets answering) w xs w' → Intact c (.only .state) w xs ending w') ∧
    (∀ job key xs outcome w', (editEntry c job key).Runs xs (some outcome) →
      Follows (World.Meets answering) w xs w' → EditedIntact key w xs outcome w') ∧
    ∀ job owner key xs ending w', Patch.targets job = [(owner, key)] →
      (editAll c job).Runs xs (some ending) → Follows (World.Meets answering) w xs w' →
      ∃ outcome, ending = .ok (.only owner outcome) ∧ EditedIntact key w xs outcome w' := by
  refine ⟨fun _ _ _ _ => intact_rebuild, fun _ _ _ _ _ => intact_carryOut,
    fun _ _ _ => intact_rebuild, fun _ _ _ _ _ => intact_editEntry, ?_⟩
  intro job owner key xs ending w' target runs follows
  obtain ⟨outcome, rfl, edits⟩ := (runs_editAll_of_target target).mp runs
  exact ⟨outcome, rfl, intact_editEntry edits follows⟩

def garbled : World := { World.empty with entries := .ofList [("collections:42", "[")] }

/-- A rebuild that cannot write leaves a garbled listing there; a patch has erased it by the time
that it finds the source out of reach. -/
theorem failed_write_intact_garbled :
    let key := Key.of .collections "42"
    (∃ xs, (rebuild .standard key).Runs xs (some (.error (.storeUnavailable "down"))) ∧
      (∃ w', Follows (World.Meets fun _ _ => True) garbled xs w') ∧
      ∀ w', Follows (World.Meets fun _ _ => True) garbled xs w' → w' = garbled) ∧
    ∃ xs w', (editAll .standard ⟨.collections, ["42"], "E", .remove⟩).Runs xs
        (some (.ok (.only "42" (.error (.source key.text (.backend "down")))))) ∧
      Follows (World.Meets fun _ _ => True) garbled xs w' ∧
      w' = { garbled with entries := garbled.entries.erase key.text } ∧
      ∃ outcome, EditedIntact key garbled xs outcome w' := by
  intro key
  have stored : garbled.entries.find? 0 key.text = some "[" :=
    Entries.find?_of_live (Entries.get?_insert_self ..) rfl
  obtain ⟨rebuilds, _, _, _, edits⟩ := failed_write_intact .standard (fun _ _ => True) garbled
  constructor
  · let xs : List Exchange := [⟨.source (.collections "42"), .ok (some [])⟩,
      ⟨.store (.set key.text "[]" none), .error "down"⟩]
    have runs : (rebuild .standard key).Runs xs (some (.error (.storeUnavailable "down"))) :=
      .ask _ (.ask _ (.done _))
    have fails : Follows (World.Meets fun _ _ => True) garbled xs garbled :=
      .cons (.answered _ True.intro) (.cons (.failed ..) (.nil _))
    exact ⟨xs, runs, ⟨_, fails⟩, fun w' follows =>
      (rebuilds _ _ _ w' runs follows).unchanged _ rfl⟩
  · let xs : List Exchange := [⟨.store (.get key.text), .ok (some "[")⟩,
      ⟨.store (.erase key.text), .ok ()⟩, ⟨.source (.collections "42"), .error "down"⟩]
    have runs : (editAll .standard ⟨.collections, ["42"], "E", .remove⟩).Runs xs
        (some (.ok (.only "42" (.error (.source key.text (.backend "down")))))) :=
      .ask _ (.ask _ (.ask _ (.done _)))
    have first : garbled.Meets (fun _ _ => True)
        ⟨.store (.get key.text), .ok (some "[")⟩ garbled := by
      rw [← stored]
      exact .served garbled (.get key.text)
    have follows : Follows (World.Meets fun _ _ => True) garbled xs
        { garbled with entries := garbled.entries.erase key.text } :=
      .cons first (.cons (.served _ (.erase key.text)) (.cons (.answered _ True.intro) (.nil _)))
    obtain ⟨outcome, _, intact⟩ := edits _ "42" key _ _ _ rfl runs follows
    exact ⟨xs, _, runs, follows, rfl, outcome, intact⟩

end Cache

end CacheAside
