import CacheAside.Cache.Editing
import CacheAside.Proofs.Cache.Payload
import CacheAside.Proofs.Cache.Reading

namespace CacheAside

def Report.only (owner : String) (outcome : Except Failure Outcome) : Report := ⟨[(owner, outcome)]⟩

namespace Cache

open Program Exchange

variable {c : Config} {ns : Namespace} {key : Key} {job : Patch} {owner : String} {v : Json}
  {xs : List Exchange}

theorem targets_only (several : ns.isSingle = false) (owner entity : String) (edit : Edit) :
    Patch.targets ⟨ns, [owner], entity, edit⟩ = [(owner, .of ns owner)] := by
  simp [Patch.targets, several]

theorem editAll_of_target (target : job.targets = [(owner, key)]) :
    editAll c job = do return .only owner (← attempt (editEntry c job key)) := by
  rw [editAll, parts, target, List.map_singleton]
  exact bind_assoc _ _ _

theorem runs_editAll_of_target {xs : List Exchange} {ending : Except Failure Report}
    (target : job.targets = [(owner, key)]) :
    (editAll c job).Runs xs (some ending) ↔
      ∃ outcome, ending = .ok (.only owner outcome) ∧
        (editEntry c job key).Runs xs (some outcome) := by
  rw [editAll_of_target target]
  constructor
  · intro runs
    rcases runs_bind.mp runs with ⟨outcome, _, _, rfl, edits, ends⟩ | ⟨_, _, edits⟩
    · obtain ⟨_, same, edits⟩ := runs_attempt.mp edits
      cases same
      obtain ⟨rfl, rfl⟩ := runs_done.mp ends
      rw [List.append_nil]
      exact ⟨outcome, rfl, edits⟩
    · obtain ⟨_, impossible, _⟩ := runs_attempt.mp edits
      cases impossible
  · rintro ⟨outcome, rfl, edits⟩
    have attempted := runs_attempt.mpr ⟨outcome, rfl, edits⟩
    exact runs_bind.mpr
      (.inl ⟨outcome, xs, [], (List.append_nil xs).symm, attempted, .done _⟩)

/-- The exchanges of the edit of an entry, and its outcome, for each thing that the store may
answer. -/
inductive Edits (c : Config) (job : Patch) (key : Key) :
    List Exchange → Except Failure Outcome → Prop
  | outOfReach (reason : String) :
    Edits c job key [⟨.store (.get key.text), .error reason⟩] (.error (.storeUnavailable reason))
  | missing {ys : List Exchange} {rebuilt : Except Failure Json}
    (rebuilds : (rebuild c key).Runs ys (some rebuilt)) :
    Edits c job key (⟨.store (.get key.text), .ok none⟩ :: ys) (rebuilt.map fun _ => .rebuilt)
  | unreadable {text : String} {ys : List Exchange} {rebuilt : Except Failure Json}
    (unread : Json.ofText? text = none) (erased : Except String Unit)
    (rebuilds : (rebuild c key).Runs ys (some rebuilt)) :
    Edits c job key (⟨.store (.get key.text), .ok (some text)⟩ ::
      ⟨.store (.erase key.text), erased⟩ :: ys) (rebuilt.map fun _ => .rebuilt)
  | notAList {text : String} {entry : Json} (read : Json.ofText? text = some entry)
    (refused : job.edit.apply job.entity entry = none) :
    Edits c job key [⟨.store (.get key.text), .ok (some text)⟩] (.error (.notAList key.text))
  | unchanged {text : String} {entry same : Json} (read : Json.ofText? text = some entry)
    (stays : job.edit.apply job.entity entry = some (false, same)) :
    Edits c job key [⟨.store (.get key.text), .ok (some text)⟩] (.ok .unchanged)
  | changed {text : String} {entry edited : Json} {ys : List Exchange}
    {saved : Except Failure Json} (read : Json.ofText? text = some entry)
    (changes : job.edit.apply job.entity entry = some (true, edited))
    (saves : (save c key edited).Runs ys (some saved)) :
    Edits c job key (⟨.store (.get key.text), .ok (some text)⟩ :: ys) (saved.map fun _ => .applied)

theorem edits_of_runs {ending : Except Failure Outcome} (valid : key.Valid)
    (runs : (editEntry c job key).Runs xs (some ending)) : Edits c job key xs ending := by
  rcases runs_checked.mp runs with ⟨_, goesOn⟩ | ⟨_, fails, _⟩
  · rcases runs_bind.mp goesOn with ⟨found, _, _, rfl, loads, goesOn⟩ | ⟨_, rfl, loads⟩
    · rcases runs_load loads with ⟨_, _, impossible⟩ | ⟨rfl, same⟩ |
        ⟨text, entry, read, rfl, same⟩ | ⟨text, erased, unread, rfl, same⟩
      · cases impossible
      · cases same
        obtain ⟨_, rebuilds, rfl⟩ := runs_andReturn.mp goesOn
        exact .missing rebuilds
      · cases same
        simp only at goesOn
        split at goesOn
        · rename_i refused
          obtain ⟨rfl, rfl⟩ := runs_done.mp goesOn
          exact .notAList read refused
        · rename_i stays
          obtain ⟨rfl, rfl⟩ := runs_done.mp goesOn
          exact .unchanged read stays
        · rename_i changes
          obtain ⟨_, saves, rfl⟩ := runs_andReturn.mp goesOn
          exact .changed read changes saves
      · cases same
        obtain ⟨_, rebuilds, rfl⟩ := runs_andReturn.mp goesOn
        exact .unreadable unread erased rebuilds
    · rcases runs_load loads with ⟨reason, rfl, same⟩ | ⟨_, impossible⟩ | ⟨_, _, _, _, impossible⟩ |
        ⟨_, _, _, _, impossible⟩
      · cases same
        exact .outOfReach reason
      all_goals cases impossible
  · cases fails.symm.trans valid

theorem runs_editEntry_unchanged
    (runs : (editEntry c job key).Runs xs (some (.ok .unchanged))) :
    storeCalls xs = [.get key.text] := by
  rcases runs_checked.mp runs with ⟨valid, _⟩ | ⟨_, _, _, impossible⟩
  · generalize told : Except.ok Outcome.unchanged = outcome at runs
    cases edits_of_runs valid runs with
    | unchanged => rfl
    | @missing _ result | @unreadable _ _ result | @changed _ _ _ _ result =>
      cases result <;> cases told
    | _ => cases told
  · cases impossible

theorem runs_set {text : String} {lifetime : Option Span} {saved : Except Failure Json}
    (runs : (do store (.set key.text text lifetime); return v : Program Json).Runs xs
      (some saved)) :
    ∃ reply : Except String Unit, xs = [⟨.store (.set key.text text lifetime), reply⟩] ∧
      saved = (reply.mapError .storeUnavailable).map fun _ => v := by
  obtain ⟨_, sets, rfl⟩ := runs_andReturn.mp runs
  obtain ⟨reply, rfl, rfl⟩ := runs_store.mp sets
  exact ⟨reply, rfl, rfl⟩

/-- The exchanges of a write and what it leaves in the store, for each thing that the store may
answer. Only an object that is to carry a stamp is compared with the text that is there. -/
inductive Saves (c : Config) (key : Key) :
    Json → List Exchange → Except Failure Json → Prop
  | plain {v : Json} (unstamped : ∀ stampField fields, c.stampField = some stampField →
      v ≠ .object fields) (reply : Except String Unit) :
    Saves c key v [⟨.store (.set key.text v.text c.lifetime), reply⟩]
      ((reply.mapError .storeUnavailable).map fun _ => v)
  | outOfReach {stampField : String} {fields : Json.Fields}
    (configured : c.stampField = some stampField) (reason : String) :
    Saves c key (.object fields) [⟨.store (.get key.text), .error reason⟩]
      (.error (.storeUnavailable reason))
  | kept {stampField text : String} {fields : Json.Fields} {stored : Json}
    (configured : c.stampField = some stampField) (everlasting : c.lifetime = none)
    (same : unchanged? stampField (Json.Fields.erase stampField fields) text = some stored) :
    Saves c key (.object fields) [⟨.store (.get key.text), .ok (some text)⟩] (.ok stored)
  | prolonged {stampField text : String} {fields : Json.Fields} {stored : Json}
    (configured : c.stampField = some stampField) (lasting : c.lifetime ≠ none)
    (same : unchanged? stampField (Json.Fields.erase stampField fields) text = some stored)
    (reply : Except String Unit) :
    Saves c key (.object fields) [⟨.store (.get key.text), .ok (some text)⟩,
        ⟨.store (.set key.text text c.lifetime), reply⟩]
      ((reply.mapError .storeUnavailable).map fun _ => stored)
  | renewed {stampField : String} {fields : Json.Fields} {found : Option String}
    (configured : c.stampField = some stampField)
    (changed : found.bind (unchanged? stampField (Json.Fields.erase stampField fields)) = none)
    (time : String) (reply : Except String Unit) :
    Saves c key (.object fields) [⟨.store (.get key.text), .ok found⟩, ⟨.timestamp, time⟩,
        ⟨.store (.set key.text (written c time (.object fields)).text c.lifetime), reply⟩]
      ((reply.mapError .storeUnavailable).map fun _ => written c time (.object fields))

theorem runs_renewed {stampField : String} {fields : Json.Fields} {found : Option String}
    {saved : Except Failure Json} (configured : c.stampField = some stampField)
    (changed : found.bind (unchanged? stampField (Json.Fields.erase stampField fields)) = none)
    (runs : (do
      let value := stamped stampField (← timestamp) (Json.Fields.erase stampField fields)
      store (.set key.text value.text c.lifetime)
      return value : Program Json).Runs xs (some saved)) :
    Saves c key (.object fields) (⟨.store (.get key.text), .ok found⟩ :: xs) saved := by
  obtain ⟨time, _, rfl, sets⟩ := runs_ask.mp runs
  obtain ⟨reply, rfl, rfl⟩ := runs_set sets
  have saves : Saves c key (.object fields) _ _ := .renewed configured changed time reply
  rwa [written_object configured] at saves

theorem saves_of_runs {saved : Except Failure Json} (runs : (save c key v).Runs xs (some saved)) :
    Saves c key v xs saved := by
  unfold save at runs
  split at runs
  · rename_i stampField fields configured
    rcases runs_bind.mp runs with ⟨found, _, _, rfl, looks, goesOn⟩ | ⟨_, rfl, looks⟩
    · obtain ⟨reply, rfl, told⟩ := runs_store.mp looks
      cases reply with
      | error reason => cases told
      | ok =>
        cases told
        cases found with
        | none => exact runs_renewed configured rfl goesOn
        | some text =>
          cases same : unchanged? stampField (Json.Fields.erase stampField fields) text with
          | none =>
            simp only [Option.bind_some, same] at goesOn
            exact runs_renewed configured same goesOn
          | some stored =>
            simp only [Option.bind_some, same] at goesOn
            split at goesOn
            · rename_i lasting
              obtain ⟨reply, rfl, rfl⟩ := runs_set goesOn
              exact .prolonged configured (Option.isSome_iff_ne_none.mp lasting) same reply
            · rename_i everlasting
              obtain ⟨rfl, rfl⟩ := runs_done.mp goesOn
              exact .kept configured (by simpa using everlasting) same
    · obtain ⟨reply, rfl, told⟩ := runs_store.mp looks
      cases reply with
      | ok => cases told
      | error reason =>
        cases told
        exact .outOfReach configured reason
  · rename_i unstamped
    obtain ⟨reply, rfl, rfl⟩ := runs_set runs
    exact .plain unstamped reply

theorem runs_save_array {items : List Json} {saved : Except Failure Json}
    (runs : (save c key (.array items)).Runs xs (some saved)) :
    ∃ reply : Except String Unit,
      xs = [⟨.store (.set key.text (Json.array items).text c.lifetime), reply⟩] := by
  cases saves_of_runs runs with
  | plain _ reply => exact ⟨reply, rfl⟩

theorem Edits.looks {outcome : Except Failure Outcome} (edits : Edits c job key xs outcome) :
    ∃ (reply : Except String (Option String)) (ys : List Exchange),
      xs = ⟨.store (.get key.text), reply⟩ :: ys := by
  cases edits <;> exact ⟨_, _, rfl⟩

/-- What becomes of an entry that the edit has found and can read: it is refused, it stays, or it is
written. -/
theorem Edits.of_found {text : String} {entry : Json} (read : Json.ofText? text = some entry)
    {outcome : Except Failure Outcome}
    (edits : Edits c job key (⟨.store (.get key.text), .ok (some text)⟩ :: xs) outcome) :
    (job.edit.apply job.entity entry = none ∧ xs = [] ∧ outcome = .error (.notAList key.text)) ∨
      (∃ same, job.edit.apply job.entity entry = some (false, same) ∧ xs = [] ∧
        outcome = .ok .unchanged) ∨
      ∃ edited saved, job.edit.apply job.entity entry = some (true, edited) ∧
        Saves c key edited xs saved ∧ outcome = saved.map fun _ => .applied := by
  cases edits with
  | unreadable unread => cases unread.symm.trans read
  | notAList again refused =>
    cases again.symm.trans read
    exact .inl ⟨refused, rfl, rfl⟩
  | unchanged again stay =>
    cases again.symm.trans read
    exact .inr (.inl ⟨_, stay, rfl, rfl⟩)
  | changed again changes saves =>
    cases again.symm.trans read
    exact .inr (.inr ⟨_, _, changes, saves_of_runs saves, rfl⟩)

theorem Edits.of_stored {σ : Type} {answering : Answering} {around : Surroundings answering σ}
    (healthy : around.Healthy) {s s' : σ} {text : String} {entry : Json}
    (found : (around.world s).stored? key = some text) (read : Json.ofText? text = some entry)
    {outcome : Except Failure Outcome} (edits : Edits c job key xs outcome)
    (follows : around.Follows s xs s') :
    ∃ ys between, xs = ⟨.store (.get key.text), .ok (some text)⟩ :: ys ∧
      around.world between = around.world s ∧ around.Follows between ys s' ∧
      ((job.edit.apply job.entity entry = none ∧ ys = [] ∧
          outcome = .error (.notAList key.text)) ∨
        (∃ same, job.edit.apply job.entity entry = some (false, same) ∧ ys = [] ∧
          outcome = .ok .unchanged) ∨
        ∃ edited saved, job.edit.apply job.entity entry = some (true, edited) ∧
          Saves c key edited ys saved ∧ outcome = saved.map fun _ => .applied) := by
  obtain ⟨reply, ys, rfl⟩ := edits.looks
  cases follows with
  | @cons _ between _ _ _ first rest =>
    obtain ⟨told, stays⟩ := healthy.served first
    obtain rfl : reply = .ok (some text) := told.trans (congrArg Except.ok found)
    exact ⟨ys, between, rfl, stays, rest, edits.of_found read⟩

end Cache

end CacheAside
