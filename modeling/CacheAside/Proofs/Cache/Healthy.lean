import CacheAside.Cache.Reading
import CacheAside.Cache.Rebuild
import CacheAside.Proofs.Cache.Derivation
import CacheAside.Proofs.Cache.Payload

namespace CacheAside

namespace World

/-- Surroundings in which nothing fails and no time passes. -/
def healthy (answers : Answers) (time : String) :
    Surroundings (fun question answer => answer = answers question) World where
  world w := w
  reply
    | .store call, w =>
      (.ok (w.entries.serve w.now call).1, { w with entries := (w.entries.serve w.now call).2 })
    | .source question, w => (answers question, w)
    | .offerRebuild job, w => (true, { w with rebuilds := w.rebuilds ++ [job] })
    | .offerPatch job, w => (true, { w with patches := w.patches ++ [job] })
    | .timestamp, w => (time, w)
  meets request w := by
    cases request with
    | store call => exact .served w call
    | source question => exact .answered w rfl
    | offerRebuild job => exact .rebuildTaken w job
    | offerPatch job => exact .patchTaken w job
    | timestamp => exact .told w time

theorem healthy_serves (answers : Answers) (time : String) : (healthy answers time).Healthy := by
  intro call w reason fails
  cases fails

def perform {α : Type} (answers : Answers) (time : String) (p : Program α) (w : World) :
    Option (Except Failure α) × World :=
  p.run (fun request w =>
    let (reply, w) := (healthy answers time).reply request w
    (some reply, w)) w

variable {α β : Type} {answers : Answers} {time : String} {w w' : World}

theorem perform_bind {p : Program α} {f : α → Program β} {a : α}
    (first : w.perform answers time p = (some (.ok a), w')) :
    w.perform answers time (p >>= f) = w'.perform answers time (f a) := by
  unfold perform at first ⊢
  change (p.bind f).run _ w = _
  rw [Program.run_bind, first]

theorem perform_bind_error {p : Program α} {f : α → Program β} {failure : Failure}
    (first : w.perform answers time p = (some (.error failure), w')) :
    w.perform answers time (p >>= f) = (some (.error failure), w') := by
  unfold perform at first ⊢
  change (p.bind f).run _ w = _
  rw [Program.run_bind, first]

theorem perform_attempt {p : Program α} {result : Except Failure α}
    (ends : w.perform answers time p = (some result, w')) :
    w.perform answers time p.attempt = (some (.ok result), w') := by
  unfold perform at ends ⊢
  rw [Program.run_attempt, ends]

theorem perform_check {key : Key} (valid : key.Valid) :
    w.perform answers time (Program.check key) = (some (.ok ()), w) := by
  have passes : key.check = .ok () := valid
  simp only [Program.check, passes]
  rfl

theorem perform_derive {c : Config} {key : Key} {v : Json} (value : answers.value? c key = some v) :
    w.perform answers time (Cache.derive c key) = (some (.ok v), w) := by
  unfold perform
  have questions := Cache.keeps_derive_questions c key
  refine (Program.run_of_questions questions w fun question => rfl).trans ?_
  change (((Cache.derive c key).run answers.reply ()).1, w) = _
  rw [Answers.run_derive value]

theorem perform_get {key : Key} :
    w.perform answers time (Program.store (.get key.text)) = (some (.ok (w.stored? key)), w) := rfl

theorem perform_erase {key : Key} :
    w.perform answers time (Program.store (.erase key.text)) =
      (some (.ok ()), { w with entries := w.entries.erase key.text }) := rfl

def looked (w : World) (key : Key) : World :=
  match w.stored? key with
  | some text =>
    if (Json.ofText? text).isNone then { w with entries := w.entries.erase key.text } else w
  | none => w

theorem looked_of_read {key : Key} {text : String} {value : Json}
    (stored : w.stored? key = some text) (read : Json.ofText? text = some value) :
    w.looked key = w := by
  simp only [looked, stored, read, Option.isNone_some, Bool.false_eq_true, if_false]

theorem looked_of_unread {key : Key} {text : String} (stored : w.stored? key = some text)
    (unread : Json.ofText? text = none) :
    w.looked key = { w with entries := w.entries.erase key.text } := by
  simp only [looked, stored, unread, Option.isNone_none, if_true]

theorem looked_eq (w : World) (key : Key) :
    w.looked key = { w with entries := (w.looked key).entries } := by
  unfold looked
  split
  · split <;> rfl
  · rfl

theorem stored?_looked {key : Key} (missing : (w.stored? key).bind Json.ofText? = none) :
    (w.looked key).stored? key = none := by
  cases stored : w.stored? key with
  | none => simp only [looked, stored]
  | some text =>
    rw [stored] at missing
    rw [looked_of_unread stored missing, stored?, Entries.find?, Entries.get?_erase_self]

end World

namespace Cache

open World

variable {answers : Answers} {time : String} {w : World} {c : Config} {key : Key} {v : Json}

theorem perform_load :
    w.perform answers time (load key) =
      (some (.ok ((w.stored? key).bind Json.ofText?)), w.looked key) := by
  rw [load, perform_bind perform_get]
  cases stored : w.stored? key with
  | none =>
    simp only [looked, stored]
    rfl
  | some text =>
    cases read : Json.ofText? text with
    | some value =>
      simp only [looked_of_read stored read, read, Option.bind_some]
      rfl
    | none =>
      simp only [looked_of_unread stored read, read, Option.bind_some]
      rw [perform_bind (perform_attempt perform_erase)]
      rfl

theorem perform_read_of_stored {text : String} {value : Json} (valid : key.Valid)
    (stored : w.stored? key = some text) (found : Json.ofText? text = some value) :
    w.perform answers time (read c key) = (some (.ok ⟨value, .stored⟩), w) := by
  have loads : w.perform answers time (Program.attempt (load key)) =
      (some (.ok (.ok ((w.stored? key).bind Json.ofText?))), w.looked key) :=
    perform_attempt perform_load
  rw [read, perform_bind (perform_check valid), perform_bind loads, looked_of_read stored found,
    stored]
  simp only [Option.bind_some, found]
  rfl

theorem perform_read_of_missing (valid : key.Valid) (value : answers.value? c key = some v)
    (missing : (w.stored? key).bind Json.ofText? = none) :
    w.perform answers time (read c key) = (some (.ok ⟨v, .derived⟩),
      { w.looked key with rebuilds := w.rebuilds ++ [.ofKey key] }) := by
  have loads : w.perform answers time (Program.attempt (load key)) =
      (some (.ok (.ok ((w.stored? key).bind Json.ofText?))), w.looked key) :=
    perform_attempt perform_load
  have offers : (w.looked key).perform answers time (Program.offerRebuild (.ofKey key)) =
      (some (.ok true), { w.looked key with rebuilds := w.rebuilds ++ [.ofKey key] }) := by
    rw [looked_eq]
    rfl
  rw [read, perform_bind (perform_check valid), perform_bind loads, missing]
  simp only
  rw [perform_bind offers, perform_bind (perform_derive value)]
  rfl

theorem perform_save_written (integral : v.Integral)
    (changed : ∀ text, w.stored? key = some text → ¬ ∃ value, Kept c v text value) :
    w.perform answers time (save c key v) = (some (.ok (written c time v)),
      { w with entries := w.entries.set w.now key.text (written c time v).text c.lifetime }) := by
  have plain : ∀ v : Json, w.perform answers time (do
      Program.store (.set key.text v.text c.lifetime)
      return v : Program Json) =
        (some (.ok v), { w with entries := w.entries.set w.now key.text v.text c.lifetime }) :=
    fun v => rfl
  unfold save
  split
  · rename_i stampField fields configured
    have renewed : (w.stored? key).bind
        (unchanged? stampField (Json.Fields.erase stampField fields)) = none := by
      cases stored : w.stored? key with
      | none => rfl
      | some text =>
        refine Option.eq_none_iff_forall_ne_some.mpr fun value unchanged => ?_
        obtain ⟨members, read, rfl, stampedBefore, same⟩ :=
          (unchanged?_eq_some (Json.integralFields_erase integral stampField)).mp unchanged
        exact changed text stored
          ⟨_, stampField, fields, members, configured, rfl, read, rfl, stampedBefore, same⟩
    rw [saveStamped, perform_bind perform_get, renewed, written_object configured]
    cases w.stored? key <;> rfl
  · rename_i unstamped
    rw [written_of_unstamped]
    · exact plain _
    · intro stampField fields configured same
      exact unstamped stampField fields configured same

theorem perform_save_kept {text : String} {value : Json} (integral : v.Integral)
    (stored : w.stored? key = some text) (kept : Kept c v text value) :
    w.perform answers time (save c key v) = (some (.ok value),
      { w with
        entries := if c.lifetime.isSome then w.entries.set w.now key.text text c.lifetime
          else w.entries }) := by
  obtain ⟨stampField, fields, members, configured, rfl, read, rfl, stampedBefore, same⟩ := kept
  have unchanged : unchanged? stampField (Json.Fields.erase stampField fields) text =
      some (.object members) :=
    (unchanged?_eq_some (Json.integralFields_erase integral stampField)).mpr
      ⟨members, read, rfl, stampedBefore, same⟩
  simp only [save, configured]
  rw [saveStamped, perform_bind perform_get, stored]
  simp only [Option.bind_some, unchanged]
  cases c.lifetime with
  | none => rfl
  | some lifetime => rfl

theorem perform_rebuild {w' : World} {value : Json} (valid : key.Valid)
    (derives : answers.value? c key = some v)
    (saves : w.perform answers time (save c key v) = (some (.ok value), w')) :
    w.perform answers time (rebuild c key) = (some (.ok value), w') := by
  rw [rebuild, perform_bind (perform_check valid), perform_bind (perform_derive derives), saves]

end Cache

end CacheAside
