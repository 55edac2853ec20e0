import CacheAside.Proofs.Cache.FanOut
import CacheAside.Proofs.Edits

namespace CacheAside

namespace Cache

open Program
open Json (Fields)

/-- A value that can be told from its text: its numbers can be written, and its objects are maps. -/
def WellMade (v : Json) : Prop := v.Finite ∧ v.Sorted

def fresh (c : Config) (w : World) (text : String) : Entry :=
  ⟨text, c.lifetime.map fun span => w.now + span.toNanos⟩

def restampedText (stampField time : String) (fields : Fields) : String :=
  (stamped stampField time (Fields.erase stampField fields)).text

/-- In two worlds an entry holds the same object, written at the present instant with a stamp. -/
structure Stamps (c : Config) (outages : Outages) (name stampField : String) (fields : Fields)
    (time time' : String) (u v : World) : Prop where
  configured : c.stampField = some stampField
  writable : outages "set" name = none
  wellMade : WellMade (.object fields)
  first : u.entries.get? name = some (fresh c u (restampedText stampField time fields))
  second : v.entries.get? name = some (fresh c v (restampedText stampField time' fields))

structure Similar (c : Config) (outages : Outages) (name : String) (u v : World) : Prop where
  now : u.now = v.now
  entry : u.entries.get? name = v.entries.get? name ∨
    ∃ stampField fields time time', Stamps c outages name stampField fields time time' u v

variable {α β : Type} {c : Config} {outages : Outages} {answers : Answers} {key : Key} {job : Patch}
  {name stampField time time' : String} {fields payload : Fields} {value : Json} {u u' v v' : World}

theorem SameEntry.trans {w : World} (first : SameEntry name u v) (second : SameEntry name v w) :
    SameEntry name u w :=
  ⟨first.1.trans second.1, first.2.trans second.2⟩

theorem get?_set (w : World) (name text : String) :
    (w.entries.set w.now name text c.lifetime).get? name = some (fresh c w text) :=
  Entries.get?_insert_self ..

theorem Stamps.symm (stamps : Stamps c outages name stampField fields time time' u v) :
    Stamps c outages name stampField fields time' time v u :=
  ⟨stamps.configured, stamps.writable, stamps.wellMade, stamps.second, stamps.first⟩

theorem Stamps.find? (stamps : Stamps c outages name stampField fields time time' u v) :
    u.entries.find? u.now name =
      if (fresh c u (restampedText stampField time fields)).isLive u.now then
        some (restampedText stampField time fields)
      else none := by
  rw [Entries.find?, stamps.first]
  rfl

namespace Similar

theorem of_sameEntry (same : SameEntry name u v) : Similar c outages name u v :=
  ⟨same.1, .inl same.2⟩

theorem symm (similar : Similar c outages name u v) : Similar c outages name v u := by
  obtain ⟨now, same | ⟨stampField, fields, time, time', stamps⟩⟩ := similar
  · exact ⟨now.symm, .inl same.symm⟩
  · exact ⟨now.symm, .inr ⟨stampField, fields, time', time, stamps.symm⟩⟩

theorem congr (first : SameEntry name u u') (similar : Similar c outages name u' v')
    (second : SameEntry name v v') : Similar c outages name u v := by
  obtain ⟨now, same | ⟨stampField, fields, time, time', stamps⟩⟩ := similar
  · exact ⟨first.1.trans (now.trans second.1.symm),
      .inl (first.2.trans (same.trans second.2.symm))⟩
  · refine ⟨first.1.trans (now.trans second.1.symm), .inr ⟨stampField, fields, time, time', ?_⟩⟩
    obtain ⟨configured, writable, wellMade, here, there⟩ := stamps
    refine ⟨configured, writable, wellMade, first.2.trans ?_, second.2.trans ?_⟩
    · rw [here, fresh, fresh, first.1]
    · rw [there, fresh, fresh, second.1]

theorem erase (similar : Similar c outages name u v) :
    Similar c outages name { u with entries := u.entries.erase name }
      { v with entries := v.entries.erase name } :=
  ⟨similar.now, .inl (by simp only [Entries.get?_erase_self])⟩

theorem set (similar : Similar c outages name u v) (text : String) :
    Similar c outages name { u with entries := u.entries.set u.now name text c.lifetime }
      { v with entries := v.entries.set v.now name text c.lifetime } :=
  ⟨similar.now, .inl (by rw [get?_set u, get?_set v, fresh, fresh, similar.now])⟩

theorem stamp (similar : Similar c outages name u v) (configured : c.stampField = some stampField)
    (writable : outages "set" name = none) (wellMade : WellMade (.object fields))
    (time time' : String) :
    Similar c outages name
      { u with entries :=
        u.entries.set u.now name (restampedText stampField time fields) c.lifetime }
      { v with entries :=
        v.entries.set v.now name (restampedText stampField time' fields) c.lifetime } :=
  ⟨similar.now, .inr ⟨stampField, fields, time, time', configured, writable, wellMade,
    get?_set .., get?_set ..⟩⟩

theorem seen (similar : Similar c outages name u v) :
    u.entries.find? u.now name = v.entries.find? v.now name ∨
      ∃ stampField fields time time', Stamps c outages name stampField fields time time' u v ∧
        u.entries.find? u.now name = some (restampedText stampField time fields) ∧
        v.entries.find? v.now name = some (restampedText stampField time' fields) := by
  obtain ⟨now, same | ⟨stampField, fields, time, time', stamps⟩⟩ := similar
  · exact .inl (by rw [Entries.find?, Entries.find?, same, now])
  · have here := stamps.find?
    have there := stamps.symm.find?
    have alike : (fresh c u (restampedText stampField time fields)).isLive u.now =
        (fresh c v (restampedText stampField time' fields)).isLive v.now := by
      simp only [fresh, Entry.isLive, now]
    rw [alike] at here
    cases live : (fresh c v (restampedText stampField time' fields)).isLive v.now with
    | false =>
      rw [live] at here there
      exact .inl (here.trans there.symm)
    | true =>
      rw [live] at here there
      exact .inr ⟨stampField, fields, time, time', stamps, here, there⟩

end Similar

theorem Stamps.again (stamps : Stamps c outages name stampField fields time time' u v) :
    SameEntry name
      { u with entries :=
        u.entries.set u.now name (restampedText stampField time fields) c.lifetime } u :=
  ⟨rfl, (get?_set u name _).trans stamps.first.symm⟩

theorem finish_store (call : StoreCall) (w : World) :
    (World.regular outages answers time).finish (store call) w =
      match outages call.name call.key with
      | some reason => (.error (.storeUnavailable reason), w)
      | none => (.ok (w.entries.serve w.now call).1,
          { w with entries := (w.entries.serve w.now call).2 }) := by
  rw [store, Surroundings.finish]
  simp only [World.regular]
  cases outages call.name call.key <;> rfl

theorem finish_get (w : World) :
    (World.regular outages answers time).finish (store (.get name)) w =
      match outages "get" name with
      | some reason => (.error (.storeUnavailable reason), w)
      | none => (.ok (w.entries.find? w.now name), w) :=
  finish_store (.get name) w

theorem finish_erase (w : World) :
    (World.regular outages answers time).finish (store (.erase name)) w =
      match outages "delete" name with
      | some reason => (.error (.storeUnavailable reason), w)
      | none => (.ok (), { w with entries := w.entries.erase name }) :=
  finish_store (.erase name) w

theorem finish_set (text : String) (lifetime : Option Span) (w : World) :
    (World.regular outages answers time).finish (store (.set name text lifetime)) w =
      match outages "set" name with
      | some reason => (.error (.storeUnavailable reason), w)
      | none => (.ok (), { w with entries := w.entries.set w.now name text lifetime }) :=
  finish_store (.set name text lifetime) w

/-- Both have ended well or both badly, and the entries differ in their stamps alone. -/
structure Together (c : Config) (outages : Outages) (name : String)
    (first second : Except Failure α × World) : Prop where
  ends : first.1.isOk = second.1.isOk
  similar : Similar c outages name first.2 second.2

theorem Together.returns {p q : Program α} (a b : β)
    (together : Together c outages name ((World.regular outages answers time).finish p u)
      ((World.regular outages answers time').finish q v)) :
    Together c outages name
      ((World.regular outages answers time).finish (do let _ ← p; return a) u)
      ((World.regular outages answers time').finish (do let _ ← q; return b) v) := by
  obtain ⟨ends, similar⟩ := together
  rw [Surroundings.finish_bind, Surroundings.finish_bind]
  generalize (World.regular outages answers time).finish p u = first at ends similar ⊢
  generalize (World.regular outages answers time').finish q v = second at ends similar ⊢
  obtain ⟨result, u'⟩ := first
  obtain ⟨result', v'⟩ := second
  cases result <;> cases result' <;> first | exact ⟨rfl, similar⟩ | cases ends

theorem unchanged?_restampedText (wellMade : WellMade (.object fields)) (stampField time : String)
    (payload : Fields) :
    unchanged? stampField payload (restampedText stampField time fields) =
      if (Json.object (Fields.erase stampField fields)).depth ≤ Json.nestingLimit ∧
          Json.sameFields (Json.rereadFields (Fields.erase stampField fields)) payload then
        some (.object (retold stampField time (Fields.erase stampField fields)))
      else none := by
  rw [unchanged?, restampedText, ofText?_stamped wellMade.1 wellMade.2]
  by_cases shallow : (Json.object (Fields.erase stampField fields)).depth ≤ Json.nestingLimit
  · simp only [shallow, if_true, find?_retold, erase_retold, Fields.erase_idem,
      Option.isSome_some, true_and]
  · simp only [shallow, false_and, if_false]

theorem finish_saveStamped (payload : Fields) (w : World) :
    (World.regular outages answers time).finish (saveStamped c key stampField payload) w =
      match outages "get" key.text with
      | some reason => (.error (.storeUnavailable reason), w)
      | none =>
        let found := w.entries.find? w.now key.text
        match found, found.bind (unchanged? stampField payload) with
        | some text, some stored =>
          if c.lifetime.isSome then (World.regular outages answers time).finish (do
            store (.set key.text text c.lifetime); return stored : Program Json) w
          else (.ok stored, w)
        | _, _ => (World.regular outages answers time).finish (do
            store (.set key.text (stamped stampField time payload).text c.lifetime)
            return stamped stampField time payload : Program Json) w := by
  rw [saveStamped, Surroundings.finish_bind, finish_get]
  cases outages "get" key.text with
  | some reason => rfl
  | none =>
    cases w.entries.find? w.now key.text with
    | none => rfl
    | some text =>
      simp only [Option.bind_some]
      cases unchanged? stampField payload text with
      | none => rfl
      | some stored => cases c.lifetime.isSome <;> simp only <;> rfl

theorem together_set {text text' : String} (similar : Similar c outages key.text u v)
    (written : outages "set" key.text = none → Similar c outages key.text
      { u with entries := u.entries.set u.now key.text text c.lifetime }
      { v with entries := v.entries.set v.now key.text text' c.lifetime }) (a b : α) :
    Together c outages key.text
      ((World.regular outages answers time).finish
        (do store (.set key.text text c.lifetime); return a) u)
      ((World.regular outages answers time').finish
        (do store (.set key.text text' c.lifetime); return b) v) := by
  have both : Together c outages key.text
      ((World.regular outages answers time).finish (store (.set key.text text c.lifetime)) u)
      ((World.regular outages answers time').finish
        (store (.set key.text text' c.lifetime)) v) := by
    rw [finish_set, finish_set]
    cases writable : outages "set" key.text with
    | some reason => exact ⟨rfl, similar⟩
    | none =>
      simp only
      exact ⟨rfl, written writable⟩
  exact both.returns a b

theorem together_saveStamped (configured : c.stampField = some stampField)
    (wellMade : WellMade (.object fields)) (similar : Similar c outages key.text u v)
    (time time' : String) :
    let payload := Fields.erase stampField fields
    Together c outages key.text
      ((World.regular outages answers time).finish (saveStamped c key stampField payload) u)
      ((World.regular outages answers time').finish (saveStamped c key stampField payload) v) := by
  intro payload
  have renewed : Together c outages key.text
      ((World.regular outages answers time).finish (do
        store (.set key.text (stamped stampField time payload).text c.lifetime)
        return stamped stampField time payload : Program Json) u)
      ((World.regular outages answers time').finish (do
        store (.set key.text (stamped stampField time' payload).text c.lifetime)
        return stamped stampField time' payload : Program Json) v) := by
    apply together_set similar
    intro writable
    exact similar.stamp configured writable wellMade time time'
  rw [finish_saveStamped, finish_saveStamped]
  cases outages "get" key.text with
  | some reason => exact ⟨rfl, similar⟩
  | none =>
    rcases similar.seen with same | ⟨stampField', fields', told, told', stamps, here, there⟩
    · simp only [same]
      cases v.entries.find? v.now key.text with
      | none => exact renewed
      | some text =>
        simp only [Option.bind_some]
        cases unchanged? stampField payload text with
        | none => exact renewed
        | some stored =>
          simp only
          split
          · exact together_set similar (fun _ => similar.set text) stored stored
          · exact ⟨rfl, similar⟩
    · obtain rfl : stampField = stampField' := Option.some.inj (configured.symm.trans
        stamps.configured)
      simp only [here, there, Option.bind_some, unchanged?_restampedText stamps.wellMade]
      by_cases stays : (Json.object (Fields.erase stampField fields')).depth ≤ Json.nestingLimit ∧
          Json.sameFields (Json.rereadFields (Fields.erase stampField fields')) payload
      · simp only [if_pos stays]
        split
        · exact together_set similar
            (fun _ => .congr stamps.again similar stamps.symm.again) _ _
        · exact ⟨rfl, similar⟩
      · simp only [if_neg stays]
        exact renewed

theorem together_save (answers : Answers)
    (wellMade : ∀ fields, value = .object fields → WellMade value)
    (similar : Similar c outages key.text u v) (time time' : String) :
    Together c outages key.text ((World.regular outages answers time).finish (save c key value) u)
      ((World.regular outages answers time').finish (save c key value) v) := by
  unfold save
  split
  · rename_i stampField fields configured
    exact together_saveStamped configured (wellMade fields rfl) similar time time'
  · exact together_set similar (fun _ => similar.set _) _ _

theorem finish_questions (outages : Outages) {p : Program α} {returns : α → Prop}
    {fails : Failure → Prop} (questions : p.Keeps questionsOnly returns fails) (time : String)
    (w : World) :
    ∃ result, p.run answers.reply () = (some result, ()) ∧
      (World.regular outages answers time).finish p w = (result, w) := by
  induction p with
  | done result => exact ⟨result, rfl, rfl⟩
  | ask request next ih =>
    obtain ⟨⟨question, rfl⟩, rest⟩ := questions
    exact ih _ (rest _ True.intro)

theorem together_rebuild (wellMade : ∀ value, answers.value? c key = some value → WellMade value)
    (similar : Similar c outages key.text u v) (time time' : String) :
    Together c outages key.text ((World.regular outages answers time).finish (rebuild c key) u)
      ((World.regular outages answers time').finish (rebuild c key) v) := by
  have questions := keeps_derive_questions c key
  obtain ⟨result, derived, here⟩ := finish_questions outages questions time u
  obtain ⟨_, again, there⟩ := finish_questions outages questions time' v
  cases derived.symm.trans again
  rw [rebuild, check]
  cases key.check with
  | error fault => exact ⟨rfl, similar⟩
  | ok =>
    change Together c outages key.text
      ((World.regular outages answers time).finish (derive c key >>= save c key) u)
      ((World.regular outages answers time').finish (derive c key >>= save c key) v)
    rw [Surroundings.finish_bind, Surroundings.finish_bind, here, there]
    cases result with
    | error failure => exact ⟨rfl, similar⟩
    | ok value =>
      refine together_save answers (fun fields _ => wellMade value ?_) similar time time'
      exact Answers.value?_eq_some derived

theorem finish_load (w : World) :
    (World.regular outages answers time).finish (load key) w =
      match outages "get" key.text with
      | some reason => (.error (.storeUnavailable reason), w)
      | none =>
        match w.entries.find? w.now key.text with
        | none => (.ok none, w)
        | some text =>
          match Json.ofText? text with
          | some entry => (.ok (some entry), w)
          | none =>
            (.ok none, match outages "delete" key.text with
              | some _ => w
              | none => { w with entries := w.entries.erase key.text }) := by
  rw [load, Surroundings.finish_bind, finish_get]
  cases outages "get" key.text with
  | some reason => rfl
  | none =>
    cases w.entries.find? w.now key.text with
    | none => rfl
    | some text =>
      simp only
      cases Json.ofText? text with
      | some entry => rfl
      | none =>
        simp only
        rw [Surroundings.finish_bind, Surroundings.finish_attempt, finish_erase]
        cases outages "delete" key.text <;> rfl

def editLoaded (c : Config) (job : Patch) (key : Key) : Option Json → Program Outcome
  | none => do
    let _ ← rebuild c key
    return .rebuilt
  | some entry =>
    match job.edit.apply job.entity entry with
    | none => fail (.notAList key.text)
    | some (false, _) => return .unchanged
    | some (true, edited) => do
      let _ ← save c key edited
      return .applied

theorem editEntry_eq (c : Config) (job : Patch) (key : Key) :
    editEntry c job key = (do check key; editLoaded c job key (← load key)) := by
  unfold editEntry
  congr

theorem Together.symm {first second : Except Failure α × World}
    (together : Together c outages name first second) : Together c outages name second first :=
  ⟨together.ends.symm, together.similar.symm⟩

theorem wellMade_of_apply (replaced : ∀ value, job.edit = .replace value → WellMade value)
    {entry edited : Json} (applied : job.edit.apply job.entity entry = some (true, edited)) :
    ∀ fields, edited = .object fields → WellMade edited := by
  rintro fields rfl
  cases edits : job.edit with
  | replace value =>
    rw [edits, Edit.apply] at applied
    split at applied
    · cases applied
    · cases applied
      exact replaced _ edits
  | _ =>
    obtain ⟨_, _, _, _, impossible⟩ := Edit.apply_eq_changed (by simp [edits]) applied
    cases impossible

theorem together_editLoaded (wellMade : ∀ value, answers.value? c key = some value → WellMade value)
    (replaced : ∀ value, job.edit = .replace value → WellMade value)
    (similar : Similar c outages key.text u v) (time time' : String) (found : Option Json) :
    Together c outages key.text
      ((World.regular outages answers time).finish (editLoaded c job key found) u)
      ((World.regular outages answers time').finish (editLoaded c job key found) v) := by
  cases found with
  | none => exact (together_rebuild wellMade similar time time').returns _ _
  | some entry =>
    rw [editLoaded]
    cases applied : job.edit.apply job.entity entry with
    | none => exact ⟨rfl, similar⟩
    | some result =>
      obtain ⟨changed, edited⟩ := result
      cases changed with
      | false => exact ⟨rfl, similar⟩
      | true =>
        have brought := wellMade_of_apply replaced applied
        have saved := together_save answers brought similar time time'
        exact saved.returns _ _

theorem together_coincident (stamps : Stamps c outages key.text stampField fields time time' u v)
    (similar : Similar c outages key.text u v) (readable : outages "get" key.text = none)
    (there : v.entries.find? v.now key.text = some (restampedText stampField time' fields))
    (shallow : (Json.object (Fields.erase stampField fields)).depth ≤ Json.nestingLimit)
    (same : (Json.object (retold stampField time (Fields.erase stampField fields))).same value)
    (told told' : String) :
    Together c outages key.text
      ((World.regular outages answers told).finish (return Outcome.unchanged) u)
      ((World.regular outages answers told').finish
        (do let _ ← save c key value; return Outcome.applied) v) := by
  cases value with
  | object members =>
    have erased := Json.sameFields_erase same stampField
    rw [erase_retold, Fields.erase_idem] at erased
    have saved : Together c outages key.text
        ((World.regular outages answers told).finish (return Json.null) u)
        ((World.regular outages answers told').finish (save c key (.object members)) v) := by
      simp only [save, stamps.configured, finish_saveStamped, readable, there, Option.bind_some,
        unchanged?_restampedText stamps.wellMade, shallow, erased, true_and, if_true]
      split
      · rw [Surroundings.finish_bind, finish_set, stamps.writable]
        simp only
        exact ⟨rfl, .congr ⟨rfl, rfl⟩ similar stamps.symm.again⟩
      · exact ⟨rfl, similar⟩
    exact saved.returns Outcome.unchanged Outcome.applied
  | _ => cases same

theorem together_retold (replaced : ∀ value, job.edit = .replace value → WellMade value)
    (stamps : Stamps c outages key.text stampField fields time time' u v)
    (similar : Similar c outages key.text u v) (readable : outages "get" key.text = none)
    (here : u.entries.find? u.now key.text = some (restampedText stampField time fields))
    (there : v.entries.find? v.now key.text = some (restampedText stampField time' fields))
    (shallow : (Json.object (Fields.erase stampField fields)).depth ≤ Json.nestingLimit)
    (told told' : String) :
    let payload := Fields.erase stampField fields
    Together c outages key.text
      ((World.regular outages answers told).finish
        (editLoaded c job key (some (.object (retold stampField time payload)))) u)
      ((World.regular outages answers told').finish
        (editLoaded c job key (some (.object (retold stampField time' payload)))) v) := by
  intro payload
  cases edits : job.edit with
  | replace value =>
    have brought := replaced value edits
    simp only [editLoaded, edits, Edit.apply]
    cases same : (Json.object (retold stampField time payload)).same value <;>
      cases same' : (Json.object (retold stampField time' payload)).same value
    · have saved := together_save answers (fun _ _ => brought) similar told told'
      exact saved.returns _ _
    · exact (together_coincident stamps.symm similar.symm readable here shallow same' told'
        told).symm
    · exact together_coincident stamps similar readable there shallow same told told'
    · exact ⟨rfl, similar⟩
  | _ =>
    simp only [editLoaded, edits, Edit.apply]
    exact ⟨rfl, similar⟩

/-- Entries that differ in their stamps alone are edited alike, well or badly, and then differ in
their stamps alone. -/
theorem together_editEntry (wellMade : ∀ value, answers.value? c key = some value → WellMade value)
    (replaced : ∀ value, job.edit = .replace value → WellMade value)
    (similar : Similar c outages key.text u v) (told told' : String) :
    Together c outages key.text
      ((World.regular outages answers told).finish (editEntry c job key) u)
      ((World.regular outages answers told').finish (editEntry c job key) v) := by
  have alike {u v : World} (similar : Similar c outages key.text u v) (found : Option Json) :=
    together_editLoaded wellMade replaced similar told told' found
  rw [editEntry_eq, check]
  cases key.check with
  | error fault => exact ⟨rfl, similar⟩
  | ok =>
    change Together c outages key.text
      ((World.regular outages answers told).finish (load key >>= editLoaded c job key) u)
      ((World.regular outages answers told').finish (load key >>= editLoaded c job key) v)
    rw [Surroundings.finish_bind, Surroundings.finish_bind, finish_load, finish_load]
    cases readable : outages "get" key.text with
    | some reason => exact ⟨rfl, similar⟩
    | none =>
      rcases similar.seen with same | ⟨stampField, fields, time, time', stamps, here, there⟩
      · rw [same]
        cases v.entries.find? v.now key.text with
        | none => exact alike similar none
        | some text =>
          simp only
          cases Json.ofText? text with
          | some entry => exact alike similar (some entry)
          | none =>
            cases outages "delete" key.text with
            | some reason => exact alike similar none
            | none => exact alike similar.erase none
      · rw [here, there]
        simp only [restampedText, ofText?_stamped stamps.wellMade.1 stamps.wellMade.2]
        by_cases shallow : (Json.object (Fields.erase stampField fields)).depth ≤ Json.nestingLimit
        · simp only [if_pos shallow]
          exact together_retold replaced stamps similar readable here there shallow told told'
        · simp only [if_neg shallow]
          cases outages "delete" key.text with
          | some reason => exact alike similar none
          | none => exact alike similar.erase none

theorem Similar.restamped (similar : Similar c outages name u v) :
    ∃ time time', Restamped c time time' (u.entries.get? name) (v.entries.get? name) := by
  obtain ⟨now, same | ⟨stampField, fields, time, time', stamps⟩⟩ := similar
  · exact ⟨"", "", .inl same⟩
  · refine ⟨time, time', .inr ⟨.object fields, (fresh c u "").expiry, ?_, ?_⟩⟩
    · rw [stamps.first, written_object stamps.configured]
      rfl
    · rw [stamps.second, written_object stamps.configured, fresh, fresh, now]
      rfl

end Cache

end CacheAside
