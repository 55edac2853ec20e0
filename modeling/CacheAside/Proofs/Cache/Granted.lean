import CacheAside.Cache.Editing
import CacheAside.Proofs.Cache.Derivation
import CacheAside.Proofs.Cache.Payload

namespace CacheAside

namespace Cache

open Program

structure Granted (terms : Terms) (c : Config) (key : Key) : Prop where
  get : terms.asks (.store (.get key.text))
  erase : terms.asks (.store (.erase key.text))
  question : ∀ question, terms.asks (.source question)
  clock : terms.asks .timestamp
  again : ∀ text, terms.replies (.store (.get key.text)) (.ok (some text)) →
    terms.asks (.store (.set key.text text c.lifetime))

def Writable (terms : Terms) (c : Config) (key : Key) (v : Json) : Prop :=
  ∀ time, terms.asks (.store (.set key.text (written c time v).text c.lifetime))

def Derivable (terms : Terms) (c : Config) (key : Key) (v : Json) : Prop :=
  ∃ xs, (derive c key).Runs xs (some (.ok v)) ∧ ∀ x ∈ xs, terms.replies x.request x.reply

variable {terms : Terms} {c : Config} {key : Key} {job : Patch} {v : Json}

theorem abides_set {text : String} (asks : terms.asks (.store (.set key.text text c.lifetime)))
    (v : Json) :
    Abides terms (do store (.set key.text text c.lifetime); return v : Program Json) :=
  (abides_store asks).andThen fun _ => True.intro

theorem keeps_load_within (get : terms.asks (.store (.get key.text)))
    (erase : terms.asks (.store (.erase key.text))) :
    (load key).Keeps terms (fun found => ∀ entry, found = some entry → ∃ text,
      terms.replies (.store (.get key.text)) (.ok (some text)) ∧ Json.ofText? text = some entry)
      fun _ => True := by
  apply (keeps_store get fun _ => True.intro).bind
  intro found told
  cases found with
  | none => exact nofun
  | some text =>
    cases read : Json.ofText? text with
    | some entry =>
      simp only [read]
      intro entry' same
      cases same
      exact ⟨text, told, read⟩
    | none =>
      simp only [read]
      apply (abides_store erase).attempt.bind
      intro _ _ _ impossible
      cases impossible

theorem keeps_derive_within (question : ∀ question, terms.asks (.source question)) :
    (derive c key).Keeps terms (Derivable terms c key) fun _ => True := by
  have asks : Abides terms (derive c key) :=
    (lookups_derive c key).keeps question fun _ => True.intro
  exact asks.of_runs fun xs v runs replied => ⟨xs, runs, replied⟩

theorem abides_save (get : terms.asks (.store (.get key.text))) (clock : terms.asks .timestamp)
    (again : ∀ text, terms.replies (.store (.get key.text)) (.ok (some text)) →
      terms.asks (.store (.set key.text text c.lifetime))) (may : Writable terms c key v) :
    Abides terms (Cache.save c key v) := by
  unfold Cache.save
  split
  · rename_i stampField fields configured
    let payload := Json.Fields.erase stampField fields
    have renews : Abides terms (do
        let value := stamped stampField (← Program.timestamp) payload
        store (.set key.text value.text c.lifetime)
        return value) := by
      apply (keeps_timestamp clock).bind
      intro time _
      have asks := may time
      rw [written_object configured] at asks
      exact abides_set asks _
    apply (keeps_store get fun _ => True.intro).bind
    intro found told
    cases found with
    | none => exact renews
    | some text =>
      cases unchanged : unchanged? stampField payload text with
      | none =>
        simp only [Option.bind_some, payload, unchanged]
        exact renews
      | some stored =>
        simp only [Option.bind_some, payload, unchanged]
        split
        · exact abides_set (again text told) stored
        · exact True.intro
  · rename_i v _ _ unstamped
    have same : written c "" v = v := written_of_unstamped "" unstamped
    have asks := may ""
    rw [same] at asks
    exact abides_set asks v

theorem abides_rebuild (derives : Abides terms (derive c key))
    (saves : key.Valid → ∀ v, Derivable terms c key v → Abides terms (Cache.save c key v)) :
    Abides terms (Cache.rebuild c key) := by
  apply (keeps_check fun _ _ => True.intro).bind
  intro _ valid
  have derived : (derive c key).Keeps terms (Derivable terms c key) fun _ => True :=
    derives.of_runs fun xs v runs replied => ⟨xs, runs, replied⟩
  apply derived.bind
  intro v derivable
  exact saves valid v derivable

theorem abides_editEntry (get : terms.asks (.store (.get key.text)))
    (erase : terms.asks (.store (.erase key.text))) (rebuilds : Abides terms (Cache.rebuild c key))
    (saves : key.Valid → ∀ text entry v,
      terms.replies (.store (.get key.text)) (.ok (some text)) → Json.ofText? text = some entry →
      job.edit.apply job.entity entry = some (true, v) → Abides terms (Cache.save c key v)) :
    Abides terms (Cache.editEntry c job key) := by
  apply (keeps_check fun _ _ => True.intro).bind
  intro _ valid
  apply (keeps_load_within get erase).bind
  intro found told
  cases found with
  | none =>
    apply rebuilds.bind
    intro _ _
    exact True.intro
  | some entry =>
    obtain ⟨text, replied, read⟩ := told entry rfl
    cases applied : job.edit.apply job.entity entry with
    | none =>
      simp only [applied]
      exact True.intro
    | some result =>
      obtain ⟨changed, v⟩ := result
      cases changed with
      | false =>
        simp only [applied]
        exact True.intro
      | true =>
        simp only [applied]
        apply (saves valid text entry v replied read applied).bind
        intro _ _
        exact True.intro

theorem Granted.save (granted : Granted terms c key) (may : Writable terms c key v) :
    Abides terms (Cache.save c key v) :=
  abides_save granted.get granted.clock granted.again may

theorem Granted.rebuild (granted : Granted terms c key)
    (derived : key.Valid → ∀ v, Derivable terms c key v → Writable terms c key v) :
    Abides terms (Cache.rebuild c key) :=
  abides_rebuild (keeps_derive_within granted.question).abides fun valid v derives =>
    granted.save (derived valid v derives)

theorem Granted.editEntry (granted : Granted terms c key)
    (derived : key.Valid → ∀ v, Derivable terms c key v → Writable terms c key v)
    (edited : key.Valid → ∀ text entry v,
      terms.replies (.store (.get key.text)) (.ok (some text)) → Json.ofText? text = some entry →
      job.edit.apply job.entity entry = some (true, v) → Writable terms c key v) :
    Abides terms (Cache.editEntry c job key) :=
  abides_editEntry granted.get granted.erase (granted.rebuild derived)
    fun valid text entry v replied read applied =>
      granted.save (edited valid text entry v replied read applied)

end Cache

end CacheAside
