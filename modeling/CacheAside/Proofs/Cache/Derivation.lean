import CacheAside.Cache.Derivation
import CacheAside.Proofs.Program.Keeps
import CacheAside.Proofs.World

namespace CacheAside

abbrev Answers := (question : Question) → Except String question.Answer

def Question.given? : (question : Question) → Except String question.Answer → Option Json
  | .collections _, .ok (some items) => some (.array items)
  | .autoCollects _, .ok (some items) => some (.array items)
  | .stats _, .ok value => value
  | .insights _ _, .ok value => value
  | .shareLink _, .ok value => value
  | .state, .ok value => value
  | _, _ => none

namespace Answers

def reply (answers : Answers) : (request : Request) → Unit → Option request.Reply × Unit
  | .source question, s => (some (answers question), s)
  | _, s => (none, s)

def value? (answers : Answers) (c : Config) (key : Key) : Option Json :=
  match (Cache.derive c key).run answers.reply () with
  | (some (.ok v), _) => some v
  | _ => none

def statistics (v : Json) : Answers
  | .stats _ => .ok (some v)
  | _ => .error "unknown"

theorem value?_statistics (v : Json) (c : Config) (user : String) :
    (statistics v).value? c (.of .userStats user) = some v := rfl

/-- A source that gives these values if it gives any. It may fail at any time or not know of an
entity, and it may list other identifiers each time. -/
def Steady (answers : Answers) : Answering := fun question answer =>
  ∀ v, question.given? answer = some v → question.given? (answers question) = some v

def steadily (answers : Answers) : Terms where
  asks _ := True
  replies
    | .source question, answer => answers.Steady question answer
    | _, _ => True

end Answers

namespace Program

variable {α β σ : Type} {terms : Terms} {fails : Failure → Prop} {answers : Answers}

def Gives (answers : Answers) (p : Program α) (a : α) : Prop :=
  p.run answers.reply () = (some (.ok a), ())

structure Entity (question : Question) (entity : question.Answer → Option β) (json : β → Json) :
    Prop where
  injective : ∀ a b, json a = json b → a = b
  given : ∀ answer, question.given? (.ok answer) = (entity answer).map json
  ungiven : ∀ reason, question.given? (.error reason) = none

theorem entity_value {question : Question} {entity : question.Answer → Option Json}
    (given : ∀ answer, question.given? (.ok answer) = entity answer)
    (ungiven : ∀ reason, question.given? (.error reason) = none) :
    Entity question entity fun v => v :=
  ⟨fun _ _ same => same, fun answer => by rw [given, Option.map_id_fun']; rfl, ungiven⟩

theorem entity_list {question : Question} {entity : question.Answer → Option (List Json)}
    (given : ∀ answer, question.given? (.ok answer) = (entity answer).map Json.array)
    (ungiven : ∀ reason, question.given? (.error reason) = none) :
    Entity question entity Json.array := ⟨fun _ _ => Json.array.inj, given, ungiven⟩

inductive Lookups (key : String) : Program α → Prop
  | pure (a : α) : Lookups key (pure a)
  | entity {β : Type} {question : Question} {entity : question.Answer → Option β}
    {json : β → Json} {f : β → Program α} (shape : Entity question entity json)
    (rest : ∀ b, Lookups key (f b)) :
    Lookups key (source key question >>= fun o => found key (entity o) >>= f)

theorem Lookups.only {key : String} {question : Question} {entity : question.Answer → Option α}
    {json : α → Json} (shape : Entity question entity json) :
    Lookups key (source key question >>= fun o => found key (entity o)) := by
  have looked : Lookups key (source key question >>= fun o =>
      found key (entity o) >>= fun a => (Pure.pure a : Program α)) := .entity shape fun a => .pure a
  have alone : ∀ o, (found key (entity o) >>= fun a => (Pure.pure a : Program α)) =
      found key (entity o) := fun o => bind_pure _
  simpa only [alone] using looked

theorem Lookups.bind {key : String} {p : Program α} {f : α → Program β} (first : Lookups key p)
    (second : ∀ a, Lookups key (f a)) : Lookups key (p >>= f) := by
  induction first with
  | pure a => exact second a
  | @entity _ question entity json g shape rest ih =>
    have regrouped : ((source key question >>= fun o => found key (entity o) >>= g) >>= f) =
        source key question >>= fun o => found key (entity o) >>= fun b => g b >>= f :=
      (bind_assoc _ _ _).trans (congrArg _ (funext fun o => bind_assoc _ _ _))
    rw [regrouped]
    exact .entity shape ih

theorem Lookups.keeps_steady {key : String} {p : Program α} (lookups : Lookups key p)
    (asks : ∀ question, terms.asks (.source question))
    (steady : ∀ question answer, terms.replies (.source question) answer →
      answers.Steady question answer)
    (failing : ∀ fault, fails (.source key fault)) : p.Keeps terms (p.Gives answers) fails := by
  induction lookups with
  | pure a => exact rfl
  | @entity β question entity json f shape rest ih =>
    refine (keeps_source (asks question) failing).bind fun o may =>
      (keeps_found failing).bind fun b same => (ih b).mono (fun a given => ?_) fun _ h => h
    have always := steady question _ may (json b) (by rw [shape.given, same]; rfl)
    cases answered : answers question with
    | error reason =>
      rw [answered, shape.ungiven] at always
      cases always
    | ok o' =>
      rw [answered, shape.given] at always
      obtain ⟨b', same', equal⟩ := Option.map_eq_some_iff.mp always
      cases shape.injective _ _ equal
      have asked : (source key question).run answers.reply () = (some (.ok o'), ()) := by
        simp only [source, run, Answers.reply, answered]
        rfl
      change ((source key question).bind fun o => (found key (entity o)).bind f).run _ _ = _
      rw [run_bind, asked]
      simp only [same']
      exact given

theorem Lookups.keeps {key : String} {p : Program α} (lookups : Lookups key p)
    (asks : ∀ question, terms.asks (.source question))
    (failing : ∀ fault, fails (.source key fault)) : p.Keeps terms (fun _ => True) fails := by
  induction lookups with
  | pure a => exact True.intro
  | @entity β question entity json f shape rest ih =>
    apply (keeps_source (asks question) failing).bind
    intro o _
    apply (keeps_found failing).bind
    intro b _
    exact ih b

def questionsOnly : Terms where
  asks request := ∃ question, request = .source question
  replies _ _ := True

theorem run_of_questions {reply : (request : Request) → σ → Option request.Reply × σ}
    {p : Program α} {returns : α → Prop}
    (questions : p.Keeps questionsOnly returns fails) (s : σ)
    (answered : ∀ question, reply (.source question) s = (some (answers question), s)) :
    p.run reply s = ((p.run answers.reply ()).1, s) := by
  induction p with
  | done result => rfl
  | ask request next ih =>
    obtain ⟨⟨question, rfl⟩, rest⟩ := questions
    simp only [run, answered, Answers.reply]
    exact ih _ (rest _ True.intro)

end Program

namespace Cache

open Program

theorem lookups_derivePeriods (name : String) (user : Option String) (periods : List String)
    (fields : Json.Fields) : Lookups name (derivePeriods name user periods fields) := by
  induction periods generalizing fields with
  | nil => exact .pure fields
  | cons period periods ih =>
    exact .entity (entity_value (fun _ => rfl) fun _ => rfl) fun value =>
      ih (fields.insert period value)

theorem lookups_derive (c : Config) (key : Key) : Lookups key.text (derive c key) := by
  rcases key with ⟨ns, id⟩
  cases ns with
  | collections =>
    exact .entity (entity_list (fun answer => by cases answer <;> rfl) fun _ => rfl) fun items =>
      .pure (Json.array items)
  | autoCollects =>
    exact .entity (entity_list (fun answer => by cases answer <;> rfl) fun _ => rfl) fun items =>
      .pure (Json.array items)
  | userStats => exact .only (entity_value (fun _ => rfl) fun _ => rfl)
  | shareLinks => exact .only (entity_value (fun _ => rfl) fun _ => rfl)
  | state => exact .only (entity_value (fun _ => rfl) fun _ => rfl)
  | insights =>
    exact (lookups_derivePeriods _ _ c.periods []).bind fun fields => .pure (Json.object fields)

theorem keeps_derive_questions (c : Config) (key : Key) :
    (derive c key).Keeps questionsOnly (fun _ => True)
      fun failure => ∃ fault, failure = .source key.text fault :=
  (lookups_derive c key).keeps (fun question => ⟨question, rfl⟩) fun fault => ⟨fault, rfl⟩

/-- The questions behind a key: whatever the answers, its value is derived from no others. -/
def Behind (c : Config) (key : Key) (question : Question) : Prop :=
  let id := key.id.getD ""
  match key.ns with
  | .collections => question = .collections id
  | .autoCollects => question = .autoCollects id
  | .userStats => question = .stats id
  | .shareLinks => question = .shareLink id
  | .state => question = .state
  | .insights => ∃ period ∈ c.periods,
      question = .insights (if id = everyone then none else some id) period

theorem abides_lookup {α β : Type} {terms : Terms} {name : String} {question : Question}
    (asks : terms.asks (.source question)) (entity : question.Answer → Option β)
    {f : β → Program α} (rest : ∀ b, Abides terms (f b)) :
    Abides terms (source name question >>= fun o => found name (entity o) >>= f) := by
  apply (abides_source asks).andThen
  intro o
  apply (keeps_found fun _ => True.intro).bind
  intro b _
  exact rest b

theorem abides_derivePeriods {terms : Terms} {name : String} {user : Option String}
    {periods : List String}
    (asks : ∀ period ∈ periods, terms.asks (.source (.insights user period)))
    (fields : Json.Fields) : Abides terms (derivePeriods name user periods fields) := by
  induction periods generalizing fields with
  | nil => exact True.intro
  | cons period periods ih =>
    obtain ⟨first, others⟩ := List.forall_mem_cons.mp asks
    exact abides_lookup first id fun value => ih others _

theorem abides_derive {terms : Terms} {c : Config} {key : Key}
    (asks : ∀ question, Behind c key question → terms.asks (.source question)) :
    Abides terms (derive c key) := by
  obtain ⟨ns, id⟩ := key
  have finds : ∀ {name : String} (o : Option Json), Abides terms (found name o) :=
    fun _ => (keeps_found fun _ => True.intro).abides
  cases ns with
  | collections => exact abides_lookup (asks _ rfl) _ fun _ => True.intro
  | autoCollects => exact abides_lookup (asks _ rfl) _ fun _ => True.intro
  | userStats => exact (abides_source (asks _ rfl)).andThen finds
  | shareLinks => exact (abides_source (asks _ rfl)).andThen finds
  | state => exact (abides_source (asks _ rfl)).andThen finds
  | insights =>
    apply (abides_derivePeriods (fun period there => asks _ ⟨period, there, rfl⟩) []).andThen
    intro fields
    exact True.intro

end Cache

theorem Answers.value?_eq_some {answers : Answers} {c : Config} {key : Key} {v : Json}
    (gives : (Cache.derive c key).Gives answers v) : answers.value? c key = some v := by
  rw [value?, gives]

theorem Answers.run_derive {answers : Answers} {c : Config} {key : Key} {v : Json}
    (value : answers.value? c key = some v) :
    (Cache.derive c key).run answers.reply () = (some (.ok v), ()) := by
  unfold value? at value
  split at value
  · cases value
    assumption
  · cases value

end CacheAside
