import CacheAside.Proofs.Cache.Granted
import CacheAside.Proofs.Program.Interleaving
import CacheAside.Proofs.World
import CacheAside.Simulation.Store

namespace CacheAside

/-- Why calls of the store fail, by the kind of a call and its key. -/
abbrev Outages := (name key : String) → Option String

namespace Surroundings

variable {answering : Answering} {σ α β : Type} {around : Surroundings answering σ}

def finish (around : Surroundings answering σ) : Program α → σ → Except Failure α × σ
  | .done result, s => (result, s)
  | .ask request next, s =>
    finish around (next (around.reply request s).1) (around.reply request s).2

theorem finish_bind (p : Program α) (f : α → Program β) (s : σ) :
    around.finish (p >>= f) s =
      match around.finish p s with
      | (.ok a, s') => around.finish (f a) s'
      | (.error failure, s') => (.error failure, s') := by
  change around.finish (p.bind f) s = _
  induction p generalizing s with
  | done result => cases result <;> rfl
  | ask request next ih => exact ih _ _

theorem finish_attempt (p : Program α) (s : σ) :
    around.finish p.attempt s = (.ok (around.finish p s).1, (around.finish p s).2) := by
  induction p generalizing s with
  | done result => rfl
  | ask request next ih => exact ih _ _

theorem finish_returns (p : Program α) (f : α → β) (s : σ) :
    around.finish (do return f (← p)) s =
      ((around.finish p s).1.map f, (around.finish p s).2) := by
  rw [finish_bind]
  rcases around.finish p s with ⟨result, s'⟩
  cases result <;> rfl

theorem finish_keeps {terms : Terms} {p : Program α} {returns : α → Prop} {fails : Failure → Prop}
    (keeps : p.Keeps terms returns fails)
    (replied : ∀ request s, terms.replies request (around.reply request s).1) (s : σ) :
    (Program.done (around.finish p s).1).Keeps terms returns fails := by
  induction p generalizing s with
  | done result => exact keeps
  | ask request next ih => exact ih _ (keeps.2 _ (replied request s)) _

end Surroundings

theorem Report.length_failures (report : Report) :
    report.failures.length = report.outcomes.countP fun outcome => !outcome.2.isOk := by
  obtain ⟨outcomes⟩ := report
  unfold Report.failures
  induction outcomes with
  | nil => rfl
  | cons first rest ih =>
    obtain ⟨owner, result⟩ := first
    cases result with
    | ok outcome => simpa [Except.isOk, Except.toBool] using ih
    | error failure => simpa [Except.isOk, Except.toBool] using ih

theorem Report.verdict_eq (report : Report) :
    report.verdict =
      if (report.outcomes.countP fun outcome => !outcome.2.isOk) = 0 then .ok ()
      else .error (.patchFailed (report.outcomes.countP fun outcome => !outcome.2.isOk)
        report.outcomes.length) := by
  rw [← report.length_failures, verdict, allSucceeded]
  cases report.failures <;> rfl

namespace World

/-- Surroundings in which it depends only on the kind and the key of a call whether it fails, and
only on the question what the source answers. -/
def regular (outages : Outages) (answers : Answers) (time : String) :
    Surroundings (fun question answer => answer = answers question) World where
  world w := w
  reply
    | .store call, w =>
      match outages call.name call.key with
      | some reason => (.error reason, w)
      | none =>
        (.ok (w.entries.serve w.now call).1, { w with entries := (w.entries.serve w.now call).2 })
    | .source question, w => (answers question, w)
    | .offerRebuild job, w => (true, { w with rebuilds := w.rebuilds ++ [job] })
    | .offerPatch job, w => (true, { w with patches := w.patches ++ [job] })
    | .timestamp, w => (time, w)
  meets request w := by
    cases request with
    | store call =>
      cases fails : outages call.name call.key with
      | some reason =>
        simp only [fails]
        exact .failed w call reason
      | none =>
        simp only [fails]
        exact .served w call
    | source question => exact .answered w rfl
    | offerRebuild job => exact .rebuildTaken w job
    | offerPatch job => exact .patchTaken w job
    | timestamp => exact .told w time

/-- An exchange in regular surroundings. What the clock tells varies, but only for the stamps: no
time passes for the entries. -/
def Regularly (outages : Outages) (answers : Answers) (w : World) (x : Exchange) (w' : World) :
    Prop :=
  ∃ time, (regular outages answers time).reply x.request w = (x.reply, w')

variable {outages : Outages} {answers : Answers}

theorem regular_untimed {request : Request} (untimed : request ≠ .timestamp) (time time' : String)
    (w : World) :
    (regular outages answers time).reply request w =
      (regular outages answers time').reply request w := by
  cases request with
  | timestamp => exact absurd rfl untimed
  | _ => rfl

theorem comes_regular {α : Type} (outages : Outages) (answers : Answers) (time : String)
    (p : Program α) (w : World) :
    p.Comes (Regularly outages answers) w ((regular outages answers time).finish p w).1
      ((regular outages answers time).finish p w).2 := by
  induction p generalizing w with
  | done result => exact Program.comes_done.mpr ⟨rfl, rfl⟩
  | ask request next ih => exact Program.comes_ask.mpr ⟨_, _, ⟨time, rfl⟩, ih _ _⟩

theorem now_reply (outages : Outages) (answers : Answers) (time : String) (request : Request)
    (w : World) : ((regular outages answers time).reply request w).2.now = w.now := by
  cases request with
  | store call =>
    simp only [regular]
    cases outages call.name call.key <;> rfl
  | _ => rfl

theorem now_finish {α : Type} (outages : Outages) (answers : Answers) (time : String)
    (p : Program α) (w : World) :
    ((regular outages answers time).finish p w).2.now = w.now := by
  induction p generalizing w with
  | done result => rfl
  | ask request next ih => exact (ih _ _).trans (now_reply outages answers time request w)

end World

namespace Cache

open Program

/-- A program that asks for the time once at most, and then has nothing left to do but to write a
value with that time. -/
inductive StampsLast {α : Type} (c : Config) : Program α → Prop
  | done (result : Except Failure α) : StampsLast c (.done result)
  | ask {request : Request} {next : request.Reply → Program α} (untimed : request ≠ .timestamp)
    (rest : ∀ reply, StampsLast c (next reply)) : StampsLast c (.ask request next)
  | stamps (key : Key) (v : Json) (finish : Except String Unit → Except Failure α)
    {text : String → String} {next : String → Except String Unit → Program α}
    (texts : ∀ time, text time = (written c time v).text)
    (ends : ∀ time reply, next time reply = .done (finish reply)) :
    StampsLast c (.ask .timestamp fun time =>
      .ask (.store (.set key.text (text time) c.lifetime)) (next time))

variable {α β : Type} {c : Config} {key : Key} {job : Patch} {v : Json} {outages : Outages}
  {answers : Answers} {w w' : World}

def timeless : Terms := asking (· ≠ .timestamp)

theorem timeless_store (call : StoreCall) : timeless.asks (.store call) := by
  intro same
  cases same

theorem timeless_source (question : Question) : timeless.asks (.source question) := by
  intro same
  cases same

theorem StampsLast.bind {p : Program α} {f : α → Program β}
    (first : Abides timeless p) (second : ∀ a, StampsLast c (f a)) :
    StampsLast c (p.bind f) := by
  induction p with
  | done result =>
    cases result with
    | ok a => exact second a
    | error failure => exact .done _
  | ask request next ih => exact .ask first.1 fun reply => ih reply (first.2 reply True.intro)

theorem stampsLast_set {text : String} (v : Json) (result : α) : StampsLast c (do
    let _ ← (do store (.set key.text text c.lifetime); return v : Program Json)
    return result) := by
  refine .ask nofun fun reply => ?_
  cases reply <;> exact .done _

theorem stampsLast_save (v : Json) (result : α) :
    StampsLast c (do let _ ← save c key v; return result) := by
  unfold save
  split
  · rename_i stampField fields configured
    let payload := Json.Fields.erase stampField fields
    have renews : StampsLast c (do
        let _ ← (do
          let value := stamped stampField (← timestamp) payload
          store (.set key.text value.text c.lifetime)
          return value : Program Json)
        return result) := by
      let finish : Except String Unit → Except Failure α
        | .ok () => .ok result
        | .error reason => .error (.storeUnavailable reason)
      refine .stamps key (.object fields) finish (fun time => ?_) fun time reply => ?_
      · rw [written_object configured]
      · cases reply <;> rfl
    have gets : Abides timeless (store (.get key.text)) :=
      abides_store (timeless_store _)
    change StampsLast c (((store (.get key.text)).bind _).bind _)
    rw [Program.bind_assoc]
    apply StampsLast.bind gets
    intro found
    cases found with
    | none => exact renews
    | some text =>
      cases unchanged : unchanged? stampField payload text with
      | none =>
        simp only [Option.bind_some, payload, unchanged]
        exact renews
      | some stored =>
        simp only [Option.bind_some, payload, unchanged]
        split
        · exact stampsLast_set stored result
        · exact .done _
  · exact stampsLast_set _ result

theorem stampsLast_rebuild (c : Config) (key : Key) (result : α) :
    StampsLast c (do let _ ← rebuild c key; return result) := by
  have derives : Abides timeless (derive c key) := (keeps_derive_within timeless_source).abides
  change StampsLast c (((check key).bind fun _ => (derive c key).bind (save c key)).bind _)
  rw [Program.bind_assoc]
  apply StampsLast.bind (abides_check key)
  intro _
  rw [Program.bind_assoc]
  apply StampsLast.bind derives
  intro v
  exact stampsLast_save v _

theorem stampsLast_editEntry (c : Config) (job : Patch) (key : Key) :
    StampsLast c (editEntry c job key) := by
  have loads : Abides timeless (load key) :=
    (keeps_load_within (timeless_store _) (timeless_store _)).abides
  apply StampsLast.bind (abides_check key)
  intro _
  apply StampsLast.bind loads
  intro found
  cases found with
  | none => exact stampsLast_rebuild c key _
  | some entry =>
    simp only
    split
    · exact .done _
    · exact .done _
    · exact stampsLast_save _ _

/-- An entry at two times is the same, or the same value with its stamps. -/
def Restamped (c : Config) (time time' : String) (entry entry' : Option Entry) : Prop :=
  entry = entry' ∨ ∃ v expiry, entry = some ⟨(written c time v).text, expiry⟩ ∧
    entry' = some ⟨(written c time' v).text, expiry⟩

/-- A run in which the clock tells different times is a run at one of them. -/
theorem StampsLast.finish_of_comes {p : Program α} (last : StampsLast c p)
    {ending : Except Failure α} (comes : p.Comes (World.Regularly outages answers) w ending w') :
    ∃ time, (World.regular outages answers time).finish p w = (ending, w') := by
  induction last generalizing w with
  | done result =>
    obtain ⟨rfl, rfl⟩ := comes_done.mp comes
    exact ⟨"", rfl⟩
  | @ask request next untimed rest ih =>
    obtain ⟨reply, between, ⟨told, met⟩, goesOn⟩ := comes_ask.mp comes
    obtain ⟨time, finishes⟩ := ih reply goesOn
    refine ⟨time, ?_⟩
    rw [World.regular_untimed untimed told time] at met
    rw [Surroundings.finish, met]
    exact finishes
  | @stamps key v finish text next texts ends =>
    -- The time is asked for here alone, and the run goes on as by a clock that stands at it.
    obtain ⟨time, between, ⟨told, met⟩, goesOn⟩ := comes_ask.mp comes
    obtain ⟨rfl, rfl⟩ : told = time ∧ w = between := Prod.mk.inj met
    obtain ⟨reply, between, ⟨later, met⟩, goesOn⟩ := comes_ask.mp goesOn
    have timeless : Request.store (.set key.text (text told) c.lifetime) ≠ .timestamp := nofun
    rw [World.regular_untimed timeless later told] at met
    rw [ends] at goesOn
    obtain ⟨rfl, rfl⟩ := comes_done.mp goesOn
    refine ⟨told, ?_⟩
    change (World.regular outages answers told).finish
      (.ask (.store (.set key.text (text told) c.lifetime)) (next told)) w = _
    rw [Surroundings.finish, met, ends]
    rfl

theorem StampsLast.restamped {p : Program α} (last : StampsLast c p) (name : String) (w : World)
    (time time' : String) :
    ((World.regular outages answers time).finish p w).1 =
        ((World.regular outages answers time').finish p w).1 ∧
      Restamped c time time' (((World.regular outages answers time).finish p w).2.entries.get? name)
        (((World.regular outages answers time').finish p w).2.entries.get? name) := by
  induction last generalizing w with
  | done result => exact ⟨rfl, .inl rfl⟩
  | @ask request next untimed rest ih =>
    simp only [Surroundings.finish]
    rw [World.regular_untimed untimed time time']
    exact ih _ _
  | @stamps key v finish text next texts ends =>
    have run : ∀ told, (World.regular outages answers told).finish (.ask .timestamp fun time =>
        .ask (.store (.set key.text (text time) c.lifetime)) (next time)) w =
          match outages "set" key.text with
          | some reason => (finish (.error reason), w)
          | none => (finish (.ok ()),
            { w with entries := w.entries.set w.now key.text (text told) c.lifetime }) := by
      intro told
      have replied : (World.regular outages answers told).reply
          (.store (.set key.text (text told) c.lifetime)) w =
            match outages "set" key.text with
            | some reason => (.error reason, w)
            | none => (.ok (),
              { w with entries := w.entries.set w.now key.text (text told) c.lifetime }) := rfl
      change (World.regular outages answers told).finish
        (.ask (.store (.set key.text (text told) c.lifetime)) (next told)) w = _
      rw [Surroundings.finish, replied]
      cases outages "set" key.text <;>
      · rw [ends]
        rfl
    rw [run, run]
    cases outages "set" key.text with
    | some reason => exact ⟨rfl, .inl rfl⟩
    | none =>
      refine ⟨rfl, ?_⟩
      by_cases here : name = key.text
      · subst here
        simp only [Entries.set, Entries.get?_insert_self, texts]
        exact .inr ⟨v, _, rfl, rfl⟩
      · simp only [Entries.set, Entries.get?_insert_of_ne here]
        exact .inl rfl

def Within (name : String) : Request → Prop
  | .store (.get key) => key = name
  | .store (.set key _ _) => key = name
  | .store (.erase key) => key = name
  | .source _ => True
  | .timestamp => True
  | _ => False

theorem granted_within (c : Config) (key : Key) : Granted (asking (Within key.text)) c key :=
  ⟨rfl, rfl, fun _ => True.intro, True.intro, fun _ _ => rfl⟩

theorem within_rebuild (c : Config) (key : Key) :
    Abides (asking (Within key.text)) (rebuild c key) :=
  (granted_within c key).rebuild fun _ _ _ _ => rfl

theorem within_editEntry (c : Config) (job : Patch) (key : Key) :
    Abides (asking (Within key.text)) (editEntry c job key) :=
  (granted_within c key).editEntry (fun _ _ _ _ => rfl) fun _ _ _ _ _ _ _ _ => rfl

def SameEntry (name : String) (w u : World) : Prop :=
  w.now = u.now ∧ w.entries.get? name = u.entries.get? name

theorem regular_within (outages : Outages) (answers : Answers) (time : String) {name : String}
    {request : Request} (within : Within name request) {u : World} (same : SameEntry name w u) :
    ((World.regular outages answers time).reply request w).1 =
        ((World.regular outages answers time).reply request u).1 ∧
      SameEntry name ((World.regular outages answers time).reply request w).2
        ((World.regular outages answers time).reply request u).2 := by
  obtain ⟨now, entry⟩ := same
  cases request with
  | store call =>
    simp only [World.regular]
    cases outages call.name call.key with
    | some reason => exact ⟨rfl, now, entry⟩
    | none =>
      cases call with
      | get key =>
        cases within
        refine ⟨?_, now, entry⟩
        simp only [Entries.serve, Entries.find?, now, entry]
      | set key text lifetime =>
        cases within
        refine ⟨rfl, now, ?_⟩
        simp only [Entries.serve, Entries.set, Entries.get?_insert_self, now]
      | erase key =>
        cases within
        refine ⟨rfl, now, ?_⟩
        simp only [Entries.serve, Entries.get?_erase_self]
      | erasePrefix start => exact within.elim
  | source question => exact ⟨rfl, now, entry⟩
  | timestamp => exact ⟨rfl, now, entry⟩
  | offerRebuild job => exact within.elim
  | offerPatch job => exact within.elim

theorem regular_beside (outages : Outages) (answers : Answers) (time : String)
    {name other : String} {request : Request} (within : Within name request)
    (beside : other ≠ name) (w : World) :
    SameEntry other ((World.regular outages answers time).reply request w).2 w := by
  cases request with
  | store call =>
    simp only [World.regular]
    cases outages call.name call.key with
    | some reason => exact ⟨rfl, rfl⟩
    | none =>
      cases call with
      | get key => exact ⟨rfl, rfl⟩
      | set key text lifetime =>
        cases within
        exact ⟨rfl, Entries.get?_insert_of_ne beside _ _⟩
      | erase key =>
        cases within
        exact ⟨rfl, Entries.get?_erase_of_ne beside _⟩
      | erasePrefix start => exact within.elim
  | source question => exact ⟨rfl, rfl⟩
  | timestamp => exact ⟨rfl, rfl⟩
  | offerRebuild job => exact within.elim
  | offerPatch job => exact within.elim

theorem regular_entries (outages : Outages) (answers : Answers) (time : String) {name : String}
    {request : Request} (within : Within name request) (w : World) :
    let after := ((World.regular outages answers time).reply request w).2
    after = { w with entries := after.entries } := by
  cases request with
  | store call =>
    simp only [World.regular]
    cases outages call.name call.key <;> rfl
  | source question => rfl
  | timestamp => rfl
  | offerRebuild job => exact within.elim
  | offerPatch job => exact within.elim

section Isolation

variable {ι : Type} {text : ι → String} {programs : ι → Program α} {names : List ι}

theorem apart_entries (outages : Outages) (answers : Answers)
    (injective : ∀ i j, text i = text j → i = j) :
    Apart (World.Regularly outages answers) (fun i => Within (text i))
      fun i => SameEntry (text i) where
  refl i w := ⟨rfl, rfl⟩
  replied i request w _ :=
    ⟨((World.regular outages answers "").reply request w).1,
      ((World.regular outages answers "").reply request w).2, "", rfl⟩
  own i x w w' u within met same := by
    obtain ⟨time, met⟩ := met
    obtain ⟨replied, after⟩ := regular_within outages answers time within same
    rw [met] at replied after
    have again : (World.regular outages answers time).reply x.request u =
        (x.reply, ((World.regular outages answers time).reply x.request u).2) :=
      Prod.ext replied.symm rfl
    exact ⟨_, ⟨time, again⟩, after⟩
  others i other x w w' u different within met same := by
    obtain ⟨time, met⟩ := met
    have elsewhere : text other ≠ text i := fun equal => different (injective _ _ equal).symm
    have beside := regular_beside outages answers time within elsewhere w
    rw [met] at beside
    exact ⟨beside.1.trans same.1, beside.2.trans same.2⟩

/-- What the work on several entries has come to: every result and every entry are those of the work
on that entry alone, and nothing else has changed. -/
structure Isolated (outages : Outages) (answers : Answers) (text : ι → String)
    (programs : ι → Program α) (names : List ι) (w : World)
    (results : List (ι × Except Failure α)) (w' : World) : Prop where
  outcomes : results = names.map fun i =>
    (i, ((World.regular outages answers "").finish (programs i) w).1)
  entries : ∀ i ∈ names, ∃ time, w'.entries.get? (text i) =
    ((World.regular outages answers time).finish (programs i) w).2.entries.get? (text i)
  others : ∀ name, (∀ i ∈ names, name ≠ text i) → w'.entries.get? name = w.entries.get? name
  rest : w' = { w with entries := w'.entries }

theorem outcomes_of_named {results : List (ι × Except Failure α)} {outcome : ι → Except Failure α}
    (named : results.map (·.1) = names)
    (told : ∀ i result, (i, result) ∈ results → result = outcome i) :
    results = names.map fun i => (i, outcome i) := by
  subst named
  rw [List.map_map]
  refine (List.map_id results).symm.trans (List.map_congr_left ?_)
  rintro ⟨i, result⟩ there
  rw [told i result there]
  rfl

theorem inevitably_isolated (injective : ∀ i j, text i = text j → i = j)
    (stamps : ∀ i ∈ names, StampsLast c (programs i))
    (within : ∀ i ∈ names, Abides (asking (Within (text i))) (programs i))
    (distinct : names.Nodup) :
    Inevitably (World.Regularly outages answers) (Isolated outages answers text programs names w)
      (names.map fun i => (i, programs i)) w := by
  let untouched (w' : World) : Prop :=
    (∀ name, (∀ i ∈ names, name ≠ text i) → w'.entries.get? name = w.entries.get? name) ∧
      w' = { w with entries := w'.entries }
  have frame : ∀ i ∈ names, ∀ x w₁ w₂, Within (text i) x.request →
      World.Regularly outages answers w₁ x w₂ → untouched w₁ → untouched w₂ := by
    rintro i named x w₁ w₂ within ⟨time, met⟩ ⟨same, rest⟩
    have after := regular_entries outages answers time within w₁
    rw [met] at after
    refine ⟨fun name other => ?_, ?_⟩
    · have beside := regular_beside outages answers time within (other i named) w₁
      rw [met] at beside
      exact beside.2.trans (same name other)
    · rw [rest] at after
      exact after
  have isolated := inevitably_apart programs untouched w (apart_entries outages answers injective)
    distinct within frame ⟨fun _ _ => rfl, rfl⟩
  refine isolated.mono ?_
  rintro results w' ⟨named, comes, others, rest⟩
  have known : ∀ i result, (i, result) ∈ results →
      result = ((World.regular outages answers "").finish (programs i) w).1 ∧
      ∃ time, w'.entries.get? (text i) =
        ((World.regular outages answers time).finish (programs i) w).2.entries.get? (text i) := by
    intro i result there
    have last := stamps i (named ▸ List.mem_map_of_mem there)
    obtain ⟨u, came, same⟩ := comes i result there
    obtain ⟨time, finished⟩ := last.finish_of_comes came
    refine ⟨?_, time, ?_⟩
    · rw [(last.restamped "" w "" time).1, finished]
    · rw [finished]
      exact same.2
  refine ⟨outcomes_of_named named fun i result there => (known i result there).1, ?_, others, rest⟩
  intro i member
  obtain ⟨⟨_, result⟩, there, rfl⟩ := List.mem_map.mp (named.symm ▸ member)
  exact (known _ result there).2

theorem restamped_of_alone {alone : ι → String → Option Entry} {names' : List ι} {w₁ w₂ : World}
    (restamped : ∀ i ∈ names, ∀ time time', Restamped c time time' (alone i time) (alone i time'))
    (order : names.Perm names')
    (entries : ∀ i ∈ names, ∃ time, w₁.entries.get? (text i) = alone i time)
    (entries' : ∀ i ∈ names', ∃ time, w₂.entries.get? (text i) = alone i time)
    (others : ∀ name, (∀ i ∈ names, name ≠ text i) →
      w₁.entries.get? name = w.entries.get? name)
    (others' : ∀ name, (∀ i ∈ names', name ≠ text i) →
      w₂.entries.get? name = w.entries.get? name) (name : String) :
    ∃ time time', Restamped c time time' (w₁.entries.get? name) (w₂.entries.get? name) := by
  by_cases touched : ∃ i ∈ names, name = text i
  · obtain ⟨i, named, rfl⟩ := touched
    obtain ⟨time, entry⟩ := entries i named
    obtain ⟨time', entry'⟩ := entries' i (order.mem_iff.mp named)
    refine ⟨time, time', ?_⟩
    rw [entry, entry']
    exact restamped i named time time'
  · have apart : ∀ i ∈ names, name ≠ text i := fun i named same => touched ⟨i, named, same⟩
    have apart' : ∀ i ∈ names', name ≠ text i :=
      fun i named => apart i (order.mem_iff.mpr named)
    refine ⟨"", "", .inl ?_⟩
    rw [others name apart, others' name apart']

end Isolation

theorem owner_of_text {ns : Namespace} (owner other : String)
    (same : (Key.of ns owner).text = (Key.of ns other).text) : owner = other := by
  cases Key.text_injective same
  rfl

theorem comes_inOrder {step : World → Exchange → World → Prop}
    {ps : List (String × Program Outcome)}
    {ending : Except Failure (List (String × Except Failure Outcome))}
    (comes : (inOrder ps).Comes step w ending w') :
    ∃ results, ending = .ok results ∧ OneByOne step ps w results w' := by
  induction ps generalizing w w' ending with
  | nil =>
    obtain ⟨rfl, rfl⟩ := comes_done.mp comes
    exact ⟨[], rfl, .nil _⟩
  | cons first ps ih =>
    obtain ⟨owner, p⟩ := first
    rcases comes_bind.mp comes with ⟨_, between, part, goesOn⟩ | ⟨_, _, part⟩
    · obtain ⟨_, same, part⟩ := comes_attempt.mp part
      cases same
      rcases comes_bind.mp goesOn with ⟨_, last, others, ends⟩ | ⟨_, _, others⟩
      · obtain ⟨results, same, others⟩ := ih others
        cases same
        obtain ⟨rfl, rfl⟩ := comes_done.mp ends
        exact ⟨_, rfl, .cons part others⟩
      · obtain ⟨_, impossible, _⟩ := ih others
        cases impossible
    · obtain ⟨_, impossible, _⟩ := comes_attempt.mp part
      cases impossible

theorem parts_of_several {ns : Namespace} (several : ns.isSingle = false) (owners : List String)
    (entity : String) (edit : Edit) :
    parts c ⟨ns, owners, entity, edit⟩ =
      owners.map fun owner => (owner, editEntry c ⟨ns, [owner], entity, edit⟩ (.of ns owner)) := by
  simp only [parts, Patch.targets, several, Bool.false_eq_true, if_false, List.map_map]
  rfl

theorem finish_editAll_only {ns : Namespace} (several : ns.isSingle = false) {answering : Answering}
    {σ : Type} (around : Surroundings answering σ) (owner entity : String) (edit : Edit) (s : σ) :
    around.finish (editAll c ⟨ns, [owner], entity, edit⟩) s =
      let part := around.finish (editEntry c ⟨ns, [owner], entity, edit⟩ (.of ns owner)) s
      (.ok ⟨[(owner, part.1)]⟩, part.2) := by
  rw [editAll, parts_of_several several, List.map_singleton, inOrder]
  rw [Surroundings.finish_bind, Surroundings.finish_bind, Surroundings.finish_attempt]
  rfl

/-- What is left for an owner when a patch is applied to that owner alone, at a time. -/
def leftAlone (outages : Outages) (answers : Answers) (c : Config) (ns : Namespace)
    (entity : String) (edit : Edit) (w : World) (owner time : String) : Option Entry :=
  let after := (World.regular outages answers time).finish (editAll c ⟨ns, [owner], entity, edit⟩) w
  after.2.entries.get? (Key.of ns owner).text

/-- What a patch of several owners has come to: every owner's outcome, in order, and every owner's
entry are those of a patch of that owner alone, no other entry has changed, and the verdict counts
the owners whose part has failed. -/
structure FannedOut (ns : Namespace) (outcome : String → Except Failure Outcome)
    (alone : (owner time : String) → Option Entry) (owners : List String) (w : World)
    (results : List (String × Except Failure Outcome)) (w' : World) : Prop where
  outcomes : results = owners.map fun owner => (owner, outcome owner)
  entries : ∀ owner ∈ owners, ∃ time,
    w'.entries.get? (Key.of ns owner).text = alone owner time
  others : ∀ name, (∀ owner ∈ owners, name ≠ (Key.of ns owner).text) →
    w'.entries.get? name = w.entries.get? name
  verdict : (⟨results⟩ : Report).verdict =
    let failed := owners.countP fun owner => !(outcome owner).isOk
    if failed = 0 then .ok () else .error (.patchFailed failed owners.length)

theorem verdict_of_outcomes (owners : List String) (outcome : String → Except Failure Outcome) :
    (⟨owners.map fun owner => (owner, outcome owner)⟩ : Report).verdict =
      let failed := owners.countP fun owner => !(outcome owner).isOk
      if failed = 0 then .ok () else .error (.patchFailed failed owners.length) := by
  rw [Report.verdict_eq]
  simp only [List.countP_map, List.length_map]
  rfl

theorem FannedOut.perm {ns : Namespace} {outcome : String → Except Failure Outcome}
    {alone : (owner time : String) → Option Entry} {owners owners' : List String} {w₁ w₂ : World}
    {results results' : List (String × Except Failure Outcome)}
    (restamped : ∀ owner time time', Restamped c time time' (alone owner time) (alone owner time'))
    (order : owners.Perm owners') (first : FannedOut ns outcome alone owners w results w₁)
    (second : FannedOut ns outcome alone owners' w results' w₂) :
    results.Perm results' ∧ ∀ name, ∃ time time',
      Restamped c time time' (w₁.entries.get? name) (w₂.entries.get? name) := by
  constructor
  · rw [first.outcomes, second.outcomes]
    exact order.map _
  · exact restamped_of_alone (fun owner _ => restamped owner) order first.entries second.entries
      first.others second.others

theorem leftAlone_eq {ns : Namespace} (several : ns.isSingle = false) (outages : Outages)
    (answers : Answers) (c : Config) (entity : String) (edit : Edit) (w : World)
    (owner time : String) :
    leftAlone outages answers c ns entity edit w owner time =
      ((World.regular outages answers time).finish
        (editEntry c ⟨ns, [owner], entity, edit⟩ (.of ns owner)) w).2.entries.get?
          (Key.of ns owner).text := by
  simp only [leftAlone, finish_editAll_only several]

theorem inevitably_fannedOut {ns : Namespace} (several : ns.isSingle = false) {outages : Outages}
    {answers : Answers} {c : Config} {entity : String} {edit : Edit} {w : World}
    {outcome : String → Except Failure Outcome}
    (ends : ∀ owner time, ((World.regular outages answers time).finish
      (editEntry c ⟨ns, [owner], entity, edit⟩ (.of ns owner)) w).1 = outcome owner)
    {owners : List String} (distinct : owners.Nodup) :
    Inevitably (World.Regularly outages answers)
      (FannedOut ns outcome (leftAlone outages answers c ns entity edit w) owners w)
      (parts c ⟨ns, owners, entity, edit⟩) w := by
  let part (owner : String) : Program Outcome :=
    editEntry c ⟨ns, [owner], entity, edit⟩ (.of ns owner)
  rw [parts_of_several several]
  have isolated : Inevitably (World.Regularly outages answers)
      (Isolated outages answers (fun owner => (Key.of ns owner).text) part owners w)
      (owners.map fun owner => (owner, part owner)) w :=
    inevitably_isolated owner_of_text (fun owner _ => stampsLast_editEntry c _ _)
      (fun owner _ => within_editEntry c _ _) distinct
  refine isolated.mono ?_
  rintro results w' ⟨outcomes, entries, others, _⟩
  have told : results = owners.map fun owner => (owner, outcome owner) := by
    rw [outcomes]
    exact List.map_congr_left fun owner _ => Prod.ext rfl (ends owner "")
  refine ⟨told, fun owner named => ?_, others, ?_⟩
  · obtain ⟨time, entry⟩ := entries owner named
    refine ⟨time, ?_⟩
    rw [entry, leftAlone_eq several]
  · rw [told]
    exact verdict_of_outcomes owners outcome

theorem oneByOne_of_editAll {step : World → Exchange → World → Prop} {c : Config} {job : Patch}
    {w w' : World} {ending : Except Failure Report}
    (comes : (editAll c job).Comes step w ending w') :
    ∃ report, ending = .ok report ∧ OneByOne step (parts c job) w report.outcomes w' := by
  rcases comes_bind.mp comes with ⟨results, between, came, ends⟩ | ⟨failure, rfl, came⟩
  · obtain ⟨_, ⟨⟩, came⟩ := comes_inOrder came
    obtain ⟨rfl, rfl⟩ := comes_done.mp ends
    exact ⟨⟨results⟩, rfl, came⟩
  · obtain ⟨_, impossible, _⟩ := comes_inOrder came
    cases impossible

theorem report_of_comes {outages : Outages} {answers : Answers} {c : Config} {job : Patch}
    {w w' : World} {holds : List (String × Except Failure Outcome) → World → Prop}
    (inevitable : Inevitably (World.Regularly outages answers) holds (parts c job) w)
    {ending : Except Failure Report}
    (comes : (editAll c job).Comes (World.Regularly outages answers) w ending w') :
    ∃ report, ending = .ok report ∧ holds report.outcomes w' := by
  obtain ⟨report, same, came⟩ := oneByOne_of_editAll comes
  exact ⟨report, same, inevitable.oneByOne came⟩

/-- However the parts of a patch take turns, and whichever calls of the store fail, each owner's
part ends as it does alone. In other order of the owners there are the same outcomes in that order,
and the same entries but for the stamps. The comparison is made at one instant: only what the clock
tells for the stamps may vary. -/
theorem fan_out_isolated {ns : Namespace} (several : ns.isSingle = false) (outages : Outages)
    (answers : Answers) (c : Config) (entity : String) (edit : Edit) (w : World) :
    let alone := leftAlone outages answers c ns entity edit w
    ∃ outcome : String → Except Failure Outcome,
      (∀ owner time, ((World.regular outages answers time).finish
        (editAll c ⟨ns, [owner], entity, edit⟩) w).1 = .ok ⟨[(owner, outcome owner)]⟩) ∧
      (∀ owner time time', Restamped c time time' (alone owner time) (alone owner time')) ∧
      (∀ owners : List String, owners.Nodup →
        Inevitably (World.Regularly outages answers) (FannedOut ns outcome alone owners w)
          (parts c ⟨ns, owners, entity, edit⟩) w ∧
        ∀ ending w', (editAll c ⟨ns, owners, entity, edit⟩).Comes
            (World.Regularly outages answers) w ending w' →
          ∃ report, ending = .ok report ∧
            FannedOut ns outcome alone owners w report.outcomes w') ∧
      ∀ owners owners' : List String, owners.Perm owners' → ∀ results w₁ results' w₂,
        FannedOut ns outcome alone owners w results w₁ →
        FannedOut ns outcome alone owners' w results' w₂ →
        results.Perm results' ∧ ∀ name, ∃ time time',
          Restamped c time time' (w₁.entries.get? name) (w₂.entries.get? name) := by
  intro alone
  let part (owner : String) : Program Outcome :=
    editEntry c ⟨ns, [owner], entity, edit⟩ (.of ns owner)
  let outcome (owner : String) : Except Failure Outcome :=
    ((World.regular outages answers "").finish (part owner) w).1
  have stamps (owner : String) : StampsLast c (part owner) := stampsLast_editEntry ..
  have ends : ∀ owner time, ((World.regular outages answers time).finish (part owner) w).1 =
      outcome owner := fun owner time => ((stamps owner).restamped "" w time "").1
  have together : ∀ owners : List String, owners.Nodup →
      Inevitably (World.Regularly outages answers) (FannedOut ns outcome alone owners w)
        (parts c ⟨ns, owners, entity, edit⟩) w :=
    fun owners distinct => inevitably_fannedOut several ends distinct
  have restamped : ∀ owner time time',
      Restamped c time time' (alone owner time) (alone owner time') := by
    intro owner time time'
    simp only [alone, leftAlone_eq several]
    exact ((stamps owner).restamped _ w time time').2
  refine ⟨outcome, ?_, restamped, ?_, ?_⟩
  · intro owner time
    rw [finish_editAll_only several, ← ends owner time]
  · intro owners distinct
    exact ⟨together owners distinct, fun ending w' => report_of_comes (together owners distinct)⟩
  · intro owners owners' order results w₁ results' w₂ first second
    exact first.perm restamped order second

/-- Three owners without a listing: one is rebuilt, one is not known to the source, and one cannot
be written. -/
theorem fan_out_isolated_unlisted :
    let outages : Outages := fun name key =>
      if name = "set" ∧ key = "collections:3" then some "rejected" else none
    let answers : Answers := fun
      | .collections user => .ok (if user = "2" then none else some [])
      | _ => .error "unknown"
    Inevitably (World.Regularly outages answers) (fun results _ => results =
        [("1", .ok .rebuilt), ("2", .error (.source "collections:2" .notFound)),
          ("3", .error (.storeUnavailable "rejected"))] ∧
        (⟨results⟩ : Report).verdict = .error (.patchFailed 2 3))
      (parts .standard ⟨.collections, ["1", "2", "3"], "7", .remove⟩) .empty := by
  intro outages answers
  have several : Namespace.collections.isSingle = false := rfl
  obtain ⟨outcome, alone, _, together, _⟩ :=
    fan_out_isolated several outages answers .standard "7" .remove .empty
  have told : ∀ owner result, ((World.regular outages answers "").finish
      (editAll .standard ⟨.collections, [owner], "7", .remove⟩) .empty).1 =
        .ok ⟨[(owner, result)]⟩ → outcome owner = result := by
    intro owner result finished
    cases finished.symm.trans (alone owner "")
    rfl
  have first : outcome "1" = .ok .rebuilt := told "1" _ rfl
  have second : outcome "2" = .error (.source "collections:2" .notFound) := told "2" _ rfl
  have third : outcome "3" = .error (.storeUnavailable "rejected") := told "3" _ rfl
  refine (together ["1", "2", "3"] (by decide)).1.mono ?_
  rintro results w' fanned
  have same := fanned.outcomes
  simp only [List.map_cons, List.map_nil, first, second, third] at same
  refine ⟨same, ?_⟩
  rw [same]
  rfl

end Cache

end CacheAside
