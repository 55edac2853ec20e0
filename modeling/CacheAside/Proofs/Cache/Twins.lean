import CacheAside.Proofs.Cache.FanOut
import CacheAside.Proofs.Cache.Healing
import CacheAside.Proofs.Cache.Operations
import CacheAside.Proofs.Cache.Rebuilding

namespace CacheAside

open Simulation (Operation Answer)

inductive Job where
  | rebuild (job : Rebuild)
  | patch (job : Patch)

namespace Job

def operation : Job → Operation
  | rebuild job => .carryOut job
  | patch job => .editAll job

def rebuild? : Job → Option Rebuild
  | rebuild job => some job
  | patch _ => none

def patch? : Job → Option Patch
  | rebuild _ => none
  | patch job => some job

def concerns (key : Key) : Job → Bool
  | rebuild job => job.target?.all (· = key)
  | patch _ => true

end Job

/-- A cache over a store in which nothing fails, by a clock that stands still. -/
structure Site where
  entries : Entries
  now : Nat
  backlog : List Job

namespace Site

def world (site : Site) : World :=
  ⟨site.entries, site.now, site.backlog.filterMap Job.rebuild?, site.backlog.filterMap Job.patch?⟩

def queue (site : Site) (job : Job) : Site := { site with backlog := site.backlog ++ [job] }

theorem world_queue_rebuild (site : Site) (job : Rebuild) :
    (site.queue (.rebuild job)).world =
      { site.world with rebuilds := site.world.rebuilds ++ [job] } := by
  simp only [world, queue, List.filterMap_append]
  congr
  exact List.append_nil _

theorem world_queue_patch (site : Site) (job : Patch) :
    (site.queue (.patch job)).world =
      { site.world with patches := site.world.patches ++ [job] } := by
  simp only [world, queue, List.filterMap_append]
  congr
  exact List.append_nil _

def healthy (answers : Answers) (time : String) :
    Surroundings (fun question answer => answer = answers question) Site where
  world := world
  reply
    | .store call, s =>
      (.ok (s.entries.serve s.now call).1, { s with entries := (s.entries.serve s.now call).2 })
    | .source question, s => (answers question, s)
    | .offerRebuild job, s => (true, s.queue (.rebuild job))
    | .offerPatch job, s => (true, s.queue (.patch job))
    | .timestamp, s => (time, s)
  meets request s := by
    cases request with
    | store call => exact .served s.world call
    | source question => exact .answered s.world rfl
    | offerRebuild job =>
      rw [world_queue_rebuild]
      exact .rebuildTaken s.world job
    | offerPatch job =>
      rw [world_queue_patch]
      exact .patchTaken s.world job
    | timestamp => exact .told s.world time

end Site

/-- Two sites agree on a key if they have the same text there and the same jobs that concern it. -/
structure Alike (key : Key) (s t : Site) : Prop where
  now : s.now = t.now
  text : s.world.stored? key = t.world.stored? key
  jobs : s.backlog.filter (·.concerns key) = t.backlog.filter (·.concerns key)

structure Twins where
  one : Answers
  other : Answers
  time : String
  key : Key

namespace Alike

variable {key : Key} {s t u : Site}

theorem refl (key : Key) (s : Site) : Alike key s s := ⟨rfl, rfl, rfl⟩

theorem symm (alike : Alike key s t) : Alike key t s :=
  ⟨alike.now.symm, alike.text.symm, alike.jobs.symm⟩

theorem trans (first : Alike key s t) (second : Alike key t u) : Alike key s u :=
  ⟨first.now.trans second.now, first.text.trans second.text, first.jobs.trans second.jobs⟩

end Alike

namespace Twins

open Program Surroundings

variable {α β γ δ : Type} {twins : Twins} {s t : Site}

def Mirrored (twins : Twins) : Request → Prop
  | .store (.get name) => name = twins.key.text
  | .store (.erasePrefix _) => False
  | .source question => twins.one question = twins.other question
  | _ => True

def Elsewhere (key : Key) : Request → Prop
  | .store (.set name _ _) => name ≠ key.text
  | .store (.erase name) => name ≠ key.text
  | .store (.erasePrefix start) => startsWith start key.text = false
  | .offerRebuild job => Job.concerns key (.rebuild job) = false
  | .offerPatch _ => False
  | _ => True

theorem reply_of_mirrored {request : Request} (mirrored : twins.Mirrored request)
    (alike : Alike twins.key s t) :
    ((Site.healthy twins.one twins.time).reply request s).1 =
      ((Site.healthy twins.other twins.time).reply request t).1 := by
  cases request with
  | store call =>
    cases call with
    | get name =>
      cases mirrored
      exact congrArg Except.ok alike.text
    | erasePrefix start => exact mirrored.elim
    | _ => rfl
  | source question => exact mirrored
  | _ => rfl

theorem alike_reply (request : Request) (alike : Alike twins.key s t) :
    Alike twins.key ((Site.healthy twins.one twins.time).reply request s).2
      ((Site.healthy twins.other twins.time).reply request t).2 := by
  obtain ⟨now, text, jobs⟩ := alike
  cases request with
  | store call =>
    refine ⟨now, ?_, jobs⟩
    cases call with
    | get name => exact text
    | set name text' lifetime =>
      by_cases here : twins.key.text = name
      · subst here
        simp only [Site.world, World.stored?, Site.healthy, Entries.serve, Entries.set,
          Entries.find?, Entries.get?_insert_self, now]
        rfl
      · simp only [Site.world, World.stored?, Site.healthy, Entries.serve,
          Entries.find?_set_of_ne here]
        exact text
    | erase name =>
      simp only [Site.world, World.stored?, Site.healthy, Entries.serve, Entries.erase,
        Entries.find?_keep] at text ⊢
      rw [text]
    | erasePrefix start =>
      simp only [Site.world, World.stored?, Site.healthy, Entries.serve, Entries.erasePrefix,
        Entries.find?_keep] at text ⊢
      rw [text]
  | source question => exact ⟨now, text, jobs⟩
  | offerRebuild job =>
    refine ⟨now, text, ?_⟩
    simp only [Site.healthy, Site.queue, List.filter_append, jobs]
  | offerPatch job =>
    refine ⟨now, text, ?_⟩
    simp only [Site.healthy, Site.queue, List.filter_append, jobs]
  | timestamp => exact ⟨now, text, jobs⟩

theorem alike_of_elsewhere {answers : Answers} {time : String} {key : Key} {request : Request}
    (elsewhere : Elsewhere key request) (s : Site) :
    Alike key s ((Site.healthy answers time).reply request s).2 := by
  cases request with
  | store call =>
    refine ⟨rfl, ?_, rfl⟩
    cases call with
    | get name => rfl
    | set name text lifetime =>
      exact (Entries.find?_set_of_ne (Ne.symm elsewhere) _ _ _ _).symm
    | erase name =>
      have stays : decide (key.text ≠ name) = true := decide_eq_true (Ne.symm elsewhere)
      simp only [Site.world, World.stored?, Site.healthy, Entries.serve, Entries.erase,
        Entries.find?_keep, stays, if_true]
    | erasePrefix start =>
      have stays : startsWith start key.text = false := elsewhere
      simp only [Site.world, World.stored?, Site.healthy, Entries.serve, Entries.erasePrefix,
        Entries.find?_keep, stays, Bool.not_false, if_true]
  | source question => exact .refl key s
  | offerRebuild job =>
    have other : Job.concerns key (.rebuild job) = false := elsewhere
    refine ⟨rfl, rfl, ?_⟩
    simp [Site.healthy, Site.queue, List.filter_append, other]
  | offerPatch job => exact elsewhere.elim
  | timestamp => exact .refl key s

def Related (twins : Twins) (ends : Except Failure α → Except Failure β → Prop) (p : Program α)
    (q : Program β) : Prop :=
  ∀ s t, Alike twins.key s t →
    ends ((Site.healthy twins.one twins.time).finish p s).1
        ((Site.healthy twins.other twins.time).finish q t).1 ∧
      Alike twins.key ((Site.healthy twins.one twins.time).finish p s).2
        ((Site.healthy twins.other twins.time).finish q t).2

inductive Both (results : α → β → Prop) : Except Failure α → Except Failure β → Prop
  | ok {a : α} {b : β} (related : results a b) : Both results (.ok a) (.ok b)
  | error (failure : Failure) : Both results (.error failure) (.error failure)

theorem both_of_eq {result result' : Except Failure α} (same : result = result') :
    Both Eq result result' := by
  subst same
  cases result with
  | ok a => exact .ok rfl
  | error failure => exact .error failure

theorem Related.mono {ends ends' : Except Failure α → Except Failure β → Prop} {p : Program α}
    {q : Program β} (related : twins.Related ends p q)
    (implied : ∀ result result', ends result result' → ends' result result') :
    twins.Related ends' p q := by
  intro s t alike
  obtain ⟨ended, after⟩ := related s t alike
  exact ⟨implied _ _ ended, after⟩

theorem Related.bind {results : α → β → Prop} {results' : γ → δ → Prop} {p : Program α}
    {q : Program β} {f : α → Program γ} {g : β → Program δ}
    (first : twins.Related (Both results) p q)
    (second : ∀ a b, results a b → twins.Related (Both results') (f a) (g b)) :
    twins.Related (Both results') (p >>= f) (q >>= g) := by
  intro s t alike
  obtain ⟨ended, after⟩ := first s t alike
  rw [finish_bind, finish_bind]
  generalize (Site.healthy twins.one twins.time).finish p s = left at ended after
  generalize (Site.healthy twins.other twins.time).finish q t = right at ended after
  obtain ⟨result, s'⟩ := left
  obtain ⟨result', t'⟩ := right
  cases ended with
  | ok related => exact second _ _ related s' t' after
  | error failure => exact ⟨.error failure, after⟩

theorem Related.attempt {ends : Except Failure α → Except Failure β → Prop} {p : Program α}
    {q : Program β} (related : twins.Related ends p q) :
    twins.Related (Both ends) p.attempt q.attempt := by
  intro s t alike
  obtain ⟨ended, after⟩ := related s t alike
  rw [finish_attempt, finish_attempt]
  exact ⟨.ok ended, after⟩

theorem related_pure {results : α → β → Prop} {a : α} {b : β} (related : results a b) :
    twins.Related (Both results) (pure a) (pure b) := fun _ _ alike => ⟨.ok related, alike⟩

def SameIf (holds : Prop) (result result' : Except Failure α) : Prop := holds → result = result'

theorem Related.returns {holds : Prop} {p : Program α} (related : twins.Related (SameIf holds) p p)
    (f : α → β) : twins.Related (SameIf holds) (do return f (← p)) (do return f (← p)) := by
  intro s t alike
  obtain ⟨same, after⟩ := related s t alike
  rw [finish_returns, finish_returns]
  exact ⟨fun held => congrArg (Except.map f) (same held), after⟩

theorem related_of_mirrored {p : Program α} (mirrored : Abides (asking twins.Mirrored) p) :
    twins.Related Eq p p := by
  intro s t alike
  induction p generalizing s t with
  | done result => exact ⟨rfl, alike⟩
  | ask request next ih =>
    obtain ⟨asked, rest⟩ := mirrored
    have after := alike_reply request alike
    simp only [finish]
    rw [reply_of_mirrored asked alike]
    exact ih _ (rest _ True.intro) _ _ after

theorem alike_finish_of_elsewhere {answers : Answers} {time : String} {key : Key} {p : Program α}
    (elsewhere : Abides (asking (Elsewhere key)) p) (s : Site) :
    Alike key s ((Site.healthy answers time).finish p s).2 := by
  induction p generalizing s with
  | done result => exact .refl key s
  | ask request next ih =>
    exact (alike_of_elsewhere elsewhere.1 s).trans (ih _ (elsewhere.2 _ True.intro) _)

theorem related_of_elsewhere {p q : Program α} (first : Abides (asking (Elsewhere twins.key)) p)
    (second : Abides (asking (Elsewhere twins.key)) q) : twins.Related (fun _ _ => True) p q := by
  intro s t alike
  have left : Alike twins.key s ((Site.healthy twins.one twins.time).finish p s).2 :=
    alike_finish_of_elsewhere first s
  have right : Alike twins.key t ((Site.healthy twins.other twins.time).finish q t).2 :=
    alike_finish_of_elsewhere second t
  exact ⟨True.intro, left.symm.trans (alike.trans right)⟩

theorem related_at {p : Key → Program α} (key : Key)
    (here : Abides (asking twins.Mirrored) (p twins.key))
    (elsewhere : key ≠ twins.key → Abides (asking (Elsewhere twins.key)) (p key)) :
    twins.Related (SameIf (key = twins.key)) (p key) (p key) := by
  by_cases mine : key = twins.key
  · subst mine
    exact (related_of_mirrored here).mono fun _ _ same _ => same
  · have apart := elsewhere mine
    exact (related_of_elsewhere apart apart).mono fun _ _ _ same => absurd same mine

end Twins

end CacheAside
