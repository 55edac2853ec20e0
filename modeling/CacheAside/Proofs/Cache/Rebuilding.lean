import CacheAside.Cache.Rebuild
import CacheAside.Proofs.Cache.Derivation
import CacheAside.Proofs.Cache.Payload

namespace CacheAside

namespace Program

variable {α β : Type}

inductive WritesLast : Program α → Prop
  | done {result : Except Failure α}
    (blameless : ∀ reason, result ≠ .error (.storeUnavailable reason)) : WritesLast (.done result)
  | asks {question : Question} {next : Except String question.Answer → Program α}
    (rest : ∀ answer, WritesLast (next answer)) : WritesLast (.ask (.source question) next)
  | looks {key : String} {next : Except String (Option String) → Program α}
    (fails : ∀ reason, next (.error reason) = fail (.storeUnavailable reason))
    (rest : ∀ found, WritesLast (next (.ok found))) : WritesLast (.ask (.store (.get key)) next)
  | stamps {next : String → Program α} (rest : ∀ time, WritesLast (next time)) :
    WritesLast (.ask .timestamp next)
  | writes {key text : String} {lifetime : Option Span} {next : Except String Unit → Program α}
    (fails : ∀ reason, next (.error reason) = fail (.storeUnavailable reason)) {a : α}
    (ends : next (.ok ()) = pure a) : WritesLast (.ask (.store (.set key text lifetime)) next)

theorem WritesLast.andThen {p : Program α} {f : α → Program β} {name : String}
    (questions : p.Keeps questionsOnly (fun _ => True) fun failure =>
      ∃ fault, failure = .source name fault) (rest : ∀ a, WritesLast (f a)) :
    WritesLast (p >>= f) := by
  change WritesLast (p.bind f)
  induction p with
  | done result =>
    cases result with
    | ok a => exact rest a
    | error failure =>
      obtain ⟨fault, rfl⟩ := questions
      exact .done nofun
  | ask request next ih =>
    obtain ⟨⟨question, rfl⟩, others⟩ := questions
    exact .asks fun answer => ih answer (others answer True.intro)

theorem WritesLast.checked {f : Unit → Program α} (key : Key) (rest : WritesLast (f ())) :
    WritesLast (check key >>= f) := by
  unfold check
  cases key.check with
  | ok => exact rest
  | error fault => exact .done nofun

theorem WritesLast.looked {key : String} {f : Option String → Program α}
    (rest : ∀ found, WritesLast (f found)) : WritesLast (store (.get key) >>= f) :=
  .looks (fun _ => rfl) rest

structure Spares (w : World) (xs : List Exchange) (ending : Except Failure α) (w' : World) :
    Prop where
  offersNone : Exchange.offers xs = []
  rebuilds : w'.rebuilds = w.rebuilds
  patches : w'.patches = w.patches
  unchanged : ∀ failure, ending = .error failure → w' = w
  blamed : ∀ reason, ending = .error (.storeUnavailable reason) →
    ∃ call, ⟨.store call, .error reason⟩ ∈ xs

variable {answering : Answering} {w w' : World} {x : Exchange} {xs : List Exchange}
  {ending : Except Failure α}

theorem Spares.cons (spares : Spares w xs ending w') (other : x.offer? = none) :
    Spares w (x :: xs) ending w' := by
  refine ⟨?_, spares.rebuilds, spares.patches, spares.unchanged, fun reason same => ?_⟩
  · rw [Exchange.offers, List.filterMap_cons_none other]
    exact spares.offersNone
  · obtain ⟨call, there⟩ := spares.blamed reason same
    exact ⟨call, List.mem_cons_of_mem _ there⟩

theorem Spares.out {call : StoreCall} {reason : String}
    (runs : (fail (.storeUnavailable reason) : Program α).Runs xs (some ending))
    (follows : Exchange.Follows (World.Meets answering) w xs w') :
    Spares w (⟨.store call, .error reason⟩ :: xs) ending w' := by
  obtain ⟨rfl, rfl⟩ := runs_done.mp runs
  cases follows
  refine ⟨rfl, rfl, rfl, fun _ _ => rfl, ?_⟩
  rintro _ ⟨⟩
  exact ⟨call, List.mem_cons_self⟩

theorem WritesLast.spares {p : Program α} (last : WritesLast p) (runs : p.Runs xs (some ending))
    (follows : Exchange.Follows (World.Meets answering) w xs w') : Spares w xs ending w' := by
  induction last generalizing w xs with
  | done blameless =>
    obtain ⟨rfl, rfl⟩ := runs_done.mp runs
    cases follows
    exact ⟨rfl, rfl, rfl, fun _ _ => rfl, fun reason same => absurd same (blameless reason)⟩
  | asks rest ih | stamps rest ih =>
    obtain ⟨reply, others, rfl, after⟩ := runs_ask.mp runs
    cases follows with | cons first goesOn =>
    cases first
    exact (ih reply after goesOn).cons rfl
  | looks fails rest ih =>
    obtain ⟨reply, others, rfl, after⟩ := runs_ask.mp runs
    cases follows with | cons first goesOn =>
    obtain ⟨rfl, _⟩ := first.get
    cases reply with
    | error reason => exact .out (fails reason ▸ after) goesOn
    | ok found => exact (ih found after goesOn).cons rfl
  | writes fails ends =>
    obtain ⟨reply, others, rfl, after⟩ := runs_ask.mp runs
    cases follows with | cons first goesOn =>
    cases first with
    | failed call reason => exact .out (fails reason ▸ after) goesOn
    | served call =>
      have finished := after
      rw [ends] at finished
      obtain ⟨rfl, rfl⟩ := runs_done.mp finished
      cases goesOn
      exact ⟨rfl, rfl, rfl, nofun, nofun⟩

end Program

namespace Cache

open Program

theorem writesLast_set {key text : String} {lifetime : Option Span} (v : Json) :
    WritesLast (do store (.set key text lifetime); return v : Program Json) :=
  .writes (fun _ => rfl) rfl

theorem writesLast_save (c : Config) (key : Key) (v : Json) : WritesLast (save c key v) := by
  unfold save
  split
  · rename_i stampField fields _
    let payload := Json.Fields.erase stampField fields
    have renews : WritesLast (do
        let value := stamped stampField (← timestamp) payload
        store (.set key.text value.text c.lifetime)
        return value : Program Json) := .stamps fun time => writesLast_set _
    refine .looked fun found => ?_
    cases found with
    | none => exact renews
    | some text =>
      cases unchanged : unchanged? stampField payload text with
      | none =>
        simp only [Option.bind_some, payload, unchanged]
        exact renews
      | some stored =>
        simp only [Option.bind_some, payload, unchanged]
        split
        · exact writesLast_set stored
        · exact .done fun _ => nofun
  · exact writesLast_set _

theorem writesLast_rebuild (c : Config) (key : Key) : WritesLast (rebuild c key) :=
  .checked key (.andThen (keeps_derive_questions c key) fun v => writesLast_save c key v)

end Cache

end CacheAside
