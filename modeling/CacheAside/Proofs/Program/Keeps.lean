import CacheAside.Proofs.Program.Runs

namespace CacheAside

/-- What may be asked, and what may be replied. -/
structure Terms where
  asks : Request → Prop
  replies : (request : Request) → request.Reply → Prop

namespace Program

variable {α β σ : Type} {terms : Terms}

/-- Under these terms only what may be asked is asked, and results and failures are as stated. -/
def Keeps (terms : Terms) (returns : α → Prop) (fails : Failure → Prop) : Program α → Prop
  | done (.ok a) => returns a
  | done (.error failure) => fails failure
  | ask request next =>
    terms.asks request ∧
      ∀ reply, terms.replies request reply → (next reply).Keeps terms returns fails

theorem Keeps.mono {p : Program α} {returns returns' : α → Prop} {fails fails' : Failure → Prop}
    (keeps : p.Keeps terms returns fails) (results : ∀ a, returns a → returns' a)
    (failures : ∀ failure, fails failure → fails' failure) : p.Keeps terms returns' fails' := by
  induction p with
  | done result =>
    cases result with
    | ok a => exact results a keeps
    | error failure => exact failures failure keeps
  | ask request next ih => exact ⟨keeps.1, fun reply may => ih reply (keeps.2 reply may)⟩

theorem Keeps.of_runs {p : Program α} {returns returns' : α → Prop} {fails : Failure → Prop}
    (keeps : p.Keeps terms returns fails)
    (ends : ∀ xs a, p.Runs xs (some (.ok a)) →
      (∀ x ∈ xs, terms.replies x.request x.reply) → returns' a) : p.Keeps terms returns' fails := by
  induction p with
  | done result =>
    cases result with
    | ok a => exact ends [] a (.done _) (List.forall_mem_nil _)
    | error failure => exact keeps
  | ask request next ih =>
    refine ⟨keeps.1, ?_⟩
    intro reply may
    apply ih reply (keeps.2 reply may)
    intro xs a runs replied
    have all : ∀ x ∈ (⟨request, reply⟩ :: xs : List Exchange), terms.replies x.request x.reply :=
      List.forall_mem_cons.mpr ⟨may, replied⟩
    exact ends (⟨request, reply⟩ :: xs) a (.ask reply runs) all

theorem Keeps.ends {p : Program α} {returns : α → Prop} {fails : Failure → Prop}
    (keeps : p.Keeps terms returns fails) {xs : List Exchange} {ending : Except Failure α}
    (runs : p.Runs xs (some ending)) (replied : ∀ x ∈ xs, terms.replies x.request x.reply) :
    (∀ x ∈ xs, terms.asks x.request) ∧ (done ending).Keeps terms returns fails := by
  induction p generalizing xs with
  | done result =>
    obtain ⟨rfl, rfl⟩ := runs_done.mp runs
    exact ⟨List.forall_mem_nil _, keeps⟩
  | ask request next ih =>
    obtain ⟨reply, rest, rfl, after⟩ := runs_ask.mp runs
    obtain ⟨may, others⟩ := List.forall_mem_cons.mp replied
    obtain ⟨asked, ended⟩ := ih reply (keeps.2 reply may) after others
    exact ⟨List.forall_mem_cons.mpr ⟨keeps.1, asked⟩, ended⟩

theorem Keeps.bind {p : Program α} {f : α → Program β} {returns : α → Prop} {returns' : β → Prop}
    {fails : Failure → Prop} (first : p.Keeps terms returns fails)
    (second : ∀ a, returns a → (f a).Keeps terms returns' fails) :
    (p >>= f).Keeps terms returns' fails := by
  change (p.bind f).Keeps terms returns' fails
  induction p with
  | done result =>
    cases result with
    | ok a => exact second a first
    | error failure => exact first
  | ask request next ih => exact ⟨first.1, fun reply may => ih reply (first.2 reply may)⟩

theorem Keeps.attempt {p : Program α} {returns : α → Prop} {fails fails' : Failure → Prop}
    (keeps : p.Keeps terms returns fails) :
    p.attempt.Keeps terms
      (fun | .ok a => returns a | .error failure => fails failure) fails' := by
  induction p with
  | done result => cases result <;> exact keeps
  | ask request next ih => exact ⟨keeps.1, fun reply may => ih reply (keeps.2 reply may)⟩

theorem keeps_store {call : StoreCall} {fails : Failure → Prop} (asks : terms.asks (.store call))
    (failing : ∀ reason, fails (.storeUnavailable reason)) :
    (store call).Keeps terms (fun answer => terms.replies (.store call) (.ok answer)) fails := by
  refine ⟨asks, fun reply may => ?_⟩
  cases reply with
  | ok answer => exact may
  | error reason => exact failing reason

theorem keeps_source {key : String} {question : Question} {fails : Failure → Prop}
    (asks : terms.asks (.source question)) (failing : ∀ fault, fails (.source key fault)) :
    (source key question).Keeps terms
      (fun answer => terms.replies (.source question) (.ok answer)) fails := by
  refine ⟨asks, fun reply may => ?_⟩
  cases reply with
  | ok answer => exact may
  | error reason => exact failing (.backend reason)

theorem keeps_found {key : String} {o : Option α} {fails : Failure → Prop}
    (failing : ∀ fault, fails (.source key fault)) :
    (found key o).Keeps terms (fun a => o = some a) fails := by
  cases o with
  | none => exact failing .notFound
  | some a => rfl

theorem keeps_check {key : Key} {fails : Failure → Prop}
    (failing : ∀ fault, key.check = .error fault → fails (.invalidKey fault)) :
    (check key).Keeps terms (fun _ => key.Valid) fails := by
  unfold check
  cases checked : key.check with
  | ok => exact checked
  | error fault => exact failing fault checked

theorem keeps_offerRebuild {job : Rebuild} {fails : Failure → Prop}
    (asks : terms.asks (.offerRebuild job)) :
    (offerRebuild job).Keeps terms (fun _ => True) fails := ⟨asks, fun _ _ => True.intro⟩

theorem keeps_offerPatch {job : Patch} {fails : Failure → Prop}
    (asks : terms.asks (.offerPatch job)) :
    (offerPatch job).Keeps terms (fun _ => True) fails := ⟨asks, fun _ _ => True.intro⟩

theorem keeps_timestamp {fails : Failure → Prop} (asks : terms.asks .timestamp) :
    timestamp.Keeps terms (fun _ => True) fails := ⟨asks, fun _ _ => True.intro⟩

/-- In a state that honours the terms, and goes on to honour them after everything that may be
asked, a run leaves such a state and ends as stated. -/
theorem Keeps.run {p : Program α} {returns : α → Prop} {fails : Failure → Prop}
    {step : σ → Exchange → σ → Prop} {holds : σ → Prop} (keeps : p.Keeps terms returns fails)
    (replied : ∀ s x s', holds s → step s x s' → terms.replies x.request x.reply)
    (kept : ∀ s x s', holds s → terms.asks x.request → step s x s' → holds s')
    {s s' : σ} {xs : List Exchange} {result : Option (Except Failure α)} (start : holds s)
    (runs : p.Runs xs result) (follows : Exchange.Follows step s xs s') :
    holds s' ∧ (∀ a, result = some (.ok a) → returns a) ∧
      ∀ failure, result = some (.error failure) → fails failure := by
  induction runs generalizing s with
  | done result =>
    cases follows
    refine ⟨start, ?_, ?_⟩
    · intro a same
      cases same
      exact keeps
    · intro failure same
      cases same
      exact keeps
  | brokenOff p =>
    cases follows
    exact ⟨start, nofun, nofun⟩
  | ask reply rest ih =>
    cases follows with
    | cons first others =>
      have next := keeps.2 reply (replied _ _ _ start first)
      exact ih next (kept _ _ _ start keeps.1 first) others

abbrev Abides (terms : Terms) (p : Program α) : Prop :=
  p.Keeps terms (fun _ => True) fun _ => True

theorem Keeps.abides {p : Program α} {returns : α → Prop}
    (keeps : p.Keeps terms returns fun _ => True) : Abides terms p :=
  keeps.mono (fun _ _ => True.intro) fun _ failed => failed

theorem Abides.andThen {p : Program α} {f : α → Program β} (first : Abides terms p)
    (second : ∀ a, Abides terms (f a)) : Abides terms (p >>= f) :=
  Keeps.bind first fun a _ => second a

theorem Abides.returns {p : Program α} (abides : Abides terms p) (f : α → β) :
    Abides terms (do return f (← p)) := abides.andThen fun _ => True.intro

theorem abides_store {call : StoreCall} (asks : terms.asks (.store call)) :
    Abides terms (store call) := (keeps_store asks fun _ => True.intro).abides

theorem abides_source {key : String} {question : Question}
    (asks : terms.asks (.source question)) : Abides terms (source key question) :=
  (keeps_source asks fun _ => True.intro).abides

theorem abides_check (key : Key) : Abides terms (check key) :=
  (keeps_check fun _ _ => True.intro).abides

end Program

end CacheAside
