import CacheAside.Program

namespace CacheAside

structure Exchange where
  request : Request
  reply : request.Reply

namespace Exchange

def storeCall? (x : Exchange) : Option StoreCall :=
  match x.request with
  | .store call => some call
  | _ => none

def question? (x : Exchange) : Option Question :=
  match x.request with
  | .source question => some question
  | _ => none

def offer? (x : Exchange) : Option (Rebuild × Bool) :=
  match x with
  | ⟨.offerRebuild job, taken⟩ => some (job, taken)
  | _ => none

def storeCalls (xs : List Exchange) : List StoreCall := xs.filterMap storeCall?

def questions (xs : List Exchange) : List Question := xs.filterMap question?

def offers (xs : List Exchange) : List (Rebuild × Bool) := xs.filterMap offer?

/-- A state that goes along with every exchange in turn. -/
inductive Follows {σ : Type} (step : σ → Exchange → σ → Prop) : σ → List Exchange → σ → Prop
  | nil (s : σ) : Follows step s [] s
  | cons {s s' s'' : σ} {x : Exchange} {xs : List Exchange} (first : step s x s')
      (rest : Follows step s' xs s'') : Follows step s (x :: xs) s''

theorem follows_append {σ : Type} {step : σ → Exchange → σ → Prop} {s s' : σ}
    {xs ys : List Exchange} :
    Follows step s (xs ++ ys) s' ↔
      ∃ between, Follows step s xs between ∧ Follows step between ys s' := by
  induction xs generalizing s with
  | nil =>
    constructor
    · intro follows
      exact ⟨s, .nil s, follows⟩
    · rintro ⟨_, ⟨⟩, follows⟩
      exact follows
  | cons x xs ih =>
    constructor
    · intro follows
      cases follows with | cons first rest =>
      obtain ⟨between, before, after⟩ := ih.mp rest
      exact ⟨between, .cons first before, after⟩
    · rintro ⟨between, before, after⟩
      cases before with | cons first rest =>
      exact .cons first (ih.mpr ⟨between, rest, after⟩)

end Exchange

namespace Program

variable {α β σ : Type}

/-- The exchanges of a program, and its result; it has none when it is broken off on the way. -/
inductive Runs : Program α → List Exchange → Option (Except Failure α) → Prop
  | done (result : Except Failure α) : Runs (.done result) [] (some result)
  | brokenOff (p : Program α) : Runs p [] none
  | ask {request : Request} {next : request.Reply → Program α} {xs : List Exchange}
      {result : Option (Except Failure α)} (reply : request.Reply)
      (rest : Runs (next reply) xs result) :
      Runs (.ask request next) (⟨request, reply⟩ :: xs) result

theorem runs_done {result : Except Failure α} {xs : List Exchange} {ending : Except Failure α} :
    (done result).Runs xs (some ending) ↔ xs = [] ∧ ending = result := by
  constructor
  · intro runs
    cases runs
    exact ⟨rfl, rfl⟩
  · intro h
    obtain ⟨rfl, rfl⟩ := h
    exact .done ending

theorem runs_ask {request : Request} {next : request.Reply → Program α} {xs : List Exchange}
    {ending : Except Failure α} :
    (ask request next).Runs xs (some ending) ↔
      ∃ reply rest, xs = ⟨request, reply⟩ :: rest ∧ (next reply).Runs rest (some ending) := by
  constructor
  · intro runs
    cases runs with
    | ask reply rest => exact ⟨reply, _, rfl, rest⟩
  · intro h
    obtain ⟨reply, rest, rfl, runs⟩ := h
    exact .ask reply runs

theorem runs_bind {p : Program α} {f : α → Program β} {xs : List Exchange}
    {ending : Except Failure β} :
    (p >>= f).Runs xs (some ending) ↔
      (∃ a before after, xs = before ++ after ∧ p.Runs before (some (.ok a)) ∧
        (f a).Runs after (some ending)) ∨
      ∃ failure, ending = .error failure ∧ p.Runs xs (some (.error failure)) := by
  change (p.bind f).Runs xs (some ending) ↔ _
  induction p generalizing xs with
  | done result =>
    cases result with
    | ok a =>
      simp only [bind, runs_done]
      constructor
      · intro runs
        exact .inl ⟨a, [], xs, rfl, ⟨rfl, rfl⟩, runs⟩
      · intro h
        rcases h with ⟨a', before, after, rfl, ⟨rfl, same⟩, runs⟩ | ⟨failure, _, _, same⟩
        · cases same
          exact runs
        · cases same
    | error failure =>
      simp only [bind, runs_done]
      constructor
      · intro h
        obtain ⟨rfl, rfl⟩ := h
        exact .inr ⟨failure, rfl, rfl, rfl⟩
      · intro h
        rcases h with ⟨a, before, after, _, ⟨_, same⟩, _⟩ | ⟨failure', rfl, rfl, same⟩
        · cases same
        · cases same
          exact ⟨rfl, rfl⟩
  | ask request next ih =>
    simp only [bind, runs_ask]
    constructor
    · intro h
      obtain ⟨reply, rest, rfl, runs⟩ := h
      rcases (ih reply).mp runs with ⟨a, before, after, rfl, first, second⟩ | ⟨failure, same, first⟩
      · exact .inl ⟨a, ⟨request, reply⟩ :: before, after, rfl, ⟨reply, before, rfl, first⟩, second⟩
      · exact .inr ⟨failure, same, reply, rest, rfl, first⟩
    · intro h
      rcases h with ⟨a, _, after, rfl, ⟨reply, before, rfl, first⟩, second⟩ |
        ⟨failure, same, reply, rest, rfl, first⟩
      · have runs := (ih reply).mpr (.inl ⟨a, before, after, rfl, first, second⟩)
        exact ⟨reply, before ++ after, rfl, runs⟩
      · have runs := (ih reply).mpr (.inr ⟨failure, same, first⟩)
        exact ⟨reply, rest, rfl, runs⟩

theorem runs_andReturn {p : Program α} {b : β} {xs : List Exchange} {ending : Except Failure β} :
    (do let _ ← p; return b : Program β).Runs xs (some ending) ↔
      ∃ result, p.Runs xs (some result) ∧ ending = result.map fun _ => b := by
  constructor
  · intro runs
    rcases runs_bind.mp runs with ⟨a, _, _, rfl, first, ends⟩ | ⟨failure, rfl, first⟩
    · obtain ⟨rfl, rfl⟩ := runs_done.mp ends
      rw [List.append_nil]
      exact ⟨.ok a, first, rfl⟩
    · exact ⟨.error failure, first, rfl⟩
  · rintro ⟨result, first, rfl⟩
    cases result with
    | ok a => exact runs_bind.mpr (.inl ⟨a, xs, [], (List.append_nil xs).symm, first, .done _⟩)
    | error failure => exact runs_bind.mpr (.inr ⟨failure, rfl, first⟩)

theorem runs_attempt {p : Program α} {xs : List Exchange}
    {ending : Except Failure (Except Failure α)} :
    p.attempt.Runs xs (some ending) ↔ ∃ result, ending = .ok result ∧ p.Runs xs (some result) := by
  induction p generalizing xs with
  | done result =>
    simp only [attempt, runs_done]
    constructor
    · intro h
      obtain ⟨rfl, rfl⟩ := h
      exact ⟨result, rfl, rfl, rfl⟩
    · intro h
      obtain ⟨_, rfl, rfl, rfl⟩ := h
      exact ⟨rfl, rfl⟩
  | ask request next ih =>
    simp only [attempt, runs_ask, ih]
    constructor
    · intro h
      obtain ⟨reply, rest, rfl, result, rfl, runs⟩ := h
      exact ⟨result, rfl, reply, rest, rfl, runs⟩
    · intro h
      obtain ⟨result, rfl, reply, rest, rfl, runs⟩ := h
      exact ⟨reply, rest, rfl, result, rfl, runs⟩

theorem runs_store {call : StoreCall} {xs : List Exchange} {ending : Except Failure call.Answer} :
    (store call).Runs xs (some ending) ↔
      ∃ reply : Except String call.Answer, xs = [⟨.store call, reply⟩] ∧
        ending = reply.mapError .storeUnavailable := by
  simp only [store, runs_ask]
  constructor
  · intro h
    obtain ⟨reply, rest, rfl, runs⟩ := h
    cases reply <;>
    · obtain ⟨rfl, rfl⟩ := runs_done.mp runs
      exact ⟨_, rfl, rfl⟩
  · intro h
    obtain ⟨reply, rfl, rfl⟩ := h
    refine ⟨reply, [], rfl, ?_⟩
    cases reply <;> exact .done _

theorem runs_checked {key : Key} {p : Program α} {xs : List Exchange} {ending : Except Failure α} :
    (do check key; p : Program α).Runs xs (some ending) ↔
      key.Valid ∧ p.Runs xs (some ending) ∨
        ∃ fault, key.check = .error fault ∧ xs = [] ∧ ending = .error (.invalidKey fault) := by
  unfold check Key.Valid
  cases key.check with
  | ok => simp [Pure.pure, Bind.bind, bind]
  | error fault => simp [fail, Bind.bind, bind, runs_done]

theorem runs_offerRebuild {job : Rebuild} {xs : List Exchange} {ending : Except Failure Bool} :
    (offerRebuild job).Runs xs (some ending) ↔
      ∃ taken : Bool, xs = [⟨.offerRebuild job, taken⟩] ∧ ending = .ok taken := by
  simp only [offerRebuild, runs_ask]
  constructor
  · intro h
    obtain ⟨taken, rest, rfl, runs⟩ := h
    obtain ⟨rfl, rfl⟩ := runs_done.mp runs
    exact ⟨taken, rfl, rfl⟩
  · intro h
    obtain ⟨taken, rfl, rfl⟩ := h
    exact ⟨taken, [], rfl, .done _⟩

theorem exists_runs (reply : (request : Request) → σ → request.Reply × σ) (p : Program α) (s : σ) :
    ∃ xs ending s', p.Runs xs (some ending) ∧
      Exchange.Follows (fun s x s' => reply x.request s = (x.reply, s')) s xs s' := by
  induction p generalizing s with
  | done result => exact ⟨[], result, s, .done result, .nil s⟩
  | ask request next ih =>
    obtain ⟨xs, ending, s', runs, follows⟩ := ih (reply request s).1 (reply request s).2
    exact ⟨_, ending, s', .ask _ runs, .cons rfl follows⟩

end Program

end CacheAside
