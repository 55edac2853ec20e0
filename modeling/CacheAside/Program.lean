import CacheAside.Failure
import CacheAside.Job
import CacheAside.Sharing
import CacheAside.Span

namespace CacheAside

inductive StoreCall where
  | get (key : String)
  | set (key text : String) (lifetime : Option Span)
  | erase (key : String)
  | erasePrefix (start : String)
  deriving DecidableEq, Repr

abbrev StoreCall.Answer : StoreCall → Type
  | get _ => Option String
  | set .. => Unit
  | erase _ => Unit
  | erasePrefix _ => Nat

inductive Question where
  | users
  | tokens
  | collections (user : String)
  | collection (id : String)
  | autoCollects (user : String)
  | stats (user : String)
  | insights (user : Option String) (period : String)
  | shareLink (token : String)
  | state
  deriving DecidableEq, Repr

/-- What the source answers when it can be asked: nothing for an entity that does not exist. -/
abbrev Question.Answer : Question → Type
  | users => List String
  | tokens => List String
  | collections _ => Option (List Json)
  | collection _ => Option SharedCollection
  | autoCollects _ => Option (List Json)
  | stats _ => Option Json
  | insights .. => Option Json
  | shareLink _ => Option Json
  | state => Option Json

inductive Request where
  | store (call : StoreCall)
  | source (question : Question)
  | offerRebuild (job : Rebuild)
  | offerPatch (job : Patch)
  | timestamp
  deriving Repr

abbrev Request.Reply : Request → Type
  | store call => Except String call.Answer
  | source question => Except String question.Answer
  | offerRebuild _ => Bool
  | offerPatch _ => Bool
  | timestamp => String

/-- An operation of the cache as data. It asks one thing at a time of the store, the source, the
queues or the clock and goes on with the reply, so that it can be run alone, beside others, and
against a store that fails. -/
inductive Program (α : Type) where
  | done (result : Except Failure α)
  | ask (request : Request) (next : request.Reply → Program α)

namespace Program

variable {α β γ σ : Type}

def bind : Program α → (α → Program β) → Program β
  | done (.ok a), f => f a
  | done (.error failure), _ => done (.error failure)
  | ask request next, f => ask request fun reply => (next reply).bind f

instance : Monad Program where
  pure a := done (.ok a)
  bind := bind

theorem bind_assoc (p : Program α) (f : α → Program β) (g : β → Program γ) :
    (p.bind f).bind g = p.bind fun a => (f a).bind g := by
  induction p with
  | done result => cases result <;> rfl
  | ask request next ih =>
    simp only [bind]
    congr
    funext reply
    exact ih reply

theorem bind_pure (p : Program α) : p.bind (fun a => done (.ok a)) = p := by
  induction p with
  | done result => cases result <;> rfl
  | ask request next ih =>
    simp only [bind]
    congr
    funext reply
    exact ih reply

def fail (failure : Failure) : Program α := done (.error failure)

def attempt : Program α → Program (Except Failure α)
  | done result => done (.ok result)
  | ask request next => ask request fun reply => (next reply).attempt

def store (call : StoreCall) : Program call.Answer :=
  ask (.store call) fun
    | .ok answer => pure answer
    | .error reason => fail (.storeUnavailable reason)

def source (key : String) (question : Question) : Program question.Answer :=
  ask (.source question) fun
    | .ok answer => pure answer
    | .error reason => fail (.source key (.backend reason))

def found (key : String) : Option α → Program α
  | some a => pure a
  | none => fail (.source key .notFound)

def timestamp : Program String := ask .timestamp pure

def offerRebuild (job : Rebuild) : Program Bool := ask (.offerRebuild job) pure

def offerPatch (job : Patch) : Program Bool := ask (.offerPatch job) pure

def check (key : Key) : Program Unit :=
  match key.check with
  | .ok () => pure ()
  | .error fault => fail (.invalidKey fault)

/-- Runs a program against replies that depend on a state. A request without a reply breaks it off
for good. -/
def run (reply : (request : Request) → σ → Option request.Reply × σ) :
    Program α → σ → Option (Except Failure α) × σ
  | done result, s => (some result, s)
  | ask request next, s =>
    match reply request s with
    | (some r, s) => (next r).run reply s
    | (none, s) => (none, s)

variable (reply : (request : Request) → σ → Option request.Reply × σ)

theorem run_bind (p : Program α) (f : α → Program β) (s : σ) :
    (p.bind f).run reply s =
      match p.run reply s with
      | (some (.ok a), s) => (f a).run reply s
      | (some (.error failure), s) => (some (.error failure), s)
      | (none, s) => (none, s) := by
  induction p generalizing s with
  | done result => cases result <;> rfl
  | ask request next ih =>
    simp only [bind, run]
    rcases reply request s with ⟨r, s'⟩
    cases r with
    | none => rfl
    | some r => exact ih r s'

theorem run_attempt (p : Program α) (s : σ) :
    p.attempt.run reply s =
      match p.run reply s with
      | (some result, s) => (some (.ok result), s)
      | (none, s) => (none, s) := by
  induction p generalizing s with
  | done result => rfl
  | ask request next ih =>
    simp only [attempt, run]
    rcases reply request s with ⟨r, s'⟩
    cases r with
    | none => rfl
    | some r => exact ih r s'

end Program

end CacheAside
