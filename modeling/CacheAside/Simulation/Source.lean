import CacheAside.Cache.Derivation
import CacheAside.Program

namespace CacheAside

namespace Simulation

/-- A shared collection that the source knows of but cannot make sense of is none. -/
abbrev SharedData := List (String × Option SharedCollection)

structure Source where
  users : List String
  tokens : List String
  collections : List (String × List Json)
  autoCollects : List (String × List Json)
  stats : List (String × Json)
  shareLinks : List (String × Json)
  insights : List (String × List (String × Json))
  everyone : List (String × Json)
  state : Option Json
  shared : SharedData
  delays : List (String × Nat)
  /-- How often a question about an identifier fails; without a number, always. -/
  failing : List (String × Option Nat)
  breaking : List String
  enumerationFailures : Nat

namespace Source

def empty : Source where
  users := []
  tokens := []
  collections := []
  autoCollects := []
  stats := []
  shareLinks := []
  insights := []
  everyone := []
  state := none
  shared := []
  delays := []
  failing := []
  breaking := []
  enumerationFailures := 0

def subject? : Question → Option String
  | .users | .tokens => none
  | .collections user | .autoCollects user | .stats user => some user
  | .collection id => some id
  | .insights user _ => some (user.getD Cache.everyone)
  | .shareLink token => some token
  | .state => some "state"

def delay (source : Source) (question : Question) : Nat :=
  ((subject? question).bind fun id => source.delays.lookup id).getD 0

def look (source : Source) : (question : Question) → Except String question.Answer
  | .users => .ok source.users
  | .tokens => .ok source.tokens
  | .collections user => .ok (source.collections.lookup user)
  | .autoCollects user => .ok (source.autoCollects.lookup user)
  | .stats user => .ok (source.stats.lookup user)
  | .shareLink token => .ok (source.shareLinks.lookup token)
  | .insights none period => .ok (source.everyone.lookup period)
  | .insights (some user) period => .ok ((source.insights.lookup user).bind (·.lookup period))
  | .state => .ok source.state
  | .collection id =>
    match source.shared.lookup id with
    | none => .ok none
    | some (some shared) => .ok (some shared)
    | some none => .error "bad shared collection"

def fail (source : Source) (id : String) (left : Nat) : Source :=
  { source with failing := (id, some left) :: source.failing.filter (·.1 ≠ id) }

/-- The answer to a question, once its time has passed: a failure if one is left for it, nothing if
it breaks the run off, and what the data says otherwise. -/
def answer (source : Source) (question : Question) :
    Option (Except String question.Answer) × Source :=
  match subject? question with
  | none =>
    if 0 < source.enumerationFailures then
      (some (.error "enumeration failed"),
        { source with enumerationFailures := source.enumerationFailures - 1 })
    else (some (source.look question), source)
  | some id =>
    let unavailable := .error ("backend unavailable for " ++ id)
    match source.failing.lookup id with
    | some none => (some unavailable, source)
    | some (some (left + 1)) => (some unavailable, source.fail id left)
    | _ =>
      if source.breaking.contains id then (none, source) else (some (source.look question), source)

end Source

end Simulation

end CacheAside
