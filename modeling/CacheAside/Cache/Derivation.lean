import CacheAside.Config
import CacheAside.Program

namespace CacheAside

namespace Cache

open Program

def everyone : String := "global"

def derivePeriods (key : String) (user : Option String) :
    List String → Json.Fields → Program Json.Fields
  | [], fields => pure fields
  | period :: periods, fields => do
    let value ← found key (← source key (.insights user period))
    derivePeriods key user periods (fields.insert period value)

def derive (c : Config) (key : Key) : Program Json := do
  let id := key.id.getD ""
  let name := key.text
  match key.ns with
  | .collections => return .array (← found name (← source name (.collections id)))
  | .autoCollects => return .array (← found name (← source name (.autoCollects id)))
  | .userStats => found name (← source name (.stats id))
  | .shareLinks => found name (← source name (.shareLink id))
  | .state => found name (← source name .state)
  | .insights =>
    let user := if id = everyone then none else some id
    return .object (← derivePeriods name user c.periods [])

def expectedKeys (ns : Namespace) : Program (List Key) :=
  match ns.identifiedBy with
  | .nothing => pure [.only ns]
  | .shareLink => do return (← source ns.name .tokens).map (.of ns)
  | .user => do
    let keys := (← source ns.name .users).map (.of ns)
    return if ns = .insights then keys ++ [.of ns everyone] else keys

end Cache

end CacheAside
