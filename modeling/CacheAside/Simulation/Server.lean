import CacheAside.Store.Redis

namespace CacheAside

namespace Redis

def Command.name : Command → String
  | get _ => "GET"
  | set .. => "SET"
  | setFor .. => "SETEX"
  | delete _ => "DEL"
  | scan .. => "SCAN"

def Command.arguments : Command → List String
  | get key => [key]
  | set key text => [key, text]
  | setFor key seconds text => [key, Decimal.text seconds, text]
  | delete keys => keys
  | scan cursor pattern =>
    [Decimal.text cursor, "MATCH", pattern, "COUNT", Decimal.text batch]

structure ScriptedServer where
  data : List (String × String)
  pages : List Page
  refusals : List (String × Nat)
  sent : List Command

namespace ScriptedServer

def erase (server : ScriptedServer) (key : String) : ScriptedServer :=
  { server with data := server.data.filter (·.1 ≠ key) }

def insert (server : ScriptedServer) (key text : String) : ScriptedServer :=
  { server with data := (key, text) :: (server.erase key).data }

def has (server : ScriptedServer) (key : String) : Bool := server.data.any (·.1 = key)

def eraseAll : List String → ScriptedServer → Nat × ScriptedServer
  | [], server => (0, server)
  | key :: keys, server =>
    let (count, rest) := eraseAll keys (server.erase key)
    (if server.has key then count + 1 else count, rest)

def turnPage (server : ScriptedServer) : Page × ScriptedServer :=
  match server.pages with
  | [] => (⟨"0", []⟩, server)
  | page :: pages => (page, { server with pages })

def receive (server : ScriptedServer) (command : Command) : Bool × ScriptedServer :=
  let server := { server with sent := server.sent ++ [command] }
  match server.refusals.lookup command.name with
  | some (count + 1) =>
    (true, { server with
      refusals := (command.name, count) :: server.refusals.filter (·.1 ≠ command.name) })
  | _ => (false, server)

def perform (server : ScriptedServer) : (command : Command) → command.Reply × ScriptedServer
  | .get key => (server.data.lookup key, server)
  | .set key text => ((), server.insert key text)
  | .setFor key _ text => ((), server.insert key text)
  | .delete keys => eraseAll keys server
  | .scan _ _ => server.turnPage

def exchange : Server ScriptedServer := fun command server =>
  match server.receive command with
  | (true, server) => (none, server)
  | (false, server) =>
    let (reply, server) := server.perform command
    (some reply, server)

/-- A page is asked for at most once, and the empty one after them. -/
def erasePrefix (start : String) : OptionT (StateM ScriptedServer) Nat := fun server =>
  Redis.erasePrefix exchange (server.pages.length + 1) start server

end ScriptedServer

end Redis

end CacheAside
