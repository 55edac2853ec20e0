import CacheAside.Span
import CacheAside.Store.Glob

namespace CacheAside

namespace Redis

def batch : Nat := 200

inductive Command where
  | get (key : String)
  | set (key text : String)
  | setFor (key : String) (seconds : Nat) (text : String)
  | delete (keys : List String)
  | scan (cursor : Nat) (pattern : String)
  deriving DecidableEq, Repr

/-- Some keys that match, and the cursor of the next page as the server wrote it. -/
structure Page where
  cursor : String
  keys : List String
  deriving DecidableEq, Repr

abbrev Command.Reply : Command → Type
  | get _ => Option String
  | set .. => Unit
  | setFor .. => Unit
  | delete _ => Nat
  | scan .. => Page

/-- A server with a state, which a refused command may change too. -/
abbrev Server (σ : Type) := (command : Command) → OptionT (StateM σ) command.Reply

def cursor? (text : String) : Option Nat :=
  let digits := match text.toList with
    | '+' :: digits => digits
    | digits => digits
  let value := Nat.ofDigitChars 10 digits 0
  if digits ≠ [] ∧ digits.all Char.isDigit ∧ value < 0x1_0000_0000_0000_0000 then some value
  else none

def dropRepeats : List String → List String
  | [] => []
  | [key] => [key]
  | a :: b :: rest => if a = b then dropRepeats (b :: rest) else a :: dropRepeats (b :: rest)

def pieces (size : Nat) : Nat → List String → List (List String)
  | 0, _ => []
  | _ + 1, [] => []
  | count + 1, keys => keys.take size :: pieces size count (keys.drop size)

variable {σ : Type} (server : Server σ)

def get (key : String) : OptionT (StateM σ) (Option String) := server (.get key)

/-- A text lasts for whole seconds, and for one at least. -/
def set (key text : String) : Option Span → OptionT (StateM σ) Unit
  | some lifetime => server (.setFor key (max lifetime.seconds 1) text)
  | none => server (.set key text)

def erase (key : String) : OptionT (StateM σ) Unit := do
  let _ ← server (.delete [key])

/-- The keys on the pages from `cursor` on, as they come; the page that names the cursor zero is the
last. Gives up after `rounds` pages. -/
def scan (pattern : String) : Nat → Nat → OptionT (StateM σ) (List String)
  | 0, _ => failure
  | rounds + 1, cursor => do
    let page ← server (.scan cursor pattern)
    match cursor? page.cursor with
    | none => failure
    | some 0 => return page.keys
    | some next => return page.keys ++ (← scan pattern rounds next)

def eraseAll : List (List String) → OptionT (StateM σ) Nat
  | [] => return 0
  | keys :: rest => do
    let removed ← server (.delete keys)
    return removed + (← eraseAll rest)

/-- Erases every key with this start and answers how many there were. A key that is on several pages
is named once, and keys are named in ascending order. -/
def erasePrefix (rounds : Nat) (start : String) : OptionT (StateM σ) Nat := do
  let keys ← scan server (Glob.startingWith start) rounds 0
  let keys := dropRepeats (keys.mergeSort (fun a b => !decide (b < a)))
  eraseAll server (pieces batch keys.length keys)

end Redis

end CacheAside
