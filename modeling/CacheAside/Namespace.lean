namespace CacheAside

/-- Entries derived by the same question to the source. -/
inductive Namespace where
  | collections
  | autoCollects
  | userStats
  | insights
  | shareLinks
  | state
  deriving DecidableEq, Repr, Inhabited

inductive Shape where
  | list
  | scalar
  deriving DecidableEq, Repr

inductive IdentifiedBy where
  | user
  | shareLink
  | nothing
  deriving DecidableEq, Repr

namespace Namespace

def all : List Namespace := [collections, autoCollects, userStats, insights, shareLinks, state]

def name : Namespace → String
  | collections => "collections"
  | autoCollects => "autoCollects"
  | userStats => "userStats"
  | insights => "insights"
  | shareLinks => "shareLinks"
  | state => "state"

def shape : Namespace → Shape
  | collections | autoCollects => .list
  | userStats | insights | shareLinks | state => .scalar

def identifiedBy : Namespace → IdentifiedBy
  | shareLinks => .shareLink
  | state => .nothing
  | collections | autoCollects | userStats | insights => .user

def isSingle (ns : Namespace) : Bool := ns.identifiedBy = .nothing

def keyStart (ns : Namespace) : String := ns.name ++ ":"

def ofName? (name : String) : Option Namespace := all.find? (·.name = name)

theorem name_injective {a b : Namespace} (h : a.name = b.name) : a = b := by
  cases a <;> cases b <;> first | rfl | exact absurd h (by decide)

theorem ofName?_name (ns : Namespace) : ofName? ns.name = some ns := by
  cases ns <;> decide

theorem name_of_ofName? {name : String} {ns : Namespace} (h : ofName? name = some ns) :
    ns.name = name := by
  have found := List.find?_some h
  simpa using found

end Namespace

end CacheAside
