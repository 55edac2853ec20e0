import CacheAside.Queue.Policy
import CacheAside.Timetable

namespace CacheAside

structure Config where
  /-- How long an entry lasts; without it, until it is purged or written again. -/
  lifetime : Option Span
  /-- The member of an object that says when it was written. -/
  stampField : Option String
  periods : List String
  rebuilds : QueuePolicy
  patches : QueuePolicy
  timetable : Timetable
  deriving Repr

def Config.standard : Config where
  lifetime := none
  stampField := some "_cachedAt"
  periods := ["2021", "2022", "2023", "latest"]
  rebuilds := .rebuilds
  patches := .patches
  timetable := .standard

end CacheAside
