import CacheAside.Binary64
import CacheAside.Binary64.Shortest
import CacheAside.Cache.Derivation
import CacheAside.Cache.Editing
import CacheAside.Cache.Entry
import CacheAside.Cache.Purge
import CacheAside.Cache.Reading
import CacheAside.Cache.Rebuild
import CacheAside.Config
import CacheAside.Decimal
import CacheAside.Edit
import CacheAside.Entity
import CacheAside.Failure
import CacheAside.Job
import CacheAside.Json.Basic
import CacheAside.Json.Fields
import CacheAside.Json.Literal
import CacheAside.Json.Printer
import CacheAside.Json.Reader
import CacheAside.Key
import CacheAside.Namespace
import CacheAside.Program
import CacheAside.Queue.Basic
import CacheAside.Queue.Policy
import CacheAside.Report
import CacheAside.Sharing
import CacheAside.Sharing.Document
import CacheAside.Simulation.Agenda
import CacheAside.Simulation.Live
import CacheAside.Simulation.Operation
import CacheAside.Simulation.Scene
import CacheAside.Simulation.Server
import CacheAside.Simulation.Session
import CacheAside.Simulation.Source
import CacheAside.Simulation.Store
import CacheAside.Simulation.Timers
import CacheAside.Simulation.Workers
import CacheAside.Span
import CacheAside.Store.Entries
import CacheAside.Store.Glob
import CacheAside.Store.Redis
import CacheAside.Timetable
import CacheAside.Proofs.Json.Integers
import CacheAside.Proofs.Json.RoundTrip
import CacheAside.Proofs.Keys
import CacheAside.Proofs.Program.Keeps
import CacheAside.Proofs.World
import CacheAside.Proofs.Cache.Derivation
import CacheAside.Proofs.Cache.Payload
import CacheAside.Proofs.Cache.Transparency
import CacheAside.Proofs.Cache.Convergence
import CacheAside.Proofs.Cache.Healing
import CacheAside.Proofs.Cache.Reading
import CacheAside.Proofs.Queue.Accounting
import CacheAside.Proofs.Json.Parsed
import CacheAside.Proofs.Edits
import CacheAside.Proofs.Cache.Editing
import CacheAside.Proofs.Cache.Patching
import CacheAside.Proofs.Program.Interleaving
import CacheAside.Proofs.Cache.Granted
import CacheAside.Proofs.Cache.FanOut
import CacheAside.Proofs.Binary64.Rounding
import CacheAside.Proofs.Binary64.Shortest
import CacheAside.Proofs.Json.Doubles
import CacheAside.Proofs.Cache.Operations
import CacheAside.Proofs.Cache.WellFormed
import CacheAside.Proofs.Queue.Effects
import CacheAside.Proofs.Queue.Shutdown
import CacheAside.Proofs.Queue.Biography
import CacheAside.Proofs.Queue.Channel
import CacheAside.Proofs.Queue.Clock
import CacheAside.Proofs.Queue.Lifecycle
import CacheAside.Proofs.Cache.Rebuilding
import CacheAside.Proofs.Cache.Sweeping
import CacheAside.Proofs.Cache.SweepJobs
import CacheAside.Proofs.Cache.Elapsing
import CacheAside.Proofs.Cache.Purging
import CacheAside.Proofs.Cache.Tenancy
import CacheAside.Proofs.Cache.Redistribution
import CacheAside.Proofs.Store.ByteOrder
import CacheAside.Proofs.Store.Redis
import CacheAside.Proofs.Queue.Crew
import CacheAside.Proofs.Queue.Budget
import CacheAside.Proofs.Cache.Offering
import CacheAside.Proofs.Service
import CacheAside.Proofs.Program.Records
import CacheAside.Proofs.Cache.Finality
import CacheAside.Proofs.Cache.Restamping
import CacheAside.Proofs.Cache.Succession
import CacheAside.Proofs.Cache.Remainder
import CacheAside.Proofs.Workshop
import CacheAside.Proofs.Edits.Places
import CacheAside.Proofs.Edits.Exactness
import CacheAside.Proofs.Edits.Redelivery
import CacheAside.Proofs.Edits.Commutation
import CacheAside.Proofs.Edits.Revocation
import CacheAside.Proofs.Cache.Addressing
import CacheAside.Proofs.Cache.Intact
import CacheAside.Proofs.Cache.Visibility
import CacheAside.Proofs.Cache.Outcomes
import CacheAside.Proofs.Store.Glob
import CacheAside.Proofs.Queue.Pauses
import CacheAside.Proofs.Queue.DeadLetters
import CacheAside.Proofs.Timers.Clockwork
import CacheAside.Proofs.Timers.Schedule
import CacheAside.Proofs.Timers.Rehearsal
