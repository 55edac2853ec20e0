import CacheAside.Simulation.Operation
import CacheAside.Simulation.Scene

namespace CacheAside

namespace Simulation

structure Session where
  config : Config
  scene : Scene
  accepting : Bool
  rebuilds : List Rebuild
  patches : List Patch
  rebuildsRun : Nat
  patchesRun : Nat

namespace Session

def start (config : Config) (scene : Scene) : Session where
  config := { config with
    rebuilds.name := "rebuild"
    patches.name := "patch" }
  scene := scene
  accepting := true
  rebuilds := []
  patches := []
  rebuildsRun := 0
  patchesRun := 0

def reply : (request : Request) → Session → Option request.Reply × Session
  | .store call, s =>
    let (answer, scene) := s.scene.call call
    (some answer, { s with scene })
  | .source question, s =>
    let (answer, scene) := (s.scene.ask question).answer question
    (answer, { s with scene })
  | .offerRebuild job, s =>
    (some s.accepting, if s.accepting then { s with rebuilds := s.rebuilds ++ [job] } else s)
  | .offerPatch job, s =>
    (some s.accepting, if s.accepting then { s with patches := s.patches ++ [job] } else s)
  | .timestamp, s => (some s.scene.time, s)

abbrev Result := Option (Except Failure Answer)

def perform (s : Session) (operation : Operation) : Result × Session :=
  (operation.program s.config).run reply s

def performAll : List Operation → Session → List Result × Session
  | [], s => ([], s)
  | operation :: operations, s =>
    let (result, s) := s.perform operation
    let (results, s) := performAll operations s
    (result :: results, s)

def runQueued (s : Session) : List Result × Session :=
  let jobs :=
    (s.rebuilds.drop s.rebuildsRun).map .carryOut ++ (s.patches.drop s.patchesRun).map .editAll
  performAll jobs
    { s with rebuildsRun := s.rebuilds.length, patchesRun := s.patches.length }

def close (s : Session) : Session := { s with accepting := false }

def change (s : Session) (change : Change) : Session := { s with scene := s.scene.change change }

end Session

end Simulation

end CacheAside
