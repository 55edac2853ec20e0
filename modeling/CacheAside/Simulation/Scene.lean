import CacheAside.Simulation.Source
import CacheAside.Simulation.Store

namespace CacheAside

namespace Simulation

structure Scene where
  store : Store
  source : Source
  time : String
  calls : List StoreCall
  questions : List Question

namespace Scene

def call (scene : Scene) (call : StoreCall) : Except String call.Answer × Scene :=
  let (answer, store) := scene.store.call call
  (answer, { scene with store, calls := scene.calls ++ [call] })

def ask (scene : Scene) (question : Question) : Scene :=
  { scene with questions := scene.questions ++ [question] }

def answer (scene : Scene) (question : Question) :
    Option (Except String question.Answer) × Scene :=
  let (answer, source) := scene.source.answer question
  (answer, { scene with source })

def clear (scene : Scene) : Scene := { scene with calls := [], questions := [] }

end Scene

inductive Change where
  | put (key text : String)
  | down (down : Bool)
  | budget (calls : Nat)
  | reject (call key : String)
  | heal
  | source (revise : Source → Source)

def Faults.change (faults : Faults) : Change → Faults
  | .down down => { faults with down }
  | .budget calls => { faults with budget := some calls }
  | .reject call key => { faults with rejected := (call, key) :: faults.rejected }
  | .heal => .none
  | _ => faults

/-- A text that is put into the store directly stays there and is no call. -/
def Scene.change (scene : Scene) : Change → Scene
  | .put key text =>
    { scene with store.entries := scene.store.entries.insert key ⟨text, none⟩ }
  | .source revise => { scene with source := revise scene.source }
  | change => { scene with store.faults := scene.store.faults.change change }

end Simulation

end CacheAside
