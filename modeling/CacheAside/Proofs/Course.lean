import CacheAside.Proofs.Cache.Operations
import CacheAside.Proofs.World

namespace CacheAside

open Program Simulation

def shares (c : Config) (job : Patch) : List (Program Answer) :=
  (Cache.parts c job).map fun part => do let _ ← part.2; return .done

/-- What may happen next, if `may` says which operations may be started. The jobs in the queues
need no leave. -/
inductive Moves (c : Config) (answering : Answering) (may : Operation → Prop) :
    World → List (Program Answer) → World → List (Program Answer) → Prop
  | lapse {w w' : World} {ps : List (Program Answer)} (passed : w.Lapses w') :
    Moves c answering may w ps w' ps
  | start {w : World} {ps : List (Program Answer)} {operation : Operation}
    (allowed : may operation) : Moves c answering may w ps w (operation.program c :: ps)
  | share {w : World} {ps : List (Program Answer)} {job : Patch} (allowed : may (.editAll job)) :
    Moves c answering may w ps w (shares c job ++ ps)
  | takeRebuild {w : World} {ps : List (Program Answer)} {before after : List Rebuild}
    {job : Rebuild} (queued : w.rebuilds = before ++ job :: after) :
    Moves c answering may w ps { w with rebuilds := before ++ after }
      ((Operation.carryOut job).program c :: ps)
  | takePatch {w : World} {ps : List (Program Answer)} {before after : List Patch} {job : Patch}
    (queued : w.patches = before ++ job :: after) :
    Moves c answering may w ps { w with patches := before ++ after } (shares c job ++ ps)
  | turn {w w' : World} {before after : List (Program Answer)} {request : Request}
    {next : request.Reply → Program Answer} {reply : request.Reply}
    (met : w.Meets answering ⟨request, reply⟩ w') :
    Moves c answering may w (before ++ .ask request next :: after) w'
      (before ++ next reply :: after)
  | stop {w : World} {before after : List (Program Answer)} {p : Program Answer} :
    Moves c answering may w (before ++ p :: after) w (before ++ after)

/-- A cache at work: operations are started at any time, workers take queued jobs in any order, and
whatever is under way takes turns, or stops half-way for good. -/
inductive Course (c : Config) (answering : Answering) (may : Operation → Prop) :
    World → List (Program Answer) → World → List (Program Answer) → Prop
  | stays (w : World) (ps : List (Program Answer)) : Course c answering may w ps w ps
  | moves {w w' w'' : World} {ps ps' ps'' : List (Program Answer)}
    (first : Moves c answering may w ps w' ps') (rest : Course c answering may w' ps' w'' ps'') :
    Course c answering may w ps w'' ps''

variable {c : Config} {answering : Answering} {may : Operation → Prop} {w w' w'' : World}
  {ps ps' : List (Program Answer)}

theorem Moves.stopFirst {p : Program Answer} : Moves c answering may w (p :: ps) w ps :=
  have stops : Moves c answering may w ([] ++ p :: ps) w ([] ++ ps) := .stop
  stops

theorem Moves.turnFirst {request : Request} {next : request.Reply → Program Answer}
    {reply : request.Reply} (met : w.Meets answering ⟨request, reply⟩ w') :
    Moves c answering may w (.ask request next :: ps) w' (next reply :: ps) :=
  have turns : Moves c answering may w ([] ++ .ask request next :: ps) w'
    ([] ++ next reply :: ps) := .turn met
  turns

theorem Course.goesOn {p : Program Answer} {xs : List Exchange}
    {result : Option (Except Failure Answer)} (runs : p.Runs xs result)
    (follows : Exchange.Follows (World.Passes answering) w xs w')
    (rest : Course c answering may w' ps w'' ps') :
    Course c answering may w (p :: ps) w'' ps' := by
  induction runs generalizing w with
  | done result =>
    cases follows
    exact .moves .stopFirst rest
  | brokenOff p =>
    cases follows
    exact .moves .stopFirst rest
  | @ask request next xs result reply runs ih =>
    cases follows with
    | cons first others =>
      obtain ⟨between, passed, met⟩ := first
      exact .moves (.lapse passed) (.moves (.turnFirst met) (ih others))

theorem Course.perform {operation : Operation} {xs : List Exchange}
    {result : Option (Except Failure Answer)} (allowed : may operation)
    (runs : (operation.program c).Runs xs result)
    (follows : Exchange.Follows (World.Passes answering) w xs w')
    (rest : Course c answering may w' ps w'' ps') : Course c answering may w ps w'' ps' :=
  .moves (.start allowed) (.goesOn runs follows rest)

variable {terms : Terms} {holds : World → Prop}

structure Staffed (c : Config) (may : Operation → Prop) (terms : Terms) (holds : World → Prop) :
    Prop where
  operations : ∀ operation, may operation → Abides terms (operation.program c)
  parts : ∀ job, may (.editAll job) → ∀ p ∈ shares c job, Abides terms p
  rebuilds : ∀ w before job after, holds w → w.rebuilds = before ++ job :: after →
    holds { w with rebuilds := before ++ after } ∧
      Abides terms ((Operation.carryOut job).program c)
  patches : ∀ w before job after, holds w → w.patches = before ++ job :: after →
    holds { w with patches := before ++ after } ∧ ∀ p ∈ shares c job, Abides terms p

theorem Moves.abide (stable : Stable answering terms holds) (staffed : Staffed c may terms holds)
    (moves : Moves c answering may w ps w' ps') (start : holds w)
    (under : ∀ p ∈ ps, Abides terms p) : holds w' ∧ ∀ p ∈ ps', Abides terms p := by
  cases moves with
  | lapse passed => exact ⟨stable.lapses _ _ start passed, under⟩
  | start allowed =>
    exact ⟨start, List.forall_mem_cons.mpr ⟨staffed.operations _ allowed, under⟩⟩
  | share allowed =>
    exact ⟨start, List.forall_mem_append.mpr ⟨staffed.parts _ allowed, under⟩⟩
  | takeRebuild queued =>
    obtain ⟨left, abides⟩ := staffed.rebuilds _ _ _ _ start queued
    exact ⟨left, List.forall_mem_cons.mpr ⟨abides, under⟩⟩
  | takePatch queued =>
    obtain ⟨left, abide⟩ := staffed.patches _ _ _ _ start queued
    exact ⟨left, List.forall_mem_append.mpr ⟨abide, under⟩⟩
  | turn met =>
    obtain ⟨before, others⟩ := List.forall_mem_append.mp under
    obtain ⟨asking, after⟩ := List.forall_mem_cons.mp others
    have next := asking.2 _ (stable.replied _ _ _ start met)
    exact ⟨stable.kept _ _ _ start asking.1 met,
      List.forall_mem_append.mpr ⟨before, List.forall_mem_cons.mpr ⟨next, after⟩⟩⟩
  | stop =>
    obtain ⟨before, others⟩ := List.forall_mem_append.mp under
    exact ⟨start, List.forall_mem_append.mpr ⟨before, (List.forall_mem_cons.mp others).2⟩⟩

/-- What holds at the start holds at the end. -/
theorem Course.abide (stable : Stable answering terms holds) (staffed : Staffed c may terms holds)
    (course : Course c answering may w ps w' ps') (start : holds w)
    (under : ∀ p ∈ ps, Abides terms p) : holds w' ∧ ∀ p ∈ ps', Abides terms p := by
  induction course with
  | stays => exact ⟨start, under⟩
  | moves first rest ih =>
    obtain ⟨after, others⟩ := first.abide stable staffed start under
    exact ih after others

end CacheAside
