import CacheAside.Proofs.Program.Keeps
import CacheAside.Simulation.Operation
import CacheAside.Store.Calls

namespace CacheAside

open Simulation (Operation Answer)

abbrev Answering := (question : Question) → Except String question.Answer → Prop

structure World where
  entries : Entries
  now : Nat
  rebuilds : List Rebuild
  patches : List Patch

namespace Entries

theorem find?_of_live {entries : Entries} {now : Nat} {key : String} {entry : Entry}
    (there : entries.get? key = some entry) (live : entry.isLive now = true) :
    entries.find? now key = some entry.text := by
  rw [find?, there]
  exact if_pos live

theorem live_of_find? {entries : Entries} {now : Nat} {key text : String}
    (found : entries.find? now key = some text) :
    ∃ entry, entries.get? key = some entry ∧ entry.isLive now = true ∧ entry.text = text := by
  unfold find? at found
  split at found
  · rename_i entry there
    split at found
    · exact ⟨entry, there, ‹_›, Option.some.inj found⟩
    · cases found
  · cases found

theorem isLive_of_le {entry : Entry} {now later : Nat} (order : now ≤ later)
    (live : entry.isLive later = true) : entry.isLive now = true := by
  unfold Entry.isLive at live ⊢
  split at live
  · rfl
  · simp only [decide_eq_true_eq] at live ⊢
    omega

theorem keep_all (entries : Entries) : entries.keep (fun _ => true) = entries := by
  have stays : entries.toList.filter (fun _ => true) = entries.toList :=
    List.filter_eq_self.mpr fun _ _ => rfl
  simp only [keep, stays]

theorem find?_keep (entries : Entries) (stays : String → Bool) (now : Nat) (name : String) :
    (entries.keep stays).find? now name = if stays name then entries.find? now name else none := by
  simp only [find?, get?_keep]
  cases stays name <;> rfl

theorem find?_set_of_ne {name other : String} (apart : other ≠ name) (entries : Entries)
    (now : Nat) (text : String) (lifetime : Option Span) :
    (entries.set now name text lifetime).find? now other = entries.find? now other := by
  simp only [find?, Entries.set, get?_insert_of_ne apart]

theorem find?_of_find?_keep {entries : Entries} {stays : String → Bool} {now later : Nat}
    {key text : String} (order : now ≤ later)
    (found : (entries.keep stays).find? later key = some text) :
    entries.find? now key = some text := by
  obtain ⟨entry, there, live, rfl⟩ := live_of_find? found
  rw [get?_keep] at there
  split at there
  · exact find?_of_live there (isLive_of_le order live)
  · cases there

theorem find?_of_find?_serve {entries : Entries} {now : Nat} {call : StoreCall} {key text : String}
    (found : (entries.serve now call).2.find? now key = some text) :
    entries.find? now key = some text ∨ ∃ lifetime, call = .set key text lifetime := by
  cases call with
  | get other => exact .inl found
  | erase other => exact .inl (find?_of_find?_keep (Nat.le_refl now) found)
  | erasePrefix start => exact .inl (find?_of_find?_keep (Nat.le_refl now) found)
  | set other text' lifetime =>
    obtain ⟨entry, there, live, rfl⟩ := live_of_find? found
    by_cases same : key = other
    · subst same
      refine .inr ⟨lifetime, ?_⟩
      simp only [serve, Entries.set, get?_insert_self, Option.some.injEq] at there
      rw [← there]
    · simp only [serve, Entries.set, get?_insert_of_ne same] at there
      exact .inl (find?_of_live there live)

theorem find?_set_zero (entries : Entries) (now : Nat) (key text : String) :
    (entries.set now key text (some .zero)).find? now key = none := by
  rw [set, find?, get?_insert_self]
  simp [Entry.isLive, Span.toNanos, Span.zero]

end Entries

namespace World

def empty : World := ⟨.empty, 0, [], []⟩

def stored? (w : World) (key : Key) : Option String := w.entries.find? w.now key.text

/-- An exchange and the worlds before and after it. A call of the store that fails has no
effect. -/
inductive Meets (answering : Answering) : World → Exchange → World → Prop
  | failed (w : World) (call : StoreCall) (reason : String) :
    Meets answering w ⟨.store call, .error reason⟩ w
  | served (w : World) (call : StoreCall) :
    Meets answering w ⟨.store call, .ok (w.entries.serve w.now call).1⟩
      { w with entries := (w.entries.serve w.now call).2 }
  | answered (w : World) {question : Question} {answer : Except String question.Answer}
    (may : answering question answer) : Meets answering w ⟨.source question, answer⟩ w
  | rebuildTaken (w : World) (job : Rebuild) :
    Meets answering w ⟨.offerRebuild job, true⟩ { w with rebuilds := w.rebuilds ++ [job] }
  | rebuildRefused (w : World) (job : Rebuild) : Meets answering w ⟨.offerRebuild job, false⟩ w
  | patchTaken (w : World) (job : Patch) :
    Meets answering w ⟨.offerPatch job, true⟩ { w with patches := w.patches ++ [job] }
  | patchRefused (w : World) (job : Patch) : Meets answering w ⟨.offerPatch job, false⟩ w
  | told (w : World) (time : String) : Meets answering w ⟨.timestamp, time⟩ w

/-- Time passes, and any entries end. -/
def Lapses (w w' : World) : Prop :=
  ∃ stays now, w.now ≤ now ∧ w' = { w with entries := w.entries.keep stays, now := now }

def Passes (answering : Answering) (w : World) (x : Exchange) (w' : World) : Prop :=
  ∃ between, Lapses w between ∧ Meets answering between x w'

theorem Lapses.refl (w : World) : w.Lapses w := by
  refine ⟨fun _ => true, w.now, Nat.le_refl _, ?_⟩
  rw [Entries.keep_all]

theorem Meets.passes {answering : Answering} {w w' : World} {x : Exchange}
    (met : Meets answering w x w') : Passes answering w x w' := ⟨w, Lapses.refl w, met⟩

theorem Lapses.stored? {w w' : World} (passed : w.Lapses w') {key : Key} {text : String}
    (found : w'.stored? key = some text) : w.stored? key = some text := by
  obtain ⟨stays, now, later, rfl⟩ := passed
  exact Entries.find?_of_find?_keep later found

theorem Meets.stored? {answering : Answering} {w w' : World} {x : Exchange}
    (met : Meets answering w x w') {key : Key} {text : String}
    (found : w'.stored? key = some text) :
    w.stored? key = some text ∨ ∃ lifetime, x.request = .store (.set key.text text lifetime) := by
  cases met with
  | served call =>
    rcases Entries.find?_of_find?_serve found with before | ⟨lifetime, rfl⟩
    · exact .inl before
    · exact .inr ⟨lifetime, rfl⟩
  | _ => exact .inl found

theorem Meets.get {answering : Answering} {w w' : World} {name : String}
    {reply : Except String (Option String)}
    (met : Meets answering w ⟨.store (.get name), reply⟩ w') :
    w' = w ∧ (reply = .ok (w.entries.find? w.now name) ∨ ∃ reason, reply = .error reason) := by
  cases met with
  | failed call reason => exact ⟨rfl, .inr ⟨reason, rfl⟩⟩
  | served call => exact ⟨rfl, .inl rfl⟩

theorem Meets.erase {answering : Answering} {w w' : World} {name : String}
    {reply : Except String Unit} (met : Meets answering w ⟨.store (.erase name), reply⟩ w') :
    w' = w ∨ w' = { w with entries := w.entries.erase name } := by
  cases met with
  | failed call reason => exact .inl rfl
  | served call => exact .inr rfl

theorem Meets.offerRebuild {answering : Answering} {w w' : World} {job : Rebuild} {taken : Bool}
    (met : Meets answering w ⟨.offerRebuild job, taken⟩ w') :
    w' = { w with rebuilds := w.rebuilds ++ if taken then [job] else [] } := by
  cases met with
  | rebuildTaken job => rfl
  | rebuildRefused job => simp

theorem Meets.offerPatch {answering : Answering} {w w' : World} {job : Patch} {taken : Bool}
    (met : Meets answering w ⟨.offerPatch job, taken⟩ w') :
    w' = { w with patches := w.patches ++ if taken then [job] else [] } := by
  cases met with
  | patchTaken job => rfl
  | patchRefused job => simp

theorem Meets.source {answering : Answering} {w w' : World} {question : Question}
    {answer : Except String question.Answer}
    (met : Meets answering w ⟨.source question, answer⟩ w') : w' = w := by
  cases met
  rfl

end World

/-- A state of the world that the terms keep, and that grants what they promise. -/
structure Stable (answering : Answering) (terms : Terms) (holds : World → Prop) : Prop where
  lapses : ∀ w w', holds w → w.Lapses w' → holds w'
  replied : ∀ w x w', holds w → w.Meets answering x w' → terms.replies x.request x.reply
  kept : ∀ w x w', holds w → terms.asks x.request → w.Meets answering x w' → holds w'

/-- A program that keeps its promises leaves a stable state as it is, however far it got. -/
theorem Stable.run {answering : Answering} {terms : Terms} {holds : World → Prop}
    (stable : Stable answering terms holds) {α : Type} {p : Program α} {returns : α → Prop}
    {fails : Failure → Prop} (keeps : p.Keeps terms returns fails) {w w' : World}
    {xs : List Exchange} {result : Option (Except Failure α)} (start : holds w)
    (runs : p.Runs xs result) (follows : Exchange.Follows (World.Passes answering) w xs w') :
    holds w' ∧ (∀ a, result = some (.ok a) → returns a) ∧
      ∀ failure, result = some (.error failure) → fails failure := by
  refine keeps.run ?_ ?_ start runs follows
  · intro s x s' held passes
    obtain ⟨between, passed, met⟩ := passes
    exact stable.replied between x s' (stable.lapses s between held passed) met
  · intro s x s' held asked passes
    obtain ⟨between, passed, met⟩ := passes
    exact stable.kept between x s' (stable.lapses s between held passed) asked met

/-- Whatever a program runs in: every request meets with a reply. What the replies depend on beside
the world is left to the state. -/
structure Surroundings (answering : Answering) (σ : Type) where
  world : σ → World
  reply : (request : Request) → σ → request.Reply × σ
  meets : ∀ request s, (world s).Meets answering ⟨request, (reply request s).1⟩
    (world (reply request s).2)

namespace Surroundings

variable {answering : Answering} {σ : Type}

def Follows (around : Surroundings answering σ) : σ → List Exchange → σ → Prop :=
  Exchange.Follows fun s x s' => around.reply x.request s = (x.reply, s')

theorem exists_runs (around : Surroundings answering σ) {α : Type} (p : Program α) (s : σ) :
    ∃ xs ending s', p.Runs xs (some ending) ∧ around.Follows s xs s' :=
  Program.exists_runs around.reply p s

theorem Follows.meets {around : Surroundings answering σ} {s s' : σ} {xs : List Exchange}
    (follows : around.Follows s xs s') :
    Exchange.Follows (World.Meets answering) (around.world s) xs (around.world s') := by
  induction follows with
  | nil s => exact .nil _
  | @cons s s' _ x _ first rest ih =>
    have met := around.meets x.request s
    rw [first] at met
    exact .cons met ih

/-- Every call of the store is served; the source, the queues and the clock may do anything. -/
def Healthy (around : Surroundings answering σ) : Prop :=
  ∀ call s reason, (around.reply (.store call) s).1 ≠ .error reason

theorem Healthy.served {around : Surroundings answering σ} (healthy : around.Healthy)
    {call : StoreCall} {reply : Except String call.Answer} {s s' : σ}
    (replied : around.reply (.store call) s = (reply, s')) :
    reply = .ok ((around.world s).entries.serve (around.world s).now call).1 ∧
      around.world s' = { around.world s with
        entries := ((around.world s).entries.serve (around.world s).now call).2 } := by
  have met := around.meets (.store call) s
  have serves := healthy call s
  rw [replied] at met serves
  generalize around.world s' = w' at met ⊢
  cases met with
  | failed call reason => exact absurd rfl (serves reason)
  | served call => exact ⟨rfl, rfl⟩

end Surroundings

/-- An operation, and what came of it; nothing if it was broken off. -/
structure Event where
  operation : Operation
  result : Option (Except Failure Answer)

/-- Operations one after the other, each broken off at any point or not, with runs of queued jobs
between them. -/
inductive History (c : Config) (answering : Answering) : World → List Event → World → Prop
  | nil (w : World) : History c answering w [] w
  | lapse {w w' w'' : World} {events : List Event} (passed : w.Lapses w')
    (rest : History c answering w' events w'') : History c answering w events w''
  | perform {w w' w'' : World} {operation : Operation} {xs : List Exchange}
    {result : Option (Except Failure Answer)} {events : List Event}
    (runs : (operation.program c).Runs xs result)
    (follows : Exchange.Follows (World.Passes answering) w xs w')
    (rest : History c answering w' events w'') :
    History c answering w (⟨operation, result⟩ :: events) w''
  | workRebuild {w w' w'' : World} {before after : List Rebuild} {job : Rebuild}
    {xs : List Exchange} {result : Option (Except Failure Answer)} {events : List Event}
    (queued : w.rebuilds = before ++ job :: after)
    (runs : ((Operation.carryOut job).program c).Runs xs result)
    (follows : Exchange.Follows (World.Passes answering)
      { w with rebuilds := before ++ after } xs w')
    (rest : History c answering w' events w'') :
    History c answering w (⟨.carryOut job, result⟩ :: events) w''
  | workPatch {w w' w'' : World} {before after : List Patch} {job : Patch}
    {xs : List Exchange} {result : Option (Except Failure Answer)} {events : List Event}
    (queued : w.patches = before ++ job :: after)
    (runs : ((Operation.editAll job).program c).Runs xs result)
    (follows : Exchange.Follows (World.Passes answering)
      { w with patches := before ++ after } xs w')
    (rest : History c answering w' events w'') :
    History c answering w (⟨.editAll job, result⟩ :: events) w''

end CacheAside
