import CacheAside.Cache.Rebuild

namespace CacheAside

namespace Cache

open Program

/-- Edits one entry. An entry that is missing is rebuilt instead, and one that the edit leaves as it
is is not written. -/
def editEntry (c : Config) (job : Patch) (key : Key) : Program Outcome := do
  check key
  match ← load key with
  | none =>
    let _ ← rebuild c key
    return .rebuilt
  | some entry =>
    match job.edit.apply job.entity entry with
    | none => fail (.notAList key.text)
    | some (false, _) => return .unchanged
    | some (true, edited) =>
      let _ ← save c key edited
      return .applied

/-- The parts of a patch, one for each owner. They do not wait for each other. -/
def parts (c : Config) (job : Patch) : List (String × Program Outcome) :=
  job.targets.map fun (owner, key) => (owner, editEntry c job key)

def inOrder : List (String × Program Outcome) → Program (List (String × Except Failure Outcome))
  | [] => pure []
  | (owner, part) :: parts => do
    let outcome ← attempt part
    return (owner, outcome) :: (← inOrder parts)

def editAll (c : Config) (job : Patch) : Program Report := do
  return ⟨← inOrder (parts c job)⟩

def submit (c : Config) (job : Patch) : Program Unit := do
  unless ← offerPatch job do fail (.queueClosed c.patches.name)

def withdraw (c : Config) (id : String) (users : List String) : Program Unit :=
  submit c ⟨.collections, users, id, .remove⟩

def approvalsField : String := "autoCollectApprovals"

def settleApproval (c : Config) (user id approval : String) : Program Unit :=
  submit c ⟨.autoCollects, [user], id, .removeChild approvalsField approval⟩

def copyPatch (id : String) (shared : SharedCollection) (member : Member) : Patch :=
  ⟨.collections, [member.user], id, .upsert (shared.copyFor member)⟩

def submitEach (c : Config) : List Patch → Program Unit
  | [] => pure ()
  | job :: jobs => do
    submit c job
    submitEach c jobs

/-- Reads a shared collection anew and queues one edit for everyone who sees it, each with a copy of
their own; answers how many. -/
def redistribute (c : Config) (id : String) : Program Nat := do
  let key := "collection:" ++ id
  let shared ← found key (← source key (.collection id))
  submitEach c (shared.audience.map (copyPatch id shared))
  return shared.audience.length

end Cache

end CacheAside
