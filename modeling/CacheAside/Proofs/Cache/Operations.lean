import CacheAside.Proofs.Cache.Granted
import CacheAside.Simulation.Operation

namespace CacheAside

namespace Cache

open Program Simulation

structure Obliging (terms : Terms) : Prop where
  get : ∀ key, terms.asks (.store (.get key))
  erase : ∀ key, terms.asks (.store (.erase key))
  erasePrefix : ∀ start, terms.asks (.store (.erasePrefix start))
  question : ∀ question, terms.asks (.source question)
  rebuild : ∀ job, terms.asks (.offerRebuild job)
  clock : terms.asks .timestamp

def Offers (terms : Terms) (job : Patch) : Operation → Prop
  | .submit job' => job = job'
  | .withdraw id users => job = ⟨.collections, users, id, .remove⟩
  | .settleApproval user id approval =>
    job = ⟨.autoCollects, [user], id, .removeChild approvalsField approval⟩
  | .redistribute id => ∃ shared, terms.replies (.source (.collection id)) (.ok (some shared)) ∧
    ∃ member ∈ shared.audience, job = copyPatch id shared member
  | _ => False

variable {terms : Terms} {c : Config}

theorem abides_read {key : Key} (loads : Abides terms (load key))
    (derives : Abides terms (derive c key))
    (offers : key.Valid → terms.asks (.offerRebuild (.ofKey key))) :
    Abides terms (read c key) := by
  have answers : ∀ provenance : Provenance,
      Abides terms (do return ⟨← derive c key, provenance⟩ : Program Reading) :=
    fun _ => derives.andThen fun _ => True.intro
  apply (keeps_check fun _ _ => True.intro).bind
  intro _ valid
  apply loads.attempt.bind
  intro found _
  cases found with
  | error failure => exact answers .bypassed
  | ok found =>
    cases found with
    | some value => exact True.intro
    | none =>
      apply (keeps_offerRebuild (offers valid)).bind
      intro _ _
      exact answers .derived

theorem abides_readEntity {key : Key} (reads : Abides terms (read c key)) (id : String) :
    Abides terms (readEntity c key id) := by
  apply reads.andThen
  intro reading
  split <;> exact True.intro

theorem abides_expectedKeys (users : terms.asks (.source .users))
    (tokens : terms.asks (.source .tokens)) (ns : Namespace) :
    Abides terms (expectedKeys ns) := by
  unfold expectedKeys
  split
  · exact True.intro
  · exact (abides_source tokens).andThen fun _ => True.intro
  · exact (abides_source users).andThen fun _ => True.intro

theorem abides_request {job : Rebuild} (asks : terms.asks (.offerRebuild job)) :
    Abides terms (request c job) := by
  apply (keeps_offerRebuild asks).bind
  intro taken _
  cases taken <;> exact True.intro

theorem abides_requestRebuild {key : Key} (asks : terms.asks (.offerRebuild (.ofKey key))) :
    Abides terms (requestRebuild c key) :=
  (abides_check key).andThen fun _ => abides_request asks

theorem abides_requestEach {keys : List Key}
    (asks : ∀ key ∈ keys, terms.asks (.offerRebuild (.ofKey key))) :
    Abides terms (requestEach c keys) := by
  induction keys with
  | nil => exact True.intro
  | cons key keys ih =>
    obtain ⟨first, others⟩ := List.forall_mem_cons.mp asks
    exact (abides_request first).andThen fun _ => ih others

theorem abides_requestAll {ns : Namespace} (lists : Abides terms (expectedKeys ns))
    (asks : ∀ key, terms.asks (.offerRebuild (.ofKey key))) : Abides terms (requestAll c ns) := by
  apply lists.andThen
  intro keys
  exact (abides_requestEach fun key _ => asks key).andThen fun _ => True.intro

theorem abides_purge {key : Key} (erase : terms.asks (.store (.erase key.text))) :
    Abides terms (purge key) := (abides_check key).andThen fun _ => abides_store erase

theorem abides_inOrder {parts : List (String × Program Outcome)}
    (each : ∀ part ∈ parts, Abides terms part.2) : Abides terms (inOrder parts) := by
  induction parts with
  | nil => exact True.intro
  | cons first rest ih =>
    obtain ⟨head, tail⟩ := List.forall_mem_cons.mp each
    apply head.attempt.bind
    intro outcome _
    exact (ih tail).andThen fun _ => True.intro

theorem abides_submit {job : Patch} (asks : terms.asks (.offerPatch job)) :
    Abides terms (submit c job) := by
  apply (keeps_offerPatch asks).bind
  intro taken _
  cases taken <;> exact True.intro

theorem abides_submitEach {jobs : List Patch} (asks : ∀ job ∈ jobs, terms.asks (.offerPatch job)) :
    Abides terms (submitEach c jobs) := by
  induction jobs with
  | nil => exact True.intro
  | cons job jobs ih =>
    obtain ⟨first, others⟩ := List.forall_mem_cons.mp asks
    exact (abides_submit first).andThen fun _ => ih others

theorem abides_redistribute {id : String} (question : terms.asks (.source (.collection id)))
    (asks : ∀ job, Offers terms job (.redistribute id) → terms.asks (.offerPatch job)) :
    Abides terms (redistribute c id) := by
  apply (keeps_source question fun _ => True.intro).bind
  intro told may
  apply (keeps_found fun _ => True.intro).bind
  intro shared same
  subst same
  have each : ∀ job ∈ shared.audience.map (copyPatch id shared), terms.asks (.offerPatch job) := by
    intro job there
    obtain ⟨member, sees, rfl⟩ := List.mem_map.mp there
    exact asks _ ⟨shared, may, member, sees, rfl⟩
  exact (abides_submitEach each).andThen fun _ => True.intro

namespace Obliging

theorem derive (obliging : Obliging terms) (key : Key) : Abides terms (Cache.derive c key) :=
  (keeps_derive_within obliging.question).abides

theorem read (obliging : Obliging terms) (key : Key) : Abides terms (Cache.read c key) :=
  abides_read (keeps_load_within (obliging.get _) (obliging.erase _)).abides (obliging.derive key)
    fun _ => obliging.rebuild _

theorem expectedKeys (obliging : Obliging terms) (ns : Namespace) :
    Abides terms (Cache.expectedKeys ns) :=
  abides_expectedKeys (obliging.question _) (obliging.question _) ns

theorem purgeAll (obliging : Obliging terms) (ns : Namespace) :
    Abides terms (Cache.purgeAll ns) := by
  unfold Cache.purgeAll
  split
  · exact (abides_store (obliging.erase ns.name)).andThen fun _ => True.intro
  · exact abides_store (obliging.erasePrefix ns.keyStart)

theorem purgeWithin (obliging : Obliging terms) (ns : Namespace) (id : Option String) :
    Abides terms (Cache.purgeWithin ns id) := by
  cases id with
  | none => exact obliging.purgeAll ns
  | some id => exact (abides_purge (obliging.erase _)).andThen fun _ => True.intro

section Rebuilding

variable (rebuilds : ∀ key, Abides terms (Cache.rebuild c key))
include rebuilds

theorem rebuildEach (keys : List Key) (summary : SweepSummary) :
    Abides terms (Cache.rebuildEach c keys summary) := by
  induction keys generalizing summary with
  | nil => exact True.intro
  | cons key keys ih =>
    apply (rebuilds key).attempt.bind
    intro result _
    split
    · exact ih _
    · exact True.intro
    · exact ih _

theorem sweep (obliging : Obliging terms) (ns : Namespace) : Abides terms (Cache.sweep c ns) := by
  apply (obliging.expectedKeys ns).andThen
  intro keys
  apply (rebuildEach rebuilds keys _).andThen
  intro summary
  split
  · apply (keeps_offerRebuild (obliging.rebuild _)).bind
    intro _ _
    exact True.intro
  · exact True.intro

theorem carryOut (obliging : Obliging terms) (job : Rebuild) :
    Abides terms (Cache.carryOut c job) := by
  unfold Cache.carryOut
  split
  · exact (rebuilds _).andThen fun _ => True.intro
  · exact (sweep rebuilds obliging job.ns).andThen fun _ => True.intro

end Rebuilding

end Obliging

theorem Obliging.operation (obliging : Obliging terms)
    (rebuilds : ∀ key, Abides terms (Cache.rebuild c key)) {operation : Operation}
    (edits : ∀ job, operation = .editAll job → ∀ part ∈ parts c job, Abides terms part.2)
    (patches : ∀ job, Offers terms job operation → terms.asks (.offerPatch job)) :
    Abides terms (operation.program c) := by
  cases operation with
  | read key => exact (obliging.read key).returns _
  | readEntity key id => exact (abides_readEntity (obliging.read key) id).returns _
  | rebuild key => exact (rebuilds key).returns _
  | rebuildState => exact (rebuilds _).returns _
  | requestRebuild key => exact (abides_requestRebuild (obliging.rebuild _)).returns _
  | requestSweep ns => exact (abides_request (obliging.rebuild _)).returns _
  | requestAll ns =>
    have lists : Abides terms (Cache.expectedKeys ns) := obliging.expectedKeys ns
    exact (abides_requestAll lists fun _ => obliging.rebuild _).returns _
  | sweep ns => exact (Obliging.sweep rebuilds obliging ns).returns _
  | carryOut job => exact (Obliging.carryOut rebuilds obliging job).returns _
  | editAll job =>
    have all : Abides terms (editAll c job) :=
      (abides_inOrder (edits job rfl)).returns _
    exact all.returns _
  | submit job => exact (abides_submit (patches job rfl)).returns _
  | withdraw id users => exact (abides_submit (patches _ rfl)).returns _
  | settleApproval user id approval => exact (abides_submit (patches _ rfl)).returns _
  | redistribute id => exact (abides_redistribute (obliging.question _) patches).returns _
  | purge key => exact (abides_purge (obliging.erase _)).returns _
  | purgeAll ns => exact (obliging.purgeAll ns).returns _
  | purgeWithin ns id => exact (obliging.purgeWithin ns id).returns _
  | derive key => exact (obliging.derive key).returns _
  | expectedKeys ns => exact (obliging.expectedKeys ns).returns _

end Cache

end CacheAside
