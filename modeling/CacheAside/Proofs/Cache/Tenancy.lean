import CacheAside.Proofs.Cache.Sweeping
import CacheAside.Proofs.Cache.Twins
import Mathlib.Data.List.Basic

namespace CacheAside

open Simulation (Operation Answer)

namespace Cache

open Program Surroundings Visit

variable {c : Config} {twins : Twins} {key : Key} {job : Patch}

/-- Two sources agree on what the value of a key is derived from, on the shared collections, and on
who there is. -/
structure AgreeOn (c : Config) (twins : Twins) : Prop where
  users : twins.one .users = twins.other .users
  tokens : twins.one .tokens = twins.other .tokens
  shared : ∀ id, twins.one (.collection id) = twins.other (.collection id)
  behind : ∀ question, Behind c twins.key question → twins.one question = twins.other question

section Here

variable (agree : AgreeOn c twins)
include agree

theorem mirrored_derive : Abides (asking twins.Mirrored) (derive c twins.key) :=
  abides_derive agree.behind

theorem mirrored_read : Abides (asking twins.Mirrored) (read c twins.key) :=
  abides_read (keeps_load_within rfl True.intro).abides (mirrored_derive agree)
    fun _ => True.intro

theorem mirrored_rebuild : Abides (asking twins.Mirrored) (rebuild c twins.key) :=
  abides_rebuild (mirrored_derive agree) fun _ _ _ =>
    abides_save rfl True.intro (fun _ _ => True.intro) fun _ => True.intro

theorem mirrored_editEntry (job : Patch) :
    Abides (asking twins.Mirrored) (editEntry c job twins.key) :=
  abides_editEntry rfl True.intro (mirrored_rebuild agree) fun _ _ _ _ _ _ _ =>
    abides_save rfl True.intro (fun _ _ => True.intro) fun _ => True.intro

theorem mirrored_expectedKeys (ns : Namespace) :
    Abides (asking twins.Mirrored) (expectedKeys ns) :=
  abides_expectedKeys agree.users agree.tokens ns

end Here

theorem elsewhere_derive {here : Key} (c : Config) (key : Key) :
    Abides (asking (Twins.Elsewhere here)) (derive c key) :=
  (keeps_derive_within fun _ => True.intro).abides

section Elsewhere

variable {here : Key} (apart : key ≠ here)
include apart

theorem text_ne : key.text ≠ here.text := fun same => apart (Key.text_injective same)

theorem granted_elsewhere (c : Config) : Granted (asking (Twins.Elsewhere here)) c key :=
  ⟨True.intro, text_ne apart, fun _ => True.intro, True.intro, fun _ _ => text_ne apart⟩

theorem unconcerned (valid : key.Valid) : Job.concerns here (.rebuild (.ofKey key)) = false := by
  simp only [Job.concerns, Rebuild.target?_ofKey valid, Option.all_some]
  exact decide_eq_false apart

theorem elsewhere_read (c : Config) : Abides (asking (Twins.Elsewhere here)) (read c key) :=
  abides_read (keeps_load_within True.intro (text_ne apart)).abides (elsewhere_derive c key)
    (unconcerned apart)

theorem elsewhere_rebuild (c : Config) : Abides (asking (Twins.Elsewhere here)) (rebuild c key) :=
  (granted_elsewhere apart c).rebuild fun _ _ _ _ => text_ne apart

theorem elsewhere_editEntry (c : Config) (job : Patch) :
    Abides (asking (Twins.Elsewhere here)) (editEntry c job key) :=
  (granted_elsewhere apart c).editEntry (fun _ _ _ _ => text_ne apart)
    fun _ _ _ _ _ _ _ _ => text_ne apart

end Elsewhere

/-- An operation is addressed to a key if it is about that entry alone. -/
def Addressed (here : Key) : Operation → Prop
  | .read key => key = here
  | .readEntity key _ => key = here
  | .rebuild key => key = here
  | .rebuildState => Key.only .state = here
  | .carryOut job => job.target? = some here
  | .editAll job => ∀ target ∈ job.targets, target.2 = here
  | .derive key => key = here
  | _ => False

def served : Terms where
  asks _ := True
  replies
    | .store _, .error _ => False
    | _, _ => True

theorem keeps_served {α : Type} {p : Program α} (last : WritesLast p) :
    p.Keeps served (fun _ => True) fun failure =>
      ∀ reason, failure ≠ .storeUnavailable reason := by
  induction last with
  | @done result blameless =>
    cases result with
    | ok a => exact True.intro
    | error failure =>
      intro reason same
      exact blameless reason (congrArg Except.error same)
  | asks rest ih => exact ⟨True.intro, fun answer _ => ih answer⟩
  | stamps rest ih => exact ⟨True.intro, fun time _ => ih time⟩
  | looks fails rest ih =>
    refine ⟨True.intro, fun reply may => ?_⟩
    cases reply with
    | ok found => exact ih found
    | error reason => exact may.elim
  | writes fails ends =>
    refine ⟨True.intro, fun reply may => ?_⟩
    cases reply with
    | ok _ =>
      rw [ends]
      exact True.intro
    | error reason => exact may.elim

theorem inReach_rebuild (answers : Answers) (time : String) (c : Config) (key : Key) (s : Site)
    (reason : String) :
    ((Site.healthy answers time).finish (rebuild c key) s).1 ≠ .error (.storeUnavailable reason) := by
  have replied : ∀ request s, served.replies request ((Site.healthy answers time).reply request s).1 := by
    intro request s
    cases request <;> exact True.intro
  have kept := finish_keeps (keeps_served (writesLast_rebuild c key)) replied s
  intro out
  rw [out] at kept
  exact kept reason rfl

section Operations

variable (agree : AgreeOn c twins)
include agree

theorem related_rebuild (key : Key) :
    twins.Related (Twins.SameIf (key = twins.key)) (rebuild c key) (rebuild c key) :=
  Twins.related_at key (mirrored_rebuild agree) fun apart => elsewhere_rebuild apart c

theorem related_rebuildEach (keys : List Key) (begun begun' : SweepSummary) :
    twins.Related (Twins.Both fun _ _ => True) (rebuildEach c keys begun)
      (rebuildEach c keys begun') := by
  induction keys generalizing begun begun' with
  | nil => exact Twins.related_pure True.intro
  | cons key keys ih =>
    have visits : twins.Related (fun result result' =>
        (∀ reason, result ≠ .error (.storeUnavailable reason)) ∧
          ∀ reason, result' ≠ .error (.storeUnavailable reason))
        (rebuild c key) (rebuild c key) := fun s t alike =>
      ⟨⟨inReach_rebuild _ _ _ _ _, inReach_rebuild _ _ _ _ _⟩,
        (related_rebuild agree key s t alike).2⟩
    -- Whether the key was rebuilt or skipped may differ, but only the store ends a sweep early.
    apply visits.attempt.bind
    rintro result result' ⟨reached, reached'⟩
    have left := afterVisit_eq (c := c) ⟨key, [], result⟩ keys begun reached
    have right := afterVisit_eq (c := c) ⟨key, [], result'⟩ keys begun' reached'
    have goesOn := ih (begun.plus (summary [⟨key, [], result⟩]))
      (begun'.plus (summary [⟨key, [], result'⟩]))
    rw [← left, ← right] at goesOn
    exact goesOn

theorem related_sweep (ns : Namespace) :
    twins.Related (Twins.Both fun _ _ => True) (sweep c ns) (sweep c ns) := by
  have lists := Twins.related_of_mirrored (mirrored_expectedKeys agree ns)
  apply (lists.mono fun _ _ => Twins.both_of_eq).bind
  rintro keys _ rfl
  apply (related_rebuildEach agree keys _ _).bind
  intro summary summary' _
  split
  · have offers : Abides (asking twins.Mirrored) (offerRebuild (.sweep .autoCollects)) :=
      (keeps_offerRebuild True.intro).abides
    apply ((Twins.related_of_mirrored offers).mono fun _ _ => Twins.both_of_eq).bind
    intro _ _ _
    exact Twins.related_pure True.intro
  · exact Twins.related_pure True.intro

theorem related_carryOut (job : Rebuild) :
    twins.Related (Twins.SameIf (job.target? = some twins.key)) (carryOut c job)
      (carryOut c job) := by
  unfold carryOut
  split
  · rename_i key about
    apply ((related_rebuild agree key).returns fun _ => ()).mono
    intro result result' same mine
    exact same (Option.some.inj (about.symm.trans mine))
  · rename_i about
    have sweeps : twins.Related (Twins.SameIf False) (sweep c job.ns) (sweep c job.ns) :=
      (related_sweep agree job.ns).mono fun _ _ _ => False.elim
    apply (sweeps.returns fun _ => ()).mono
    intro result result' _ mine
    cases about.symm.trans mine

omit agree in
theorem related_inOrder {parts : List (String × Program Outcome)}
    (each : ∀ part ∈ parts, twins.Related (fun _ _ => True) part.2 part.2) :
    twins.Related (Twins.Both fun _ _ => True) (inOrder parts) (inOrder parts) := by
  induction parts with
  | nil => exact Twins.related_pure True.intro
  | cons first rest ih =>
    obtain ⟨head, tail⟩ := List.forall_mem_cons.mp each
    apply head.attempt.bind
    intro outcome outcome' _
    apply (ih tail).bind
    intro outcomes outcomes' _
    exact Twins.related_pure True.intro

theorem related_editAll (job : Patch) :
    twins.Related (Twins.SameIf (∀ target ∈ job.targets, target.2 = twins.key)) (editAll c job)
      (editAll c job) := by
  have lists : twins.Related (Twins.SameIf (∀ target ∈ job.targets, target.2 = twins.key))
      (inOrder (parts c job)) (inOrder (parts c job)) := by
    by_cases mine : ∀ target ∈ job.targets, target.2 = twins.key
    · have mirrored : Abides (asking twins.Mirrored) (inOrder (parts c job)) := by
        apply abides_inOrder
        intro part there
        obtain ⟨target, targeted, rfl⟩ := List.mem_map.mp there
        simp only [mine target targeted]
        exact mirrored_editEntry agree job
      exact (Twins.related_of_mirrored mirrored).mono fun _ _ same _ => same
    · have each : ∀ part ∈ parts c job, twins.Related (fun _ _ => True) part.2 part.2 := by
        intro part there
        obtain ⟨target, targeted, rfl⟩ := List.mem_map.mp there
        have edits := Twins.related_at (p := editEntry c job) target.2 (mirrored_editEntry agree job)
          fun apart => elsewhere_editEntry apart c job
        exact edits.mono fun _ _ _ => True.intro
      exact (related_inOrder each).mono fun _ _ _ all => absurd all mine
  exact lists.returns Report.mk

omit agree in
theorem related_purgeAll (ns : Namespace) :
    twins.Related (fun _ _ => True) (purgeAll ns) (purgeAll ns) := by
  by_cases single : ns.isSingle = true
  · have mirrored : Abides (asking twins.Mirrored) (purgeAll ns) := by
      simp only [purgeAll, single, if_true]
      exact (abides_store True.intro).andThen fun _ => True.intro
    exact (Twins.related_of_mirrored mirrored).mono fun _ _ _ => True.intro
  · simp only [purgeAll, if_neg single]
    intro s t alike
    exact ⟨True.intro, Twins.alike_reply (.store (.erasePrefix ns.keyStart)) alike⟩

/-- Whatever operation both sites perform, they stay alike, and it ends in the same way in both if
it is addressed to the key. -/
theorem related_operation (operation : Operation) :
    twins.Related (Twins.SameIf (Addressed twins.key operation)) (operation.program c)
      (operation.program c) := by
  have mirrored : ∀ {α : Type} {p : Program α}, Abides (asking twins.Mirrored) p →
      ∀ {holds : Prop}, twins.Related (Twins.SameIf holds) p p :=
    fun abides => (Twins.related_of_mirrored abides).mono fun _ _ same _ => same
  have purges : ∀ ns, twins.Related (Twins.SameIf False) (purgeAll ns) (purgeAll ns) :=
    fun ns => (related_purgeAll ns).mono fun _ _ _ => False.elim
  have sweeps : ∀ ns, twins.Related (Twins.SameIf False) (sweep c ns) (sweep c ns) :=
    fun ns => (related_sweep agree ns).mono fun _ _ _ => False.elim
  cases operation with
  | read key =>
    have reads := Twins.related_at (p := read c) key (mirrored_read agree) fun apart =>
      elsewhere_read apart c
    exact reads.returns _
  | readEntity key id =>
    have reads := Twins.related_at (p := fun key => readEntity c key id) key
      (abides_readEntity (mirrored_read agree) id) fun apart =>
        abides_readEntity (elsewhere_read apart c) id
    exact reads.returns _
  | rebuild key => exact (related_rebuild agree key).returns _
  | rebuildState => exact (related_rebuild agree _).returns _
  | requestRebuild key =>
    exact (mirrored (abides_requestRebuild True.intro)).returns fun _ => Answer.done
  | requestSweep ns => exact (mirrored (abides_request True.intro)).returns fun _ => Answer.done
  | requestAll ns =>
    have lists : Abides (asking twins.Mirrored) (requestAll c ns) :=
      abides_requestAll (mirrored_expectedKeys agree ns) fun _ => True.intro
    exact (mirrored lists).returns _
  | sweep ns => exact (sweeps ns).returns _
  | carryOut job => exact (related_carryOut agree job).returns fun _ => Answer.done
  | editAll job => exact (related_editAll agree job).returns _
  | submit job => exact (mirrored (abides_submit True.intro)).returns fun _ => Answer.done
  | withdraw id users => exact (mirrored (abides_submit True.intro)).returns fun _ => Answer.done
  | settleApproval user id approval =>
    exact (mirrored (abides_submit True.intro)).returns fun _ => Answer.done
  | redistribute id =>
    have spreads : Abides (asking twins.Mirrored) (redistribute c id) :=
      abides_redistribute (agree.shared id) fun _ _ => True.intro
    exact (mirrored spreads).returns _
  | purge key => exact (mirrored (abides_purge True.intro)).returns fun _ => Answer.done
  | purgeAll ns => exact (purges ns).returns _
  | purgeWithin ns id =>
    cases id with
    | none => exact (purges ns).returns _
    | some id =>
      have purges : Abides (asking twins.Mirrored) (purge (.of ns id)) := abides_purge True.intro
      exact ((mirrored purges).returns fun _ => 1).returns _
  | derive key =>
    have derives := Twins.related_at (p := derive c) key (mirrored_derive agree) fun _ =>
      elsewhere_derive c key
    exact derives.returns _
  | expectedKeys ns => exact (mirrored (mirrored_expectedKeys agree ns)).returns _

end Operations

end Cache

inductive Alongside {α : Type} (kind : α → Bool) : List α → List α → Prop
  | nil : Alongside kind [] []
  | both {a : α} {as bs : List α} (of : kind a = true) (rest : Alongside kind as bs) :
    Alongside kind (a :: as) (a :: bs)
  | left {a : α} {as bs : List α} (other : kind a = false) (rest : Alongside kind as bs) :
    Alongside kind (a :: as) bs
  | right {b : α} {as bs : List α} (other : kind b = false) (rest : Alongside kind as bs) :
    Alongside kind as (b :: bs)

theorem alongside_of_filter {α : Type} {kind : α → Bool} {as bs : List α}
    (same : as.filter kind = bs.filter kind) : Alongside kind as bs := by
  induction as generalizing bs with
  | nil =>
    induction bs with
    | nil => exact .nil
    | cons b bs ih =>
      have none := List.filter_eq_nil_iff.mp same.symm
      have other : kind b = false := Bool.eq_false_iff.mpr (none b List.mem_cons_self)
      exact .right other (ih (by simpa [List.filter_cons, other] using same))
  | cons a as ih =>
    cases of : kind a with
    | false => exact .left of (ih (by simpa [List.filter_cons, of] using same))
    | true =>
      rw [List.filter_cons_of_pos of] at same
      induction bs with
      | nil => cases same
      | cons b bs inner =>
        cases of' : kind b with
        | false => exact .right of' (inner (by simpa [List.filter_cons, of'] using same))
        | true =>
          rw [List.filter_cons_of_pos of'] at same
          obtain ⟨rfl, rest⟩ := List.cons.inj same
          exact .both of (ih rest)

/-- Why an operation is performed: it was asked for, or its job has its turn. -/
inductive Cause where
  | asked (operation : Operation)
  | queued (job : Job)

namespace Cause

def operation : Cause → Operation
  | asked operation => operation
  | queued job => job.operation

def concerns (key : Key) : Cause → Bool
  | asked _ => true
  | queued job => job.concerns key

end Cause

/-- A completed operation, and the text at a key before and after it. -/
structure Deed where
  cause : Cause
  result : Except Failure Answer
  before : Option String
  after : Option String

/-- What a site has to do: an operation, or the jobs in its queues that are chosen, in the order in
which they were queued. -/
inductive Task where
  | operate (operation : Operation)
  | work (chosen : Job → Bool)

namespace Site

variable (c : Config) (answers : Answers) (time : String) (key : Key)

def perform (cause : Cause) (site : Site) : Deed × Site :=
  let (result, after) := (healthy answers time).finish (cause.operation.program c) site
  (⟨cause, result, site.world.stored? key, after.world.stored? key⟩, after)

def performAll : List Cause → Site → List Deed × Site
  | [], site => ([], site)
  | cause :: causes, site =>
    let (deed, site) := site.perform c answers time key cause
    let (deeds, site) := performAll causes site
    (deed :: deeds, site)

def take : Task → Site → List Deed × Site
  | .operate operation, site => site.performAll c answers time key [.asked operation]
  | .work chosen, site =>
    performAll c answers time key ((site.backlog.filter chosen).map .queued)
      { site with backlog := site.backlog.filter (!chosen ·) }

def takeAll : List Task → Site → List Deed × Site
  | [], site => ([], site)
  | task :: tasks, site =>
    let (deeds, site) := site.take c answers time key task
    let (others, site) := takeAll tasks site
    (deeds ++ others, site)

end Site

namespace Cache

open Program Surroundings

variable {c : Config} {twins : Twins} {key : Key} {s t : Site}

structure DeedsAgree (key : Key) (d e : Deed) : Prop where
  cause : d.cause = e.cause
  before : d.before = e.before
  after : d.after = e.after
  result : Addressed key d.cause.operation → d.result = e.result

/-- What was done in two sites, with the text at the key that both have before it, and the text that
both have in the end. Only a job about another key may have been done in one of them alone, and it
has left the text as it was. -/
inductive LogsAgree (key : Key) : Option String → List Deed → List Deed → Option String → Prop
  | nil (text : Option String) : LogsAgree key text [] [] text
  | both {d e : Deed} {ds es : List Deed} {final : Option String} (agree : DeedsAgree key d e)
    (rest : LogsAgree key d.after ds es final) : LogsAgree key d.before (d :: ds) (e :: es) final
  | left {d : Deed} {ds es : List Deed} {final : Option String}
    (other : d.cause.concerns key = false) (unchanged : d.after = d.before)
    (rest : LogsAgree key d.before ds es final) : LogsAgree key d.before (d :: ds) es final
  | right {e : Deed} {ds es : List Deed} {final : Option String}
    (other : e.cause.concerns key = false) (unchanged : e.after = e.before)
    (rest : LogsAgree key e.before ds es final) : LogsAgree key e.before ds (e :: es) final

theorem LogsAgree.append {text between final : Option String} {ds es ds' es' : List Deed}
    (first : LogsAgree key text ds es between) (second : LogsAgree key between ds' es' final) :
    LogsAgree key text (ds ++ ds') (es ++ es') final := by
  induction first with
  | nil text => exact second
  | both agree _ ih => exact .both agree (ih second)
  | left other unchanged _ ih => exact .left other unchanged (ih second)
  | right other unchanged _ ih => exact .right other unchanged (ih second)

theorem elsewhere_of_unconcerned (c : Config) {cause : Cause}
    (unconcerned : cause.concerns key = false) :
    Abides (asking (Twins.Elsewhere key)) (cause.operation.program c) := by
  cases cause with
  | asked operation => cases unconcerned
  | queued job =>
    cases job with
    | patch job => cases unconcerned
    | rebuild job =>
      cases about : job.target? with
      | none => simp [Cause.concerns, Job.concerns, about] at unconcerned
      | some other =>
        have apart : other ≠ key := by
          simpa [Cause.concerns, Job.concerns, about] using unconcerned
        have carries : Abides (asking (Twins.Elsewhere key)) (carryOut c job) := by
          simp only [carryOut, about]
          exact (elsewhere_rebuild apart c).returns fun _ => ()
        exact carries.returns fun _ => Answer.done

theorem perform_unconcerned (answers : Answers) (time : String) {cause : Cause}
    (unconcerned : cause.concerns key = false) (s : Site) :
    Alike key s (s.perform c answers time key cause).2 :=
  Twins.alike_finish_of_elsewhere (elsewhere_of_unconcerned c unconcerned) s

section Runs

variable (agree : AgreeOn c twins)
include agree

theorem perform_agrees (cause : Cause) (alike : Alike twins.key s t) :
    DeedsAgree twins.key (s.perform c twins.one twins.time twins.key cause).1
        (t.perform c twins.other twins.time twins.key cause).1 ∧
      Alike twins.key (s.perform c twins.one twins.time twins.key cause).2
        (t.perform c twins.other twins.time twins.key cause).2 := by
  obtain ⟨same, after⟩ := related_operation agree cause.operation s t alike
  exact ⟨⟨rfl, alike.text, after.text, same⟩, after⟩

/-- The step of a run: jobs about other keys go by, and everything else is done in both. -/
theorem performAll_agrees {causes causes' : List Cause}
    (alongside : Alongside (·.concerns twins.key) causes causes') (alike : Alike twins.key s t) :
    let first := s.performAll c twins.one twins.time twins.key causes
    let second := t.performAll c twins.other twins.time twins.key causes'
    LogsAgree twins.key (s.world.stored? twins.key) first.1 second.1
        (first.2.world.stored? twins.key) ∧ Alike twins.key first.2 second.2 := by
  induction alongside generalizing s t with
  | nil => exact ⟨.nil _, alike⟩
  | @both cause _ _ _ _ ih =>
    obtain ⟨agrees, after⟩ := perform_agrees agree cause alike
    obtain ⟨logs, final⟩ := ih after
    exact ⟨.both agrees logs, final⟩
  | @left cause _ _ unconcerned _ ih =>
    have moved := perform_unconcerned (c := c) twins.one twins.time unconcerned s
    obtain ⟨logs, final⟩ := ih (moved.symm.trans alike)
    let deed := (s.perform c twins.one twins.time twins.key cause).1
    rw [← moved.text] at logs
    exact ⟨.left (d := deed) unconcerned moved.text.symm logs, final⟩
  | @right cause _ _ unconcerned _ ih =>
    have moved := perform_unconcerned (c := c) twins.other twins.time unconcerned t
    obtain ⟨logs, final⟩ := ih (alike.trans moved)
    let deed := (t.perform c twins.other twins.time twins.key cause).1
    rw [alike.text] at logs ⊢
    exact ⟨.right (e := deed) unconcerned moved.text.symm logs, final⟩

theorem take_agrees (task : Task) (alike : Alike twins.key s t) :
    let first := s.take c twins.one twins.time twins.key task
    let second := t.take c twins.other twins.time twins.key task
    LogsAgree twins.key (s.world.stored? twins.key) first.1 second.1
        (first.2.world.stored? twins.key) ∧ Alike twins.key first.2 second.2 := by
  cases task with
  | operate operation => exact performAll_agrees agree (.both rfl .nil) alike
  | work chosen =>
    -- The queues may hold other jobs in between, so the chosen ones are matched by the key.
    have filtered : ∀ kind : Job → Bool,
        (s.backlog.filter kind).filter (·.concerns twins.key) =
          (t.backlog.filter kind).filter (·.concerns twins.key) := by
      intro kind
      rw [List.filter_comm, List.filter_comm (l := t.backlog), alike.jobs]
    have jobs : ((s.backlog.filter chosen).map Cause.queued).filter (·.concerns twins.key) =
        ((t.backlog.filter chosen).map Cause.queued).filter (·.concerns twins.key) := by
      simp only [List.filter_map]
      exact congrArg (List.map Cause.queued) (filtered chosen)
    have left : Alike twins.key { s with backlog := s.backlog.filter (!chosen ·) }
        { t with backlog := t.backlog.filter (!chosen ·) } :=
      ⟨alike.now, alike.text, filtered (!chosen ·)⟩
    exact performAll_agrees agree (alongside_of_filter jobs) left

/-- Two caches over sources that agree on a key, the shared collections and the enumerations, and
that start with the same text at the key. Whatever is done to both, and whenever their queued jobs
are run, the same text is at the key after everything that is done in both, what is done in one
alone leaves it as it is, and operations about the key alone have the same results. -/
theorem tenants_isolated (alike : Alike twins.key s t) (tasks : List Task) :
    let first := s.takeAll c twins.one twins.time twins.key tasks
    let second := t.takeAll c twins.other twins.time twins.key tasks
    LogsAgree twins.key (s.world.stored? twins.key) first.1 second.1
        (first.2.world.stored? twins.key) ∧ Alike twins.key first.2 second.2 := by
  induction tasks generalizing s t with
  | nil => exact ⟨.nil _, alike⟩
  | cons task tasks ih =>
    obtain ⟨logs, after⟩ := take_agrees agree task alike
    obtain ⟨others, final⟩ := ih after
    exact ⟨logs.append others, final⟩

end Runs

def emptyListings (unreachable : List String) : Answers
  | .users => .ok ["7", "8"]
  | .collections user => if unreachable.contains user then .error "unreachable" else .ok (some [])
  | _ => .error "unknown"

/-- Another user's listing is out of reach in one site and stored in the other, and so there is a
job for it in one of them alone. -/
theorem tenants_isolated_sweep :
    let key := Key.of .collections "7"
    let tasks : List Task := [.operate (.sweep .collections),
      .operate (.read (.of .collections "8")), .work fun _ => true]
    let first := Site.takeAll .standard (emptyListings ["8"]) "2026" key tasks ⟨.empty, 0, []⟩
    let second := Site.takeAll .standard (emptyListings []) "2026" key tasks
      ⟨.ofList [("collections:8", "[]")], 0, []⟩
    first.1.length = 4 ∧ second.1.length = 3 ∧
      LogsAgree key none first.1 second.1 (some "[]") ∧
      second.2.world.stored? key = some "[]" := by
  intro key tasks first second
  let twins : Twins := ⟨emptyListings ["8"], emptyListings [], "2026", key⟩
  have agree : AgreeOn .standard twins := by
    refine ⟨rfl, rfl, fun _ => rfl, ?_⟩
    rintro question rfl
    rfl
  have alike : Alike twins.key ⟨.empty, 0, []⟩ ⟨.ofList [("collections:8", "[]")], 0, []⟩ :=
    ⟨rfl, rfl, rfl⟩
  have count : first.1.length = 4 := by rfl
  have count' : second.1.length = 3 := by rfl
  have text : first.2.world.stored? key = some "[]" := by rfl
  obtain ⟨logs, final⟩ := tenants_isolated agree alike tasks
  exact ⟨count, count', text ▸ logs, final.text.symm.trans text⟩

end Cache

end CacheAside
