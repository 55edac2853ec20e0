import CacheAside.Proofs.Cache.Restamping
import Mathlib.Data.List.Nodup

namespace CacheAside

def Patch.keys (job : Patch) : List Key := job.targets.map (·.2)

theorem Patch.nodup_keys {job : Patch} (distinct : job.owners.Nodup) : job.keys.Nodup := by
  unfold keys targets
  split
  · exact List.nodup_singleton _
  · rw [List.map_map]
    refine distinct.map ?_
    intro a b same
    cases same
    rfl

theorem Report.allSucceeded_eq (report : Report) :
    report.allSucceeded = report.outcomes.all (·.2.isOk) := by
  rw [Bool.eq_iff_iff, allSucceeded, List.isEmpty_iff, ← List.length_eq_zero_iff, length_failures,
    List.countP_eq_zero, List.all_eq_true]
  simp

theorem Program.OneByOne.rename {α ι κ σ : Type} {step : σ → Exchange → σ → Prop}
    {ps : List (ι × Program α)} {qs : List (κ × Program α)} {s s' : σ}
    {results : List (ι × Except Failure α)} (comes : OneByOne step ps s results s')
    (same : ps.map (·.2) = qs.map (·.2)) :
    ∃ results' : List (κ × Except Failure α), OneByOne step qs s results' s' ∧
      results'.map (·.2) = results.map (·.2) := by
  induction comes generalizing qs with
  | nil s =>
    obtain rfl : qs = [] := List.map_eq_nil_iff.mp same.symm
    exact ⟨[], .nil s, rfl⟩
  | @cons name p ps result results s s' s'' first _ ih =>
    cases qs with
    | nil => cases same
    | cons second qs =>
      obtain ⟨other, q⟩ := second
      obtain ⟨rfl, rest⟩ := List.cons.inj same
      obtain ⟨results', comes', same'⟩ := ih rest
      refine ⟨(other, result) :: results', .cons first comes', ?_⟩
      rw [List.map_cons, List.map_cons, same']

namespace Cache

open Program

variable {outages : Outages} {answers : Answers} {c : Config} {jobs : List Patch} {job : Patch}
  {reports : List Report} {report : Report} {w w' : World}

inductive Applied (outages : Outages) (answers : Answers) (c : Config) :
    List Patch → World → List Report → World → Prop
  | nil (w : World) : Applied outages answers c [] w [] w
  | cons {job : Patch} {jobs : List Patch} {report : Report} {reports : List Report}
    {w w' w'' : World}
    (first : (editAll c job).Comes (World.Regularly outages answers) w (.ok report) w')
    (rest : Applied outages answers c jobs w' reports w'') :
    Applied outages answers c (job :: jobs) w (report :: reports) w''

theorem exists_applied (outages : Outages) (answers : Answers) (c : Config) (jobs : List Patch)
    (w : World) : ∃ reports w', Applied outages answers c jobs w reports w' := by
  induction jobs generalizing w with
  | nil => exact ⟨[], w, .nil w⟩
  | cons job jobs ih =>
    have comes := World.comes_regular outages answers "" (editAll c job) w
    obtain ⟨report, same, _⟩ := oneByOne_of_editAll comes
    rw [same] at comes
    obtain ⟨reports, w', rest⟩ := ih _
    exact ⟨report :: reports, w', .cons comes rest⟩

def endsWell (outages : Outages) (answers : Answers) (c : Config) (job : Patch) (w : World)
    (key : Key) : Bool :=
  ((World.regular outages answers "").finish (editEntry c job key) w).1.isOk

structure Edited (outages : Outages) (answers : Answers) (c : Config) (job : Patch) (w : World)
    (report : Report) (w' : World) : Prop where
  edits : ∀ key ∈ job.keys, ∀ u, Similar c outages key.text u w → ∀ result u',
    (editEntry c job key).Comes (World.Regularly outages answers) u result u' →
      result.isOk = endsWell outages answers c job w key ∧ Similar c outages key.text u' w'
  others : ∀ name, (∀ key ∈ job.keys, name ≠ key.text) → SameEntry name w' w
  rest : w' = { w with entries := w'.entries }
  verdict : report.allSucceeded = job.keys.all (endsWell outages answers c job w)

theorem edited_of_comes (distinct : job.owners.Nodup)
    (wellMade : ∀ key value, answers.value? c key = some value → WellMade value)
    (replaced : ∀ value, job.edit = .replace value → WellMade value)
    (comes : (editAll c job).Comes (World.Regularly outages answers) w (.ok report) w') :
    Edited outages answers c job w report w' := by
  obtain ⟨_, ⟨⟩, came⟩ := oneByOne_of_editAll comes
  have parted : (parts c job).map (·.2) =
      (job.keys.map fun key => (key, editEntry c job key)).map (·.2) := by
    simp only [parts, Patch.keys, List.map_map]
    rfl
  obtain ⟨results, byKey, same⟩ := came.rename parted
  have inevitable : Inevitably (World.Regularly outages answers)
      (Isolated outages answers Key.text (editEntry c job) job.keys w)
      (job.keys.map fun key => (key, editEntry c job key)) w :=
    inevitably_isolated (fun _ _ => Key.text_injective)
      (fun key _ => stampsLast_editEntry c job key) (fun key _ => within_editEntry c job key)
      (Patch.nodup_keys distinct)
  obtain ⟨outcomes, entries, others, rest⟩ := inevitable.oneByOne byKey
  have now : w'.now = w.now := by rw [rest]
  refine ⟨?_, fun name apart => ⟨now, others name apart⟩, rest, ?_⟩
  · intro key there u similar result u' comes
    obtain ⟨told, here⟩ := (stampsLast_editEntry c job key).finish_of_comes comes
    obtain ⟨time, entry⟩ := entries key there
    obtain ⟨ends, after⟩ := together_editEntry (wellMade key) replaced similar told time
    rw [here] at ends after
    refine ⟨?_, .congr ⟨rfl, rfl⟩ after ⟨?_, entry⟩⟩
    · rw [endsWell, ends, ((stampsLast_editEntry c job key).restamped "" w time "").1]
    · rw [now, World.now_finish]
  · calc report.allSucceeded
        = (report.outcomes.map (·.2)).all Except.isOk := by
          rw [report.allSucceeded_eq, List.all_map]
          rfl
      _ = job.keys.all (endsWell outages answers c job w) := by
          rw [← same, outcomes, List.map_map, List.all_map]
          rfl

/-- What one patch after the other makes of the entries; `state` is the world before each patch, and
`well` says of a patch and an entry whether that was edited. -/
structure Succession (outages : Outages) (answers : Answers) (c : Config) (jobs : List Patch)
    (reports : List Report) (state : Nat → World) (well : Nat → Key → Bool) : Prop where
  edits : ∀ n job, jobs[n]? = some job → ∀ key ∈ job.keys, ∀ u,
    Similar c outages key.text u (state n) → ∀ result u',
      (editEntry c job key).Comes (World.Regularly outages answers) u result u' →
        result.isOk = well n key ∧ Similar c outages key.text u' (state (n + 1))
  others : ∀ n job, jobs[n]? = some job → ∀ name, (∀ key ∈ job.keys, name ≠ key.text) →
    SameEntry name (state (n + 1)) (state n)
  verdicts : ∀ (n : Nat) (job : Patch), jobs[n]? = some job →
    ∃ report : Report, reports[n]? = some report ∧ report.allSucceeded = job.keys.all (well n)

theorem Applied.succession (applied : Applied outages answers c jobs w reports w')
    (distinct : ∀ job ∈ jobs, job.owners.Nodup)
    (wellMade : ∀ key value, answers.value? c key = some value → WellMade value)
    (replaced : ∀ job ∈ jobs, ∀ value, job.edit = .replace value → WellMade value) :
    ∃ state well, Succession outages answers c jobs reports state well ∧ state 0 = w ∧
      state jobs.length = w' ∧ reports.length = jobs.length ∧
      w' = { w with entries := w'.entries } := by
  induction applied with
  | nil w => exact ⟨fun _ => w, fun _ _ => true, ⟨nofun, nofun, nofun⟩, rfl, rfl, rfl, rfl⟩
  | @cons job jobs report reports w w' w'' first _ ih =>
    obtain ⟨distinct_first, distinct⟩ := List.forall_mem_cons.mp distinct
    obtain ⟨replaced_first, replaced⟩ := List.forall_mem_cons.mp replaced
    obtain ⟨state, well, ⟨edits, others, verdicts⟩, rfl, rfl, counted, rest⟩ := ih distinct replaced
    have edited := edited_of_comes distinct_first wellMade replaced_first first
    refine ⟨fun | 0 => w | n + 1 => state n,
      fun | 0 => endsWell outages answers c job w | n + 1 => well n, ⟨?_, ?_, ?_⟩, rfl, rfl, ?_, ?_⟩
    · intro n job' there
      cases n with
      | zero =>
        cases there
        exact edited.edits
      | succ n => exact edits n job' there
    · intro n job' there
      cases n with
      | zero =>
        cases there
        exact edited.others
      | succ n => exact others n job' there
    · intro n job' there
      cases n with
      | zero =>
        cases there
        exact ⟨report, rfl, edited.verdict⟩
      | succ n => exact verdicts n job' there
    · simp only [List.length_cons, counted]
    · rw [rest, edited.rest]

end Cache

end CacheAside
