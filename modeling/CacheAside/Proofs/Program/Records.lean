import CacheAside.Proofs.Program.Interleaving

namespace CacheAside

namespace Program

variable {α ι σ : Type} {step : σ → Exchange → σ → Prop}

/-- Any number of turns, each put down under the name of the program that took it. -/
inductive Recorded (step : σ → Exchange → σ → Prop) :
    List (ι × Program α) → σ → List (ι × Exchange) → List (ι × Program α) → σ → Prop
  | nil (ps : List (ι × Program α)) (s : σ) : Recorded step ps s [] ps s
  | turn {before after ps : List (ι × Program α)} {name : ι} {request : Request}
    {next : request.Reply → Program α} {reply : request.Reply} {s s' s'' : σ}
    {record : List (ι × Exchange)} (met : step s ⟨request, reply⟩ s')
    (rest : Recorded step (before ++ (name, next reply) :: after) s' record ps s'') :
    Recorded step (before ++ (name, ask request next) :: after) s
      ((name, ⟨request, reply⟩) :: record) ps s''

theorem Recorded.follows {ps ps' : List (ι × Program α)} {record : List (ι × Exchange)} {s s' : σ}
    (recorded : Recorded step ps s record ps' s') :
    Exchange.Follows step s (record.map (·.2)) s' := by
  induction recorded with
  | nil ps s => exact .nil s
  | turn met _ ih => exact .cons met ih

theorem Recorded.named {ps ps' : List (ι × Program α)} {record : List (ι × Exchange)} {s s' : σ}
    (recorded : Recorded step ps s record ps' s') :
    ∀ entry ∈ record, entry.1 ∈ ps.map (·.1) := by
  induction recorded with
  | nil => exact List.forall_mem_nil _
  | turn _ _ ih =>
    refine List.forall_mem_cons.mpr ⟨by simp, fun entry there => ?_⟩
    simpa using ih entry there

theorem Recorded.append {ps ps' ps'' : List (ι × Program α)} {record more : List (ι × Exchange)}
    {s s' s'' : σ} (recorded : Recorded step ps s record ps' s')
    (later : Recorded step ps' s' more ps'' s'') :
    Recorded step ps s (record ++ more) ps'' s'' := by
  induction recorded with
  | nil => exact later
  | turn met _ ih => exact .turn met (ih later)

theorem recorded_of_runs {before after : List (ι × Program α)} {p : Program α} {name : ι}
    {xs ys : List Exchange} {result : Except Failure α} {s s' : σ}
    (runs : p.Runs (xs ++ ys) (some result)) (follows : Exchange.Follows step s xs s') :
    ∃ q, q.Runs ys (some result) ∧ Recorded step (before ++ (name, p) :: after) s
      (xs.map (name, ·)) (before ++ (name, q) :: after) s' := by
  induction follows generalizing p with
  | nil s => exact ⟨p, runs, .nil _ s⟩
  | cons first _ ih =>
    cases runs with | ask reply rest =>
    obtain ⟨q, goesOn, recorded⟩ := ih rest
    exact ⟨q, goesOn, .turn first recorded⟩

theorem recorded_between {p q : Program α} {name other : ι} {xs ys zs : List Exchange}
    {result result' : Except Failure α} {s s' : σ} (inner : p.Runs ys (some result))
    (outer : q.Runs (xs ++ zs) (some result'))
    (follows : Exchange.Follows step s (xs ++ (ys ++ zs)) s') :
    Recorded step [(name, p), (other, q)] s
      (xs.map (other, ·) ++ (ys.map (name, ·) ++ zs.map (other, ·)))
      (ended [(name, result), (other, result')]) s' := by
  obtain ⟨between, first, follows⟩ := Exchange.follows_append.mp follows
  obtain ⟨between', second, third⟩ := Exchange.follows_append.mp follows
  have whole : p.Runs (ys ++ []) (some result) := by rwa [List.append_nil]
  obtain ⟨q', rest, begins⟩ :=
    @recorded_of_runs _ _ _ _ [(name, p)] [] _ other _ _ _ _ _ outer first
  obtain ⟨p', done, goesOn⟩ :=
    @recorded_of_runs _ _ _ _ [] [(other, q')] _ name _ _ _ _ _ whole second
  have remains : q'.Runs (zs ++ []) (some result') := by rwa [List.append_nil]
  obtain ⟨q'', done', ends⟩ :=
    @recorded_of_runs _ _ _ _ [(name, p')] [] _ other _ _ _ _ _ remains third
  cases done
  cases done'
  exact begins.append (goesOn.append ends)

variable [DecidableEq ι]

def own (name : ι) (record : List (ι × Exchange)) : List Exchange :=
  (record.filter (·.1 = name)).map (·.2)

theorem own_cons_self (name : ι) (x : Exchange) (record : List (ι × Exchange)) :
    own name ((name, x) :: record) = x :: own name record := by simp [own]

theorem own_cons_of_ne {name other : ι} (apart : other ≠ name) (x : Exchange)
    (record : List (ι × Exchange)) : own name ((other, x) :: record) = own name record := by
  simp [own, apart]

/-- Programs with names of their own that have come to an end have each had a whole run. -/
theorem Recorded.runs {ps : List (ι × Program α)} {record : List (ι × Exchange)}
    {results : List (ι × Except Failure α)} {s s' : σ}
    (recorded : Recorded step ps s record (ended results) s') (distinct : (ps.map (·.1)).Nodup)
    {name : ι} {p : Program α} (there : (name, p) ∈ ps) :
    ∃ result, (name, result) ∈ results ∧ p.Runs (own name record) (some result) := by
  generalize finished : ended results = qs at recorded
  induction recorded generalizing p with
  | nil ps s =>
    subst finished
    obtain ⟨⟨_, result⟩, member, same⟩ := List.mem_map.mp there
    cases same
    exact ⟨result, member, .done result⟩
  | @turn before after _ other request next reply _ _ _ _ _ _ ih =>
    have places : ∀ {q : Program α}, (name, p) ∈ before ++ (other, q) :: after ↔
        (name, p) = (other, q) ∨ (name, p) ∈ before ++ after := by
      intro q
      simp only [List.mem_append, List.mem_cons]
      exact or_left_comm
    have names : ((before ++ (other, next reply) :: after).map (·.1)).Nodup := by
      simpa using distinct
    rcases places.mp there with mine | beside
    · cases mine
      have here : (name, next reply) ∈ before ++ (name, next reply) :: after :=
        List.mem_append_right _ List.mem_cons_self
      obtain ⟨result, member, runs⟩ := ih names here finished
      rw [own_cons_self]
      exact ⟨result, member, .ask reply runs⟩
    · have moved : (before ++ (other, ask request next) :: after).Perm
          ((other, ask request next) :: (before ++ after)) := List.perm_middle
      have unique := (moved.map (·.1)).nodup_iff.mp distinct
      have apart : other ≠ name := by
        rintro rfl
        exact (List.nodup_cons.mp unique).1 (List.mem_map.mpr ⟨_, beside, rfl⟩)
      obtain ⟨result, member, runs⟩ := ih names (places.mpr (.inr beside)) finished
      rw [own_cons_of_ne apart]
      exact ⟨result, member, runs⟩

theorem split_of_own {record : List (ι × Exchange)} {name other : ι} {x : Exchange}
    (apart : name ≠ other) (only : ∀ entry ∈ record, entry.1 = name ∨ entry.1 = other)
    (single : own name record = [x]) :
    ∃ before after, record.map (·.2) = before ++ x :: after ∧
      own other record = before ++ after := by
  induction record with
  | nil => cases single
  | cons entry record ih =>
    obtain ⟨party, y⟩ := entry
    obtain ⟨turn, only⟩ := List.forall_mem_cons.mp only
    obtain rfl | rfl : party = name ∨ party = other := turn
    · rw [own_cons_self, List.cons.injEq] at single
      obtain ⟨rfl, rest⟩ := single
      have others : ∀ entry ∈ record, entry.1 = other := by
        intro entry there
        refine (only entry there).resolve_left fun mine => ?_
        have member : entry.2 ∈ own party record := by
          refine List.mem_map_of_mem (List.mem_filter.mpr ⟨there, ?_⟩)
          exact decide_eq_true mine
        rw [rest] at member
        cases member
      refine ⟨[], record.map (·.2), rfl, ?_⟩
      rw [own_cons_of_ne apart, own, List.filter_eq_self.mpr]
      · rfl
      · exact fun entry there => decide_eq_true (others entry there)
    · rw [own_cons_of_ne (Ne.symm apart)] at single
      obtain ⟨before, after, split, rest⟩ := ih only single
      refine ⟨y :: before, after, ?_, ?_⟩
      · rw [List.map_cons, split]
        rfl
      · rw [own_cons_self, rest]
        rfl

end Program

end CacheAside
