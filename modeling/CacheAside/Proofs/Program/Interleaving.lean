import CacheAside.Proofs.Program.Keeps

namespace CacheAside

namespace Program

variable {α β ι σ : Type} {step : σ → Exchange → σ → Prop}

def Comes (step : σ → Exchange → σ → Prop) (p : Program α) (s : σ) (result : Except Failure α)
    (s' : σ) : Prop :=
  ∃ xs, p.Runs xs (some result) ∧ Exchange.Follows step s xs s'

theorem comes_done {result ending : Except Failure α} {s s' : σ} :
    (done result).Comes step s ending s' ↔ ending = result ∧ s' = s := by
  constructor
  · rintro ⟨xs, runs, follows⟩
    obtain ⟨rfl, same⟩ := runs_done.mp runs
    cases follows
    exact ⟨same, rfl⟩
  · rintro ⟨rfl, rfl⟩
    exact ⟨[], .done _, .nil _⟩

theorem comes_ask {request : Request} {next : request.Reply → Program α}
    {ending : Except Failure α} {s s' : σ} :
    (ask request next).Comes step s ending s' ↔
      ∃ reply between, step s ⟨request, reply⟩ between ∧
        (next reply).Comes step between ending s' := by
  constructor
  · rintro ⟨xs, runs, follows⟩
    obtain ⟨reply, rest, rfl, after⟩ := runs_ask.mp runs
    cases follows with
    | cons first others => exact ⟨reply, _, first, rest, after, others⟩
  · rintro ⟨reply, between, first, rest, after, others⟩
    exact ⟨⟨request, reply⟩ :: rest, .ask reply after, .cons first others⟩

theorem comes_bind {p : Program α} {f : α → Program β} {ending : Except Failure β} {s s' : σ} :
    (p >>= f).Comes step s ending s' ↔
      (∃ a between, p.Comes step s (.ok a) between ∧ (f a).Comes step between ending s') ∨
        ∃ failure, ending = .error failure ∧ p.Comes step s (.error failure) s' := by
  change (p.bind f).Comes step s ending s' ↔ _
  induction p generalizing s with
  | done result =>
    cases result with
    | ok a =>
      simp only [bind, comes_done, Except.ok.injEq, reduceCtorEq, false_and, and_false,
        exists_false, or_false]
      constructor
      · intro comes
        exact ⟨a, s, ⟨rfl, rfl⟩, comes⟩
      · rintro ⟨_, _, ⟨rfl, rfl⟩, comes⟩
        exact comes
    | error failure =>
      simp only [bind, comes_done, reduceCtorEq, false_and, exists_false, false_or,
        Except.error.injEq]
      constructor
      · rintro ⟨rfl, rfl⟩
        exact ⟨failure, rfl, rfl, rfl⟩
      · rintro ⟨_, rfl, rfl, rfl⟩
        exact ⟨rfl, rfl⟩
  | ask request next ih =>
    simp only [bind, comes_ask, ih]
    constructor
    · rintro ⟨reply, between, first, ⟨a, later, comes, goesOn⟩ | ⟨failure, same, comes⟩⟩
      · exact .inl ⟨a, later, ⟨reply, between, first, comes⟩, goesOn⟩
      · exact .inr ⟨failure, same, reply, between, first, comes⟩
    · rintro (⟨a, later, ⟨reply, between, first, comes⟩, goesOn⟩ |
        ⟨failure, same, reply, between, first, comes⟩)
      · exact ⟨reply, between, first, .inl ⟨a, later, comes, goesOn⟩⟩
      · exact ⟨reply, between, first, .inr ⟨failure, same, comes⟩⟩

theorem comes_attempt {p : Program α} {ending : Except Failure (Except Failure α)} {s s' : σ} :
    p.attempt.Comes step s ending s' ↔
      ∃ result, ending = .ok result ∧ p.Comes step s result s' := by
  simp only [Comes, runs_attempt]
  constructor
  · rintro ⟨xs, ⟨result, same, runs⟩, follows⟩
    exact ⟨result, same, xs, runs, follows⟩
  · rintro ⟨result, same, xs, runs, follows⟩
    exact ⟨xs, ⟨result, same, runs⟩, follows⟩

inductive Advances (step : σ → Exchange → σ → Prop) :
    List (ι × Program α) → σ → List (ι × Program α) → σ → Prop
  | turn {before after : List (ι × Program α)} {name : ι} {request : Request}
    {next : request.Reply → Program α} {reply : request.Reply} {s s' : σ}
    (met : step s ⟨request, reply⟩ s') :
    Advances step (before ++ (name, ask request next) :: after) s
      (before ++ (name, next reply) :: after) s'

def ended (results : List (ι × Except Failure α)) : List (ι × Program α) :=
  results.map fun (name, result) => (name, done result)

/-- In whatever order the programs take their turns, they come to an end, and then what is promised
holds. -/
inductive Inevitably (step : σ → Exchange → σ → Prop)
    (promised : List (ι × Except Failure α) → σ → Prop) : List (ι × Program α) → σ → Prop
  | ended {results : List (ι × Except Failure α)} {s : σ} (holds : promised results s) :
    Inevitably step promised (ended results) s
  | turns {ps : List (ι × Program α)} {s : σ} (possible : ∃ ps' s', Advances step ps s ps' s')
    (all : ∀ ps' s', Advances step ps s ps' s' → Inevitably step promised ps' s') :
    Inevitably step promised ps s

theorem ended_or_asks (ps : List (ι × Program α)) :
    (∃ results, ps = ended results) ∨ ∃ before name request next after,
      ps = before ++ (name, ask request next) :: after := by
  induction ps with
  | nil => exact .inl ⟨[], rfl⟩
  | cons first rest ih =>
    obtain ⟨name, p⟩ := first
    cases p with
    | ask request next => exact .inr ⟨[], name, request, next, rest, rfl⟩
    | done result =>
      rcases ih with ⟨results, rfl⟩ | ⟨before, other, request, next, after, rfl⟩
      · exact .inl ⟨(name, result) :: results, rfl⟩
      · exact .inr ⟨(name, done result) :: before, other, request, next, after, rfl⟩

def Shrinks (ps' ps : List (ι × Program α)) : Prop :=
  ∃ before name request next reply after, ps = before ++ (name, ask request next) :: after ∧
    ps' = before ++ (name, next reply) :: after

theorem Advances.shrinks {ps ps' : List (ι × Program α)} {s s' : σ}
    (advances : Advances step ps s ps' s') : Shrinks ps' ps := by
  cases advances with
  | turn met => exact ⟨_, _, _, _, _, _, rfl, rfl⟩

theorem ended_injective {results results' : List (ι × Except Failure α)}
    (same : ended results = ended results') : results = results' := by
  refine (List.map_inj_right ?_).mp same
  rintro ⟨name, result⟩ ⟨name', result'⟩ equal
  cases equal
  rfl

theorem not_advances_ended {results : List (ι × Except Failure α)} {ps : List (ι × Program α)}
    {s s' : σ} : ¬ Advances step (ended results) s ps s' := by
  intro advances
  obtain ⟨before, name, request, next, _, after, same, _⟩ := advances.shrinks
  have there : (name, ask request next) ∈ ended results := by simp [same]
  obtain ⟨_, _, impossible⟩ := List.mem_map.mp there
  cases impossible

theorem Inevitably.of_ended {promised : List (ι × Except Failure α) → σ → Prop}
    {results : List (ι × Except Failure α)} {s : σ}
    (inevitable : Inevitably step promised (Program.ended results) s) : promised results s := by
  generalize same : Program.ended results = ps at inevitable
  cases inevitable with
  | ended holds => exact ended_injective same ▸ holds
  | turns possible all =>
    obtain ⟨_, _, advances⟩ := possible
    subst same
    exact absurd advances not_advances_ended

theorem Inevitably.advance {promised : List (ι × Except Failure α) → σ → Prop}
    {ps ps' : List (ι × Program α)} {s s' : σ} (inevitable : Inevitably step promised ps s)
    (advances : Advances step ps s ps' s') : Inevitably step promised ps' s' := by
  cases inevitable with
  | ended holds => exact absurd advances not_advances_ended
  | turns possible all => exact all _ _ advances

theorem Inevitably.mono {promised promised' : List (ι × Except Failure α) → σ → Prop}
    {ps : List (ι × Program α)} {s : σ} (inevitable : Inevitably step promised ps s)
    (implied : ∀ results s, promised results s → promised' results s) :
    Inevitably step promised' ps s := by
  induction inevitable with
  | ended holds => exact .ended (implied _ _ holds)
  | turns possible _ ih => exact .turns possible ih

-- A program is a tree, and a turn goes to a branch of it; the other programs wait where they are.
theorem acc_cons_shrinks (name : ι) (p : Program α) {ps : List (ι × Program α)}
    (rest : Acc Shrinks ps) : Acc Shrinks ((name, p) :: ps) := by
  induction p generalizing ps with
  | done result =>
    induction rest with
    | intro ps _ ih =>
      refine Acc.intro _ ?_
      rintro _ ⟨before, other, request, next, reply, after, same, rfl⟩
      cases before with
      | nil => cases same
      | cons first before =>
        cases same
        exact ih _ ⟨before, other, request, next, reply, after, rfl, rfl⟩
  | ask request next ih =>
    induction rest with
    | intro ps acc inner =>
      refine Acc.intro _ ?_
      rintro _ ⟨before, other, request', next', reply, after, same, rfl⟩
      cases before with
      | nil =>
        cases same
        exact ih reply (Acc.intro ps acc)
      | cons first before =>
        cases same
        exact inner _ ⟨before, other, request', next', reply, after, rfl, rfl⟩

theorem acc_shrinks (ps : List (ι × Program α)) : Acc Shrinks ps := by
  induction ps with
  | nil =>
    refine Acc.intro _ ?_
    rintro _ ⟨before, _, _, _, _, _, same, _⟩
    cases before <;> cases same
  | cons first rest ih => exact acc_cons_shrinks first.1 first.2 ih

/-- Programs that take no turns: each comes to its end before the next one starts. -/
inductive OneByOne (step : σ → Exchange → σ → Prop) :
    List (ι × Program α) → σ → List (ι × Except Failure α) → σ → Prop
  | nil (s : σ) : OneByOne step [] s [] s
  | cons {name : ι} {p : Program α} {ps : List (ι × Program α)} {result : Except Failure α}
    {results : List (ι × Except Failure α)} {s s' s'' : σ} (first : p.Comes step s result s')
    (rest : OneByOne step ps s' results s'') :
    OneByOne step ((name, p) :: ps) s ((name, result) :: results) s''

theorem Inevitably.comes {promised : List (ι × Except Failure α) → σ → Prop} {name : ι}
    {p : Program α} {before after : List (ι × Program α)} {result : Except Failure α} {s s' : σ}
    (inevitable : Inevitably step promised (before ++ (name, p) :: after) s)
    (comes : p.Comes step s result s') :
    Inevitably step promised (before ++ (name, done result) :: after) s' := by
  induction p generalizing s with
  | done result =>
    obtain ⟨rfl, rfl⟩ := comes_done.mp comes
    exact inevitable
  | ask request next ih =>
    obtain ⟨reply, between, met, goesOn⟩ := comes_ask.mp comes
    exact ih reply (inevitable.advance (.turn met)) goesOn

theorem Inevitably.oneByOne_behind {promised : List (ι × Except Failure α) → σ → Prop}
    {ps : List (ι × Program α)} {results rest : List (ι × Except Failure α)} {s s' : σ}
    (inevitable : Inevitably step promised (Program.ended results ++ ps) s)
    (comes : OneByOne step ps s rest s') : promised (results ++ rest) s' := by
  induction comes generalizing results with
  | nil s =>
    rw [List.append_nil] at inevitable ⊢
    exact inevitable.of_ended
  | @cons name p ps result rest s s' s'' first _ ih =>
    have moved : Inevitably step promised
        (Program.ended (results ++ [(name, result)]) ++ ps) s' := by
      simpa [Program.ended] using inevitable.comes first
    simpa using ih moved

/-- What comes of programs in whatever order they take their turns comes of them one by one. -/
theorem Inevitably.oneByOne {promised : List (ι × Except Failure α) → σ → Prop}
    {ps : List (ι × Program α)} {results : List (ι × Except Failure α)} {s s' : σ}
    (inevitable : Inevitably step promised ps s) (comes : OneByOne step ps s results s') :
    promised results s' := by
  have unbegun : Inevitably step promised (Program.ended [] ++ ps) s := inevitable
  exact unbegun.oneByOne_behind comes

/-- An invariant of every turn, under which every open request is replied to, holds in the end, and
there is an end. -/
theorem inevitably_of_invariant {promised : List (ι × Except Failure α) → σ → Prop}
    {I : List (ι × Program α) → σ → Prop}
    (replied : ∀ before name request next after s,
      I (before ++ (name, ask request next) :: after) s → ∃ reply s', step s ⟨request, reply⟩ s')
    (kept : ∀ ps s ps' s', I ps s → Advances step ps s ps' s' → I ps' s')
    (ends : ∀ results s, I (ended results) s → promised results s)
    {ps : List (ι × Program α)} {s : σ} (start : I ps s) :
    Inevitably step promised ps s := by
  induction acc_shrinks ps generalizing s with
  | intro ps _ ih =>
    rcases ended_or_asks ps with ⟨results, rfl⟩ | ⟨before, name, request, next, after, rfl⟩
    · exact .ended (ends results s start)
    · obtain ⟨reply, s', met⟩ := replied before name request next after s start
      refine .turns ⟨_, _, .turn met⟩ fun ps' s'' advances => ?_
      exact ih ps' advances.shrinks (kept _ _ _ _ start advances)

/-- Programs, told apart by their names, that find their own part of the state as if they were
alone: an exchange of one is possible wherever its part is the same, and leaves the parts of the
others as they are. -/
structure Apart (step : σ → Exchange → σ → Prop) (asks : ι → Request → Prop)
    (same : ι → σ → σ → Prop) : Prop where
  refl : ∀ name s, same name s s
  replied : ∀ name request s, asks name request → ∃ reply s', step s ⟨request, reply⟩ s'
  own : ∀ name x s s' u, asks name x.request → step s x s' → same name s u →
    ∃ u', step u x u' ∧ same name s' u'
  others : ∀ name other x s s' u, name ≠ other → asks name x.request → step s x s' →
    same other s u → same other s' u

def asking (asks : Request → Prop) : Terms := ⟨asks, fun _ _ => True⟩

section Turns

variable {asks : ι → Request → Prop} {same : ι → σ → σ → Prop} {programs : ι → Program α}
  {names : List ι} {kept : σ → Prop} {start : σ}

/-- What holds between two turns: every program that is left can only end as the whole of it can end
alone, from the start. -/
structure Underway (step : σ → Exchange → σ → Prop) (asks : ι → Request → Prop)
    (same : ι → σ → σ → Prop) (programs : ι → Program α) (names : List ι) (kept : σ → Prop)
    (start : σ) (ps : List (ι × Program α)) (s : σ) : Prop where
  named : ps.map (·.1) = names
  within : ∀ i p, (i, p) ∈ ps → p.Keeps (asking (asks i)) (fun _ => True) fun _ => True
  alone : ∀ i p, (i, p) ∈ ps → ∃ u, same i s u ∧
    ∀ result u', p.Comes step u result u' → (programs i).Comes step start result u'
  framed : kept s

theorem Underway.advances (apart : Apart step asks same) (distinct : names.Nodup)
    (frame : ∀ i ∈ names, ∀ x s s', asks i x.request → step s x s' → kept s → kept s')
    {ps ps' : List (ι × Program α)} {s s' : σ}
    (underway : Underway step asks same programs names kept start ps s)
    (advances : Advances step ps s ps' s') :
    Underway step asks same programs names kept start ps' s' := by
  obtain ⟨named, within, alone, framed⟩ := underway
  cases advances with
  | @turn before after name request next reply _ _ met =>
    have mine : (name, ask request next) ∈ before ++ (name, ask request next) :: after := by simp
    have asked : asks name (Exchange.mk request reply).request := (within name _ mine).1
    have place : ∀ {q : Program α} {i : ι} {p : Program α},
        (i, p) ∈ before ++ (name, q) :: after ↔ (i, p) = (name, q) ∨ (i, p) ∈ before ++ after := by
      intro q i p
      simp only [List.mem_append, List.mem_cons]
      exact or_left_comm
    have unnamed : ∀ i p, (i, p) ∈ before ++ after → name ≠ i := by
      rintro i p there rfl
      have moved : (before ++ (name, ask request next) :: after).Perm
          ((name, ask request next) :: (before ++ after)) := List.perm_middle
      have unique := (moved.map (·.1)).nodup_iff.mp (named ▸ distinct)
      have absent : name ∉ (before ++ after).map (·.1) := (List.nodup_cons.mp unique).1
      exact absent (List.mem_map_of_mem there)
    refine ⟨?_, ?_, ?_, ?_⟩
    · simpa using named
    · intro i p there
      rcases place.mp there with mine' | other
      · cases mine'
        exact (within name _ mine).2 reply True.intro
      · exact within i p (place.mpr (.inr other))
    · intro i p there
      rcases place.mp there with mine' | other
      · cases mine'
        obtain ⟨u, same_u, comes⟩ := alone name _ mine
        obtain ⟨u', met', same_u'⟩ := apart.own _ _ _ _ u asked met same_u
        refine ⟨u', same_u', fun result v rest => ?_⟩
        exact comes result v (comes_ask.mpr ⟨reply, u', met', rest⟩)
      · obtain ⟨u, same_u, comes⟩ := alone i p (place.mpr (.inr other))
        exact ⟨u, apart.others _ _ _ _ _ u (unnamed i p other) asked met same_u, comes⟩
    · exact frame name (named ▸ List.mem_map_of_mem mine) _ _ _ asked met framed

/-- Programs that work on parts of their own all end, in whatever order they take their turns, each
as it can end alone, and with its part as it leaves it alone. -/
theorem inevitably_apart (programs : ι → Program α) (kept : σ → Prop) (start : σ)
    (apart : Apart step asks same) (distinct : names.Nodup)
    (within : ∀ i ∈ names, (programs i).Keeps (asking (asks i)) (fun _ => True) fun _ => True)
    (frame : ∀ i ∈ names, ∀ x s s', asks i x.request → step s x s' → kept s → kept s')
    (framed : kept start) :
    Inevitably step (fun results s => results.map (·.1) = names ∧
        (∀ i result, (i, result) ∈ results →
          ∃ u, (programs i).Comes step start result u ∧ same i s u) ∧ kept s)
      (names.map fun i => (i, programs i)) start := by
  apply inevitably_of_invariant (I := Underway step asks same programs names kept start)
  · intro before name request next after s underway
    have mine : (name, ask request next) ∈ before ++ (name, ask request next) :: after := by simp
    exact apart.replied name request s (underway.within name _ mine).1
  · intro ps s ps' s' underway advances
    exact underway.advances apart distinct frame advances
  · intro results s underway
    refine ⟨?_, ?_, underway.framed⟩
    · simpa [ended, Function.comp_def] using underway.named
    · intro i result there
      have mine : (i, done result) ∈ ended results := List.mem_map_of_mem there
      obtain ⟨u, same_u, comes⟩ := underway.alone i (done result) mine
      exact ⟨u, comes result u (comes_done.mpr ⟨rfl, rfl⟩), same_u⟩
  · refine ⟨by simp [Function.comp_def], ?_, ?_, framed⟩
    · intro i p there
      obtain ⟨i', named, same⟩ := List.mem_map.mp there
      cases same
      exact within i named
    · intro i p there
      obtain ⟨i', named, same⟩ := List.mem_map.mp there
      cases same
      exact ⟨start, apart.refl i start, fun _ _ comes => comes⟩

end Turns

end Program

end CacheAside
