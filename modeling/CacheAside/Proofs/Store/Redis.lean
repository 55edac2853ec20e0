import Mathlib.Data.List.Perm.Basic
import CacheAside.Proofs.Cache.Purging
import CacheAside.Proofs.Store.ByteOrder
import CacheAside.Store.Calls
import CacheAside.Store.Redis

namespace CacheAside

namespace Redis

variable {key start : String} {keys : List String} {now : Nat}

theorem mem_dropRepeats : key ∈ dropRepeats keys ↔ key ∈ keys := by
  fun_induction dropRepeats keys with
  | case1 => rfl
  | case2 only => rfl
  | case3 a rest ih => simp [ih]
  | case4 a b rest differ ih => simp [ih]

theorem pairwise_dropRepeats (sorted : keys.Pairwise (· ≤ ·)) :
    (dropRepeats keys).Pairwise (· < ·) := by
  fun_induction dropRepeats keys with
  | case1 => exact .nil
  | case2 only => exact List.pairwise_singleton ..
  | case3 a rest ih => exact ih sorted.tail
  | case4 a b rest differ ih =>
    obtain ⟨least, sorted⟩ := List.pairwise_cons.mp sorted
    refine List.pairwise_cons.mpr ⟨fun key there => ?_, ih sorted⟩
    have next : a < b := lt_of_le_of_ne (least b List.mem_cons_self) differ
    rcases List.mem_cons.mp (mem_dropRepeats.mp there) with rfl | later
    · exact next
    · exact lt_of_lt_of_le next ((List.pairwise_cons.mp sorted).1 key later)

theorem pairwise_sorted (keys : List String) :
    (keys.mergeSort fun a b => !decide (b < a)).Pairwise (· ≤ ·) := by
  have trans : ∀ a b c : String, (!decide (b < a)) = true → (!decide (c < b)) = true →
      (!decide (c < a)) = true := by
    simp only [Bool.not_eq_true', decide_eq_false_iff_not, not_lt]
    exact fun _ _ _ => le_trans
  have total : ∀ a b : String, ((!decide (b < a)) || !decide (a < b)) = true := by
    simp only [Bool.or_eq_true, Bool.not_eq_true', decide_eq_false_iff_not, not_lt]
    exact le_total
  refine (List.pairwise_mergeSort trans total keys).imp fun ordered => ?_
  simpa only [Bool.not_eq_true', decide_eq_false_iff_not, not_lt] using ordered

theorem flatten_pieces {size count : Nat} (positive : 0 < size) (enough : keys.length ≤ count) :
    (pieces size count keys).flatten = keys := by
  fun_induction pieces size count keys with
  | case1 keys =>
    have none : keys = [] := List.eq_nil_of_length_eq_zero (by omega)
    rw [none, List.flatten_nil]
  | case2 count => rfl
  | case3 count keys some ih =>
    have fewer : (keys.drop size).length ≤ count := by
      have := List.length_pos_iff.mpr some
      rw [List.length_drop]
      omega
    rw [List.flatten_cons, ih fewer, List.take_append_drop]

theorem length_of_mem_pieces {size count : Nat} {piece : List String} (positive : 0 < size)
    (there : piece ∈ pieces size count keys) : 1 ≤ piece.length ∧ piece.length ≤ size := by
  fun_induction pieces size count keys with
  | case1 => cases there
  | case2 => cases there
  | case3 count keys some ih =>
    have := List.length_pos_iff.mpr some
    rcases List.mem_cons.mp there with rfl | there
    · rw [List.length_take]
      omega
    · exact ih there

/-- Keys in portions that fit into a command, in ascending order of their bytes. -/
structure Portions (keys : String → Prop) (chunks : List (List String)) : Prop where
  ascending : chunks.flatten.Pairwise fun a b => bytes a < bytes b
  exact : ∀ key, key ∈ chunks.flatten ↔ keys key
  sizes : ∀ chunk ∈ chunks, 1 ≤ chunk.length ∧ chunk.length ≤ 200

theorem portions (keys : List String) :
    let named := dropRepeats (keys.mergeSort fun a b => !decide (b < a))
    Portions (· ∈ keys) (pieces batch named.length named) := by
  intro named
  have whole : (pieces batch named.length named).flatten = named :=
    flatten_pieces (by decide) le_rfl
  refine ⟨?_, fun key => ?_, fun chunk there => length_of_mem_pieces (by decide) there⟩
  · rw [whole]
    exact (pairwise_dropRepeats (pairwise_sorted keys)).imp bytes_lt_of_lt
  · rw [whole, mem_dropRepeats, List.mem_mergeSort]

/-- A server that keeps entries and hands out pages. It notes every command, the refused ones too,
which are those at some places among all commands; refusing has no effect. -/
structure Host where
  entries : Entries
  pages : List Page
  sent : List Command

namespace Host

def has (now : Nat) (entries : Entries) (key : String) : Bool := (entries.find? now key).isSome

def eraseEach (now : Nat) : List String → Entries → Nat × Entries
  | [], entries => (0, entries)
  | key :: keys, entries =>
    let (count, rest) := eraseEach now keys (entries.erase key)
    (if has now entries key then count + 1 else count, rest)

def perform (now : Nat) (host : Host) : (command : Command) → command.Reply × Host
  | .get key => (host.entries.find? now key, host)
  | .set key text => ((), { host with entries := host.entries.set now key text none })
  | .setFor key seconds text =>
    ((), { host with entries := host.entries.set now key text (some (Span.ofSeconds seconds)) })
  | .delete keys =>
    let (count, entries) := eraseEach now keys host.entries
    (count, { host with entries })
  | .scan _ _ =>
    match host.pages with
    | [] => (⟨"0", []⟩, host)
    | page :: pages => (page, { host with pages })

def exchange (now : Nat) (refuses : Nat → Bool) : Server Host := fun command host =>
  let noted := { host with sent := host.sent ++ [command] }
  if refuses host.sent.length then (none, noted)
  else
    let (reply, host) := noted.perform now command
    (some reply, host)

end Host

def Turns (pages : List Page) (cursors : List Nat) : Prop :=
  pages.map (cursor? ·.cursor) = (cursors ++ [0]).map some ∧ 0 ∉ cursors

/-- The first command that is refused, from the one at `place` on, is the `n`-th after it. -/
def RefusesFirst (refuses : Nat → Bool) (place n : Nat) : Prop :=
  refuses (place + n) = true ∧ ∀ i < n, refuses (place + i) = false

theorem RefusesFirst.succ {refuses : Nat → Bool} {place n : Nat}
    (first : RefusesFirst refuses place (n + 1)) :
    refuses place = false ∧ RefusesFirst refuses (place + 1) n := by
  obtain ⟨refused, before⟩ := first
  refine ⟨before 0 (by omega), by rwa [Nat.add_assoc, Nat.add_comm 1], fun i less => ?_⟩
  rw [Nat.add_assoc, Nat.add_comm 1]
  exact before (i + 1) (by omega)

section Binds

variable {σ α β : Type} {p : OptionT (StateM σ) α} {next : α → OptionT (StateM σ) β} {s s' : σ}

theorem bind_some {a : α} (ran : p s = (some a, s')) : (p >>= next) s = next a s' := by
  simp [bind, OptionT.bind, OptionT.mk, StateT.bind, ran]

theorem bind_none (ran : p s = (none, s')) : (p >>= next) s = (none, s') := by
  simp only [bind, OptionT.bind, OptionT.mk, StateT.bind, ran]
  rfl

theorem pure_some (a : α) : (pure a : OptionT (StateM σ) α) s = (some a, s) := rfl

end Binds

variable {host : Host} {refuses : Nat → Bool} {pattern : String} {command : Command}

theorem Turns.last {pages : List Page} (turns : Turns pages []) :
    ∃ page, pages = [page] ∧ cursor? page.cursor = some 0 := by
  obtain ⟨named, -⟩ := turns
  obtain ⟨page, rfl, told⟩ := List.map_eq_singleton_iff.mp named
  exact ⟨page, rfl, told⟩

theorem Turns.next {pages : List Page} {cursor : Nat} {cursors : List Nat}
    (turns : Turns pages (cursor :: cursors)) :
    ∃ page rest, pages = page :: rest ∧ cursor? page.cursor = some cursor ∧ cursor ≠ 0 ∧
      Turns rest cursors := by
  obtain ⟨named, positive⟩ := turns
  obtain ⟨page, rest, rfl, told, later⟩ := List.map_eq_cons_iff.mp named
  obtain ⟨nonzero, positive⟩ := not_or.mp (List.mem_cons.not.mp positive)
  exact ⟨page, rest, rfl, told, Ne.symm nonzero, later, positive⟩

def Host.note (host : Host) (command : Command) : Host :=
  { host with sent := host.sent ++ [command] }

theorem exchange_refused (refused : refuses host.sent.length = true) :
    Host.exchange now refuses command host = (none, host.note command) :=
  if_pos refused

theorem exchange_served (served : refuses host.sent.length = false) :
    Host.exchange now refuses command host =
      (some ((host.note command).perform now command).1,
        ((host.note command).perform now command).2) := by
  rw [Host.exchange, if_neg (by simp [served])]
  rfl

theorem scan_refused {rounds cursor : Nat} (refused : refuses host.sent.length = true) :
    scan (Host.exchange now refuses) pattern (rounds + 1) cursor host =
      (none, host.note (.scan cursor pattern)) :=
  bind_none (exchange_refused refused)

theorem scan_last {rounds cursor : Nat} {page : Page} (served : refuses host.sent.length = false)
    (pages : host.pages = [page]) (told : cursor? page.cursor = some 0) :
    scan (Host.exchange now refuses) pattern (rounds + 1) cursor host =
      (some page.keys, { host.note (.scan cursor pattern) with pages := [] }) := by
  refine (bind_some (exchange_served served)).trans ?_
  simp only [Host.perform, Host.note, pages, told]
  rfl

theorem scan_next {rounds cursor following : Nat} {page : Page} {rest : List Page}
    (served : refuses host.sent.length = false) (pages : host.pages = page :: rest)
    (told : cursor? page.cursor = some following) (more : following ≠ 0) :
    scan (Host.exchange now refuses) pattern (rounds + 1) cursor host =
      (do return page.keys ++ (← scan (Host.exchange now refuses) pattern rounds following))
        { host.note (.scan cursor pattern) with pages := rest } := by
  obtain ⟨n, rfl⟩ := Nat.exists_eq_succ_of_ne_zero more
  refine (bind_some (exchange_served served)).trans ?_
  simp only [Host.perform, Host.note, pages, told]

theorem scan_served {rounds cursor : Nat} {cursors : List Nat} (turns : Turns host.pages cursors)
    (enough : host.pages.length ≤ rounds)
    (served : ∀ i < host.pages.length, refuses (host.sent.length + i) = false) :
    scan (Host.exchange now refuses) pattern rounds cursor host =
      (some (host.pages.flatMap (·.keys)),
        { host with
          pages := []
          sent := host.sent ++ (cursor :: cursors).map (.scan · pattern) }) := by
  induction cursors generalizing host rounds cursor with
  | nil =>
    obtain ⟨page, pages, told⟩ := turns.last
    obtain ⟨rounds, rfl⟩ : ∃ n, rounds = n + 1 := ⟨rounds - 1, by simp [pages] at enough; omega⟩
    rw [scan_last (served 0 (by simp [pages])) pages told]
    simp [pages, Host.note]
  | cons following cursors ih =>
    obtain ⟨page, rest, pages, told, more, turns⟩ := turns.next
    obtain ⟨rounds, rfl⟩ : ∃ n, rounds = n + 1 := ⟨rounds - 1, by simp [pages] at enough; omega⟩
    rw [pages, List.length_cons] at enough served
    let turned : Host := { host.note (.scan cursor pattern) with pages := rest }
    have later : ∀ i < rest.length, refuses (turned.sent.length + i) = false := by
      intro i less
      have passed := served (i + 1) (by omega)
      have place : turned.sent.length + i = host.sent.length + (i + 1) := by
        simp only [turned, Host.note, List.length_append, List.length_singleton]
        omega
      rwa [place]
    have rest : scan (Host.exchange now refuses) pattern rounds following turned = _ :=
      ih turns (by simpa using enough) later
    rw [scan_next (served 0 (by omega)) pages told more, bind_some rest]
    simp [turned, pages, Host.note, pure_some]

theorem scan_stopped {rounds cursor n : Nat} {cursors : List Nat} (turns : Turns host.pages cursors)
    (enough : host.pages.length ≤ rounds) (bound : n < host.pages.length)
    (first : RefusesFirst refuses host.sent.length n) :
    scan (Host.exchange now refuses) pattern rounds cursor host =
      (none,
        { host with
          pages := host.pages.drop n
          sent := host.sent ++ ((cursor :: cursors).map (.scan · pattern)).take (n + 1) }) := by
  induction n generalizing host rounds cursor cursors with
  | zero =>
    obtain ⟨rounds, rfl⟩ : ∃ n, rounds = n + 1 := ⟨rounds - 1, by omega⟩
    rw [scan_refused first.1]
    simp [Host.note]
  | succ n ih =>
    obtain ⟨rounds, rfl⟩ : ∃ n, rounds = n + 1 := ⟨rounds - 1, by omega⟩
    obtain ⟨served, first⟩ := first.succ
    cases cursors with
    | nil =>
      obtain ⟨page, pages, -⟩ := turns.last
      simp [pages] at bound
    | cons following cursors =>
      obtain ⟨page, rest, pages, told, more, turns⟩ := turns.next
      rw [pages, List.length_cons] at enough bound
      let turned : Host := { host.note (.scan cursor pattern) with pages := rest }
      have first : RefusesFirst refuses turned.sent.length n := by
        simpa [turned, Host.note] using first
      have rest : scan (Host.exchange now refuses) pattern rounds following turned = _ :=
        ih turns (by simpa using enough) (by simpa using bound) first
      rw [scan_next served pages told more, bind_none rest]
      simp [turned, pages, Host.note]

namespace Host

theorem eraseEach_append (now : Nat) (keys others : List String) (entries : Entries) :
    eraseEach now (keys ++ others) entries =
      ((eraseEach now keys entries).1 + (eraseEach now others (eraseEach now keys entries).2).1,
        (eraseEach now others (eraseEach now keys entries).2).2) := by
  induction keys generalizing entries with
  | nil => simp [eraseEach]
  | cons key keys ih =>
    simp only [List.cons_append, eraseEach, ih]
    split <;> simp only [Nat.add_right_comm]

theorem eraseEach_entries (now : Nat) (keys : List String) (entries : Entries) :
    (eraseEach now keys entries).2 = entries.keep (· ∉ keys) := by
  induction keys generalizing entries with
  | nil => simp [eraseEach, Entries.keep]
  | cons key keys ih =>
    simp only [eraseEach, ih, Entries.erase, Entries.keep, List.filter_filter, List.mem_cons,
      not_or, Bool.decide_and, Bool.and_comm]

theorem has_erase {other : String} (differ : other ≠ key) (entries : Entries) :
    has now (entries.erase key) other = has now entries other := by
  simp only [has, Entries.find?, Entries.get?_erase_of_ne differ]

theorem eraseEach_count {entries : Entries} (distinct : keys.Nodup)
    (there : ∀ key ∈ keys, has now entries key = true) :
    (eraseEach now keys entries).1 = keys.length := by
  induction keys generalizing entries with
  | nil => rfl
  | cons key keys ih =>
    obtain ⟨absent, distinct⟩ := List.nodup_cons.mp distinct
    have rest : ∀ other ∈ keys, has now (entries.erase key) other = true := by
      intro other later
      have differ : other ≠ key := fun same => absent (same ▸ later)
      rw [has_erase differ]
      exact there other (List.mem_cons_of_mem _ later)
    simp only [eraseEach, there key List.mem_cons_self, if_true, ih distinct rest,
      List.length_cons]

end Host

theorem eraseAll_next {chunks : List (List String)} (served : refuses host.sent.length = false) :
    eraseAll (Host.exchange now refuses) (keys :: chunks) host =
      (do return (Host.eraseEach now keys host.entries).1 +
          (← eraseAll (Host.exchange now refuses) chunks))
        { host.note (.delete keys) with
          entries := (Host.eraseEach now keys host.entries).2 } :=
  bind_some (exchange_served served)

theorem eraseAll_served {chunks : List (List String)}
    (served : ∀ i < chunks.length, refuses (host.sent.length + i) = false) :
    eraseAll (Host.exchange now refuses) chunks host =
      (some (Host.eraseEach now chunks.flatten host.entries).1,
        { host with
          entries := (Host.eraseEach now chunks.flatten host.entries).2
          sent := host.sent ++ chunks.map .delete }) := by
  induction chunks generalizing host with
  | nil => simp [eraseAll, Host.eraseEach, pure_some]
  | cons keys chunks ih =>
    rw [List.length_cons] at served
    let erased : Host :=
      { host.note (.delete keys) with entries := (Host.eraseEach now keys host.entries).2 }
    have later : ∀ i < chunks.length, refuses (erased.sent.length + i) = false := by
      intro i less
      have passed := served (i + 1) (by omega)
      have place : erased.sent.length + i = host.sent.length + (i + 1) := by
        simp only [erased, Host.note, List.length_append, List.length_singleton]
        omega
      rwa [place]
    have rest : eraseAll (Host.exchange now refuses) chunks erased = _ := ih later
    rw [eraseAll_next (served 0 (by omega)), bind_some rest]
    simp [erased, Host.note, Host.eraseEach_append, pure_some]

theorem eraseAll_stopped {chunks : List (List String)} {n : Nat} (bound : n < chunks.length)
    (first : RefusesFirst refuses host.sent.length n) :
    eraseAll (Host.exchange now refuses) chunks host =
      (none,
        { host with
          entries := (Host.eraseEach now (chunks.take n).flatten host.entries).2
          sent := host.sent ++ (chunks.take (n + 1)).map .delete }) := by
  induction n generalizing host chunks with
  | zero =>
    obtain ⟨keys, chunks, rfl⟩ := List.exists_cons_of_length_pos bound
    refine (bind_none (exchange_refused first.1)).trans ?_
    simp [Host.note, Host.eraseEach]
  | succ n ih =>
    obtain ⟨keys, chunks, rfl⟩ := List.exists_cons_of_length_pos (Nat.zero_lt_of_lt bound)
    obtain ⟨served, first⟩ := first.succ
    let erased : Host :=
      { host.note (.delete keys) with entries := (Host.eraseEach now keys host.entries).2 }
    have first : RefusesFirst refuses erased.sent.length n := by
      simpa [erased, Host.note] using first
    have rest : eraseAll (Host.exchange now refuses) chunks erased = _ :=
      ih (by simpa using bound) first
    rw [eraseAll_next served, bind_none rest]
    simp [erased, Host.note, Host.eraseEach_append]

def Sought (entries : Entries) (now : Nat) (start key : String) : Prop :=
  startsWith start key = true ∧ (entries.find? now key).isSome = true

theorem mem_of_get? {entries : Entries} {entry : Entry} (there : entries.get? key = some entry) :
    (key, entry) ∈ entries.toList := by
  obtain ⟨before, after, spelled, -⟩ := List.lookup_eq_some_iff.mp there
  rw [spelled]
  exact List.mem_append_right _ List.mem_cons_self

theorem find?_isSome_iff {entries : Entries} :
    (entries.find? now key).isSome = true ↔
      ∃ entry, (key, entry) ∈ entries.toList ∧ entry.isLive now = true := by
  constructor
  · intro found
    obtain ⟨text, found⟩ := Option.isSome_iff_exists.mp found
    obtain ⟨entry, there, live, -⟩ := Entries.live_of_find? found
    exact ⟨entry, mem_of_get? there, live⟩
  · rintro ⟨entry, there, live⟩
    exact Option.isSome_iff_exists.mpr ⟨_, Entries.find?_of_live (Entries.get?_of_mem there) live⟩

theorem Portions.nodup {named : String → Prop} {chunks : List (List String)}
    (portions : Portions named chunks) : chunks.flatten.Nodup :=
  portions.ascending.imp fun {a b} less (same : a = b) => List.lt_irrefl _ (same ▸ less)

theorem countPrefix_of_portions {entries : Entries} {chunks : List (List String)}
    (portions : Portions (Sought entries now start) chunks) :
    entries.countPrefix now start = chunks.flatten.length := by
  let counted := entries.toList.filter fun pair =>
    startsWith start pair.1 && pair.2.isLive now
  have distinct : (counted.map (·.1)).Nodup :=
    entries.distinct.sublist (List.filter_sublist.map _)
  have same : (counted.map (·.1)).Perm chunks.flatten := by
    refine (List.perm_ext_iff_of_nodup distinct portions.nodup).mpr fun key => ?_
    rw [portions.exact, Sought, find?_isSome_iff]
    simp [counted, and_left_comm]
  rw [← same.length_eq, List.length_map]
  rfl

theorem live_keep_of_portions {entries : Entries} {chunks : List (List String)} {later : Nat}
    (portions : Portions (Sought entries now start) chunks) (order : now ≤ later) :
    (entries.keep (· ∉ chunks.flatten)).live later = (entries.erasePrefix start).live later := by
  simp only [Entries.live, Entries.keep, Entries.erasePrefix, List.filter_filter]
  congr 1
  refine List.filter_congr fun pair there => ?_
  cases live : pair.2.isLive later with
  | false => rfl
  | true =>
    have found : (entries.find? now pair.1).isSome = true :=
      find?_isSome_iff.mpr ⟨pair.2, there, Entries.isLive_of_le order live⟩
    have named := portions.exact pair.1
    simp only [Sought, found, and_true] at named
    simp only [Bool.true_and, named, decide_not, Bool.decide_eq_true]

/-- Erasing the keys with a start asks for every page, by the cursor that the page before it named,
and then names the keys that can be found, each once, in ascending order of their bytes and at most
200 at a time. If no command is refused, the count and what is left are those of entries in memory.
If one is refused, it is the last that is sent, and the keys of the commands before it are gone. -/
theorem erasePrefix_exact {rounds : Nat} {cursors : List Nat} (fresh : host.sent = [])
    (turns : Turns host.pages cursors)
    (complete : ∀ key, (∃ page ∈ host.pages, key ∈ page.keys) ↔
      Sought host.entries now start key) (enough : host.pages.length ≤ rounds) :
    ∃ chunks, Portions (Sought host.entries now start) chunks ∧
      ∀ refuses result after,
        erasePrefix (Host.exchange now refuses) rounds start host = (result, after) →
        let scans := (0 :: cursors).map (Command.scan · (Glob.startingWith start))
        let deletes := chunks.map Command.delete
        let memory := host.entries.serve now (.erasePrefix start)
        ((∀ i < scans.length + deletes.length, refuses i = false) →
          result = some memory.1 ∧ after.sent = scans ++ deletes ∧
          ∀ later, now ≤ later → after.entries.live later = memory.2.live later) ∧
        (∀ n < scans.length, RefusesFirst refuses 0 n →
          result = none ∧ after.sent = scans.take (n + 1) ∧ after.entries = host.entries) ∧
        ∀ n < deletes.length, RefusesFirst refuses 0 (scans.length + n) →
          result = none ∧ after.sent = scans ++ deletes.take (n + 1) ∧
          after.entries = host.entries.keep (· ∉ (chunks.take n).flatten) := by
  let keys := host.pages.flatMap (·.keys)
  let named := dropRepeats (keys.mergeSort fun a b => !decide (b < a))
  let chunks := pieces batch named.length named
  have whole : Portions (Sought host.entries now start) chunks := by
    obtain ⟨ascending, exact, sizes⟩ := portions keys
    refine ⟨ascending, fun key => (exact key).trans ?_, sizes⟩
    rw [← complete key, List.mem_flatMap]
  refine ⟨chunks, whole, ?_⟩
  intro refuses result after ran scans deletes memory
  have pageCount : host.pages.length = scans.length := by
    simpa [scans] using congrArg List.length turns.1
  have chunkCount : deletes.length = chunks.length := List.length_map _
  -- Once every page was asked for, the call goes on as its deletions do.
  have erases : (∀ i < scans.length, refuses i = false) →
      eraseAll (Host.exchange now refuses) chunks { host with pages := [], sent := scans } =
        (result, after) := by
    intro served
    rw [← ran]
    refine ((bind_some (scan_served turns enough ?_)).trans ?_).symm
    · intro i bound
      simpa [fresh] using served i (pageCount ▸ bound)
    · rw [fresh]
      rfl
  refine ⟨fun served => ?_, fun n bound first => ?_, fun n bound first => ?_⟩
  · have granted : ∀ i < chunks.length, refuses (scans.length + i) = false :=
      fun i bound => served _ (by omega)
    have ended := (erases fun i bound => served i (by omega)).symm.trans (eraseAll_served granted)
    obtain ⟨rfl, rfl⟩ := Prod.mk.inj ended
    have there : ∀ key ∈ chunks.flatten, Host.has now host.entries key = true :=
      fun key there => ((whole.exact key).mp there).2
    refine ⟨?_, rfl, fun later order => ?_⟩
    · rw [Host.eraseEach_count whole.nodup there, ← countPrefix_of_portions whole]
      rfl
    · rw [Host.eraseEach_entries]
      exact live_keep_of_portions whole order
  · have first : RefusesFirst refuses host.sent.length n := by simpa [fresh] using first
    have ended := ran.symm.trans (bind_none (scan_stopped turns enough (pageCount ▸ bound) first))
    obtain ⟨rfl, rfl⟩ := Prod.mk.inj ended
    exact ⟨rfl, by simp [fresh, scans], rfl⟩
  · obtain ⟨refused, before⟩ := first
    simp only [Nat.zero_add] at refused before
    have served : ∀ i < scans.length, refuses i = false := fun i bound => before i (by omega)
    have first : RefusesFirst refuses scans.length n :=
      ⟨refused, fun i less => before _ (by omega)⟩
    have ended := (erases served).symm.trans (eraseAll_stopped (chunkCount ▸ bound) first)
    obtain ⟨rfl, rfl⟩ := Prod.mk.inj ended
    refine ⟨rfl, by simp [deletes], ?_⟩
    rw [Host.eraseEach_entries]

/-- Three pages, one of them empty, name one of two keys twice. -/
theorem erasePrefix_exact_of_repeats :
    let entries : Entries :=
      ⟨[("a:2", ⟨"x", none⟩), ("b:1", ⟨"y", none⟩), ("a:1", ⟨"z", none⟩)], by decide⟩
    let pages : List Page := [⟨"7", ["a:2"]⟩, ⟨"9", []⟩, ⟨"0", ["a:1", "a:2"]⟩]
    let (result, after) :=
      erasePrefix (Host.exchange 0 fun _ => false) 3 "a:" ⟨entries, pages, []⟩
    result = some 2 ∧ after.entries.live 0 = [("b:1", "y")] ∧
      ∃ chunks, Portions (Sought entries 0 "a:") chunks ∧
        after.sent = [.scan 0 "a:*", .scan 7 "a:*", .scan 9 "a:*"] ++ chunks.map .delete := by
  intro entries pages
  have turns : Turns pages [7, 9] := by
    simp only [Turns]
    decide
  have complete : ∀ key, (∃ page ∈ pages, key ∈ page.keys) ↔ Sought entries 0 "a:" key := by
    intro key
    simp only [Sought, find?_isSome_iff, pages, entries, List.mem_cons, List.not_mem_nil, or_false,
      Prod.mk.injEq]
    constructor
    · rintro ⟨page, rfl | rfl | rfl, named⟩ <;> simp at named
      · exact ⟨by rw [named]; decide, _, .inl ⟨named, rfl⟩, rfl⟩
      · rcases named with rfl | rfl
        · exact ⟨by decide, _, .inr (.inr ⟨rfl, rfl⟩), rfl⟩
        · exact ⟨by decide, _, .inl ⟨rfl, rfl⟩, rfl⟩
    · rintro ⟨starts, entry, ⟨rfl, -⟩ | ⟨rfl, -⟩ | ⟨rfl, -⟩, -⟩
      · exact ⟨_, .inl rfl, by decide⟩
      · exact absurd starts (by decide)
      · exact ⟨_, .inr (.inr rfl), by decide⟩
  let host : Host := ⟨entries, pages, []⟩
  have fresh : host.sent = [] := rfl
  obtain ⟨chunks, portions, all⟩ := erasePrefix_exact fresh turns complete (Nat.le_refl 3)
  obtain ⟨counted, sent, left⟩ := (all (fun _ => false) _ _ rfl).1 fun _ _ => rfl
  exact ⟨counted, left 0 le_rfl, chunks, portions, sent⟩

end Redis

end CacheAside
