import Scour.Faultless

/-!
# A committed removal

A flush with nothing staged leaves the rows no removed path covers exactly when every row *at* a
removed path is one its two halves find (`flush_removes`): where the segment knows no directory of
that path the source must be one the index has learned, and where it does the path must not sit
directly under the root, whose children's own rows the scan asks for under an empty parent.
-/

namespace Scour

/-- Does a removed directory above it take the row? -/
def removedAbove (prefixes : PrefixSet) (e : Entry) : Bool :=
  prefixes.paths.any fun q => q ≠ e.path.bytes && under e.path.bytes q

/-- Is a row at a removed path one the flush finds? -/
def found (seg : Segment) (sources : List SourceId) (prefixes : PrefixSet) (e : Entry) : Bool :=
  removedAbove prefixes e ||
    if Live.isLeaf seg sources e.path.bytes then sources.contains e.source
    else !rootChild e.path.bytes

namespace Live

/-- A segment knows the directory of every row it holds. -/
theorem not_isLeaf_above {l : Live} (hl : l.Ok) {e : Entry} (he : e ∈ l.entries)
    (sources : List SourceId) {q : Str} (hq : trimEnd q = q) (hu : under e.path.bytes q = true)
    (hne : q ≠ e.path.bytes) : isLeaf l.seg sources q = false := by
  rw [Bool.eq_false_iff]
  intro hleaf
  obtain ⟨-, hq0, hempty⟩ := isLeaf_trimmed hleaf
  rw [hq] at hq0
  obtain ⟨row, -, hrow⟩ := (mem_entries_iff l hl e).mp he
  obtain ⟨es, hseg, -⟩ := hl
  rw [hseg, buildSorted_entry_eq] at hrow
  have hdir := buildSorted_dirId hrow
  have hbelow : Below e.path.bytes q := by
    rw [under_iff, hq] at hu
    rcases hu with h | h | h
    · exact absurd h hq0
    · exact absurd h.symm hne
    · exact h
  have hin := (DirTable.subtree_contains_iff _ (buildSorted_dirs_sorted es) q _ _ hdir).mpr
    (by rw [hq]; exact (below_iff_dir e.path q hq0 hq).mp hbelow)
  rw [hseg] at hempty
  rw [DirScope.not_contains_of_isEmpty _ hempty] at hin
  cases hin

/-- Of the rows the removals cover, the flush misses some of those at a removed path. -/
theorem reached_iff_found {l : Live} (hl : l.Ok) {e : Entry} (he : e ∈ l.entries)
    (sources : List SourceId) (prefixes : PrefixSet)
    (hc : prefixes.covers e.path.bytes = true) :
    reached l.seg sources prefixes e = true ↔
      (e.path.bytes ∈ prefixes.paths → found l.seg sources prefixes e = true) := by
  -- a directory above the row takes it
  have habove : ∀ q ∈ prefixes.paths, under e.path.bytes q = true → q ≠ e.path.bytes →
      reached l.seg sources prefixes e = true := by
    intro q hq hu hne
    refine List.any_eq_true.mpr ⟨q, hq, ?_⟩
    rw [not_isLeaf_above hl he sources (prefixes.trimmed q hq) hu hne]
    simp [hits, hu, Ne.symm hne]
  have hself : e.path.bytes ∈ prefixes.paths → under e.path.bytes e.path.bytes = true := fun hm => by
    have := under_self e.path.bytes
    rwa [prefixes.trimmed _ hm] at this
  constructor
  · intro hr hm
    obtain ⟨q, hq, h⟩ := List.any_eq_true.mp hr
    unfold found
    by_cases hqe : q = e.path.bytes
    · subst hqe
      rw [Bool.or_eq_true]
      refine Or.inr ?_
      cases hleaf : isLeaf l.seg sources e.path.bytes with
      | true => simpa [hleaf] using h
      | false => simpa [hleaf, hits, hself hm] using h
    · have hu : under e.path.bytes q = true := by
        split at h
        · simp only [Bool.and_eq_true, beq_iff_eq] at h
          exact absurd h.1.symm hqe
        · exact hits_under h
      have : removedAbove prefixes e = true := List.any_eq_true.mpr ⟨q, hq, by simp [hqe, hu]⟩
      rw [this, Bool.true_or]
  · intro hf
    obtain ⟨q, hq, hu⟩ := (PrefixSet.covers_iff _ _).mp hc
    by_cases hqe : q = e.path.bytes
    · subst hqe
      have hf := hf hq
      unfold found at hf
      rcases Bool.or_eq_true_iff.mp hf with hf | hf
      · obtain ⟨p, hp, hpu⟩ := List.any_eq_true.mp hf
        simp only [ne_eq, decide_not, Bool.and_eq_true, Bool.not_eq_true',
          decide_eq_false_iff_not] at hpu
        exact habove p hp hpu.2 hpu.1
      · refine List.any_eq_true.mpr ⟨_, hq, ?_⟩
        cases hleaf : isLeaf l.seg sources e.path.bytes with
        | true => simpa [hleaf] using hf
        | false => simpa [hleaf, hits, hu] using hf
    · exact habove q hq hu hqe

end Live

namespace World

/-- Builds that landed well move nothing but the list. -/
theorem collectFrom_waits (rest : List Landed) : ∀ (w : World) (added : Bool),
    w.disk.faults = [] → failedRows rest = [] →
      let w' := (w.collectFrom added false rest).world
      w.Waits w' ∧ w'.inner.sources = w.inner.sources := by
  induction rest with
  | nil =>
    intro w added _ _
    unfold collectFrom collected
    simp only [Bool.false_eq_true, if_false]
    split
    · have hs := saveMeta_same { w with inner := { w.inner with
        segments := Inner.sortSegments w.inner.segments } }
      unfold Search.Outcome.bind
      split <;> exact ⟨⟨hs.staged, hs.stagedAt, hs.hidden, hs.opened⟩, hs.sources⟩
    · exact ⟨⟨rfl, rfl, rfl, rfl⟩, rfl⟩
  | cons d rest ih =>
    intro w added h hrest
    cases d with
    | failed number rows => simp [failedRows] at hrest
    | built number live =>
      have hrest : failedRows rest = [] := by
        unfold failedRows at hrest ⊢
        simpa using hrest
      unfold collectFrom
      simp only
      generalize arrive _ live = arrived
      generalize (w.building.flights.find? (·.number = number)).any
        (fun f => !f.doomed.isEmpty || !f.gone.isEmpty) = late
      have hdisk : (if late = true then w.disk.writeAlive number arrived.alive
          else (w.disk, true)).2 = true ∧
            (if late = true then w.disk.writeAlive number arrived.alive
              else (w.disk, true)).1.faults = [] := by
        cases late with
        | true => exact Disk.writeAlive_ok h number arrived.alive
        | false => exact ⟨rfl, h⟩
      rw [if_neg (by simp [hdisk.1])]
      obtain ⟨h1, h2⟩ := ih { w with
        disk := (if late = true then w.disk.writeAlive number arrived.alive
          else (w.disk, true)).1
        building := { w.building with flights := w.building.flights.filter (·.number ≠ number) }
        inner := { w.inner with
          nextSegment := max w.inner.nextSegment (number + 1)
          segments := w.inner.segments ++ [arrived]
          metaDirty := true } } true hdisk.2 hrest
      exact ⟨⟨h1.staged, h1.stagedAt, h1.hidden, h1.opened⟩, h2⟩

theorem collect_waits {w : World} (hf : w.Unfailing) :
    w.Waits w.collect.world ∧ w.collect.world.inner.sources = w.inner.sources := by
  unfold collect
  simp only
  split
  · exact ⟨⟨rfl, rfl, rfl, rfl⟩, rfl⟩
  · obtain ⟨h1, h2⟩ := collectFrom_waits w.building.landed
      { w with building := { w.building with landed := [] } } false hf.faults hf.landed
    exact ⟨⟨h1.staged, h1.stagedAt, h1.hidden, h1.opened⟩, h2⟩

/-- What a flush of removals leaves, and that it has nothing to write. -/
theorem flushStaged_removes {w : World} {hands : List Hand} (h : w.Ok hands)
    (hs : w.inner.staged = []) (durable : Bool) :
    (w.flushStaged false durable).Then fun w' p => p.staged = none ∧
      w'.liveRows = w.inner.segments.flatMap fun l =>
        l.entries.filter fun e => !reached l.seg w.inner.sources w.inner.hiddenPrefixes e := by
  unfold flushStaged
  split
  · rename_i hnone
    simp only [Bool.and_eq_true, PrefixSet.isEmpty_iff] at hnone
    have hrows : w.liveRows = w.inner.segments.flatMap fun l =>
        l.entries.filter fun e => !reached l.seg w.inner.sources w.inner.hiddenPrefixes e := by
      simp [liveRows, reached, hnone.1.2]
    split
    · refine Search.Outcome.Then.bind fun _ _ => (Search.Outcome.then_ok _ _ _).mpr ⟨rfl, ?_⟩
      unfold liveRows
      rw [(saveMeta_same w).segments]
      exact hrows
    · exact (Search.Outcome.then_ok _ _ _).mpr ⟨rfl, hrows⟩
  · obtain ⟨hok, hlive, -, hstaged⟩ := killHidden_spec h
    have hk : w.killHidden.1.inner.staged = [] := by rw [hstaged, hs, List.filter_nil]
    simp only
    generalize w.killHidden.1 = k at *
    generalize w.killHidden.2 = touched
    have hspare : k.inner.spareUnchanged = k.inner := by
      unfold Inner.spareUnchanged
      simp [hk]
    obtain ⟨-, hrows, -⟩ := killReplaced_spec hok
    have hkept : k.killReplaced.1.liveRows = k.liveRows := by
      rw [hrows, hk]
      simp [wantedOf, Live.isWanted]
    rw [hspare]
    refine fun p hp => ?_
    obtain ⟨hsame, hp, -⟩ := flushTake_then p hp
    have hst := k.killReplaced.1.inner.liftOut_staged false durable (touched ++ k.killReplaced.2)
    have hre := k.killReplaced.1.inner.liftOut_rest false durable (touched ++ k.killReplaced.2)
    refine ⟨?_, ?_⟩
    · rcases hst with ⟨-, -, h3, -⟩ | ⟨-, -, -, h4⟩
      · exact hp.trans h3
      · exact absurd hk h4
    · rw [← hlive, ← hkept]
      unfold liveRows
      rw [hsame.segments]
      simp only [hre.1]
      exact Inner.rows_filter_empty _

theorem commitAlive_inner (w : World) (p : Pending) :
    (w.commitAlive p).Then fun w' _ => w'.inner = w.inner := by
  unfold commitAlive
  simp only
  split
  · exact (Search.Outcome.then_ok _ _ _).mpr rfl
  · exact Search.Outcome.then_err _ _

/-- A flush with nothing staged leaves the rows no removed path covers, just when every row at a
removed path is one it finds. -/
theorem flush_removes {w : World} (h : w.Ok []) (hf : w.Unfailing) (hs : w.inner.staged = []) :
    let c := w.collect.world
    let r := w.flush
    r.val = some () ∧
      (r.world.liveRows =
          c.liveRows.filter (fun e => !w.inner.hiddenPrefixes.covers e.path.bytes) ↔
        ∀ l ∈ c.inner.segments, ∀ e ∈ l.entries, e.path.bytes ∈ w.inner.hiddenPrefixes.paths →
          found l.seg w.inner.sources w.inner.hiddenPrefixes e = true) := by
  have hsound : w.Sound .loosely ∅ [] :=
    ⟨h, False.elim, False.elim, False.elim, False.elim, False.elim⟩
  have hok := (collect_sound hsound ⟨False.elim, False.elim, False.elim⟩).toOk
  obtain ⟨hw, hsources⟩ := collect_waits hf
  obtain ⟨u, hu, hcf⟩ := (collect_returns hf).returns
  obtain ⟨p, hp, hpf⟩ := (flushStaged_returns hcf false true).returns
  obtain ⟨hnone, hrows⟩ := flushStaged_removes hok (hw.staged.trans hs) true p hp
  obtain ⟨a, ha, -⟩ := (commitAlive_returns hpf p).returns
  have hinner := commitAlive_inner _ p a ha
  have hflush : w.flush = .ok ((w.collect.world.flushStaged false true).world.commitAlive p).world
      () := by
    unfold flush
    rw [flushMaybeElsewhere_eq]
    unfold flushPrepare
    simp only [Search.Outcome.bind, hu, hp, ha, hnone]
  intro c r
  have hr : r = .ok _ () := hflush
  have hlive : r.world.liveRows = c.inner.segments.flatMap fun l => l.entries.filter fun e =>
      !reached l.seg w.inner.sources w.inner.hiddenPrefixes e := by
    rw [hr, ← hsources, ← hw.hidden, ← hrows]
    unfold liveRows
    simp only [Search.Outcome.ok, hinner]
  refine ⟨by rw [hr]; rfl, ?_⟩
  rw [hlive]
  unfold liveRows
  rw [List.filter_flatMap]
  constructor
  · intro heq l hl e he hm
    by_contra hnot
    -- a row that is covered and missed is on the left and not on the right
    have hc := PrefixSet.covers_of_mem hm
    have hmiss : reached l.seg w.inner.sources w.inner.hiddenPrefixes e = false := by
      rw [Bool.eq_false_iff]
      exact fun hr => hnot ((Live.reached_iff_found (hok.segments l hl) he _ _ hc).mp hr hm)
    have hin : e ∈ c.inner.segments.flatMap fun l => l.entries.filter fun e =>
        !reached l.seg w.inner.sources w.inner.hiddenPrefixes e :=
      List.mem_flatMap.mpr ⟨l, hl, List.mem_filter.mpr ⟨he, by rw [hmiss]; rfl⟩⟩
    rw [heq] at hin
    obtain ⟨l', -, hin⟩ := List.mem_flatMap.mp hin
    have := (List.mem_filter.mp hin).2
    rw [hc] at this
    cases this
  · intro hall
    refine List.flatMap_congr fun l hl => List.filter_congr fun e he => ?_
    have heq : reached l.seg w.inner.sources w.inner.hiddenPrefixes e =
        w.inner.hiddenPrefixes.covers e.path.bytes := by
      cases hc : w.inner.hiddenPrefixes.covers e.path.bytes with
      | true => exact (Live.reached_iff_found (hok.segments l hl) he _ _ hc).mpr (hall l hl e he)
      | false =>
        rw [Bool.eq_false_iff]
        intro hr
        rw [reached_covers hr] at hc
        cases hc
    rw [heq]

/-- One file of a directory is removed. -/
theorem flush_removes_file :
    let w := (empty []).run [.apply [.upsert (.file "/d/x"), .upsert (.file "/d/y")], .commit,
      .apply [.removeSubtree (.of "/d/x")]]
    let c := w.collect.world
    let r := w.flush
    r.val = some () ∧
      (r.world.liveRows =
          c.liveRows.filter (fun e => !w.inner.hiddenPrefixes.covers e.path.bytes) ↔
        ∀ l ∈ c.inner.segments, ∀ e ∈ l.entries, e.path.bytes ∈ w.inner.hiddenPrefixes.paths →
          found l.seg w.inner.sources w.inner.hiddenPrefixes e = true) :=
  flush_removes (run_ok [] _) ⟨by decide +kernel, by decide +kernel⟩ (by decide +kernel)

/-- A directory directly under the root, removed with what it holds: its own row stays. -/
theorem not_flush_removes :
    let w := (empty []).run [.apply [.upsert (.file "/d"), .upsert (.file "/d/f")], .commit,
      .apply [.removeSubtree (.of "/d")]]
    ¬ w.flush.world.liveRows =
      w.collect.world.liveRows.filter fun e => !w.inner.hiddenPrefixes.covers e.path.bytes := by
  decide +kernel

end World

end Scour
