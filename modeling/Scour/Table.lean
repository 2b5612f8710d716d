import Scour.Faultless

/-!
# The index is the table of what was applied to it

Outside a generation and without a fault, a run of `apply`, `publish` and `commit` that ends with a
commit leaves the rows that the same changes leave in a table keyed by source and path
(`run_table`), as long as every change and every flush is one the write path gets right
(`tableGuards`).
-/

namespace Scour

namespace World

/-- The table an index stands for, what is staged and pending included. -/
def table (w : World) : Set Entry := (w.buffer []).view Entry.key

/-- With nothing waiting the table is what a search reads. -/
theorem mem_table_of_idle {w : World} (h : w.Idle) (e : Entry) : e ∈ w.table ↔ e ∈ w.liveRows := by
  have hair : w.building.airRows = [] := by simp [Building.airRows, h.jobs, h.landed]
  simp [table, Search.Buffered.view, buffer, rows, hair, h.staged, covers_nil h.hidden]

/-- An upsert the buffer gets right.  No other staged path shares its digest or its slot, no pending
removal but its own covers it, and forgetting that one uncovers nothing else. -/
structure Fits (w : World) (e : Entry) : Prop where
  digest : ∀ s ∈ w.inner.staged, s.digest = e.digest → s.key = e.key
  slot : ∀ s ∈ w.inner.stagedAt e.digest >>= fun i => w.inner.staged[i]?,
    s.path = e.path → s.source = e.source
  kept : (w.inner.hiddenPrefixes.forget e.path.bytes).covers e.path.bytes = false
  others : ∀ x ∈ w.inner.staged ++ w.rows, x.key ≠ e.key →
    (w.inner.hiddenPrefixes.forget e.path.bytes).covers x.path.bytes =
      w.inner.hiddenPrefixes.covers x.path.bytes

/-- A flush that finds every row the removals cover, and keeps a full buffer only whole. -/
structure Reaches (w : World) (discretionary : Bool) : Prop where
  full : discretionary = true →
    (w.inner.staged.filter fun e => !w.inner.hiddenPrefixes.covers e.path.bytes).length < MAX_STAGED →
      ∀ e ∈ w.inner.staged, w.inner.hiddenPrefixes.covers e.path.bytes = false
  live : ∀ l ∈ w.inner.segments, ∀ e ∈ l.entries,
    w.inner.hiddenPrefixes.covers e.path.bytes = true →
      reached l.seg w.inner.sources w.inner.hiddenPrefixes e = true
  air : ∀ e ∈ w.building.airRows, w.inner.hiddenPrefixes.covers e.path.bytes = true →
    scanned w.inner.hiddenPrefixes e = true

/-- What is asked of a run. -/
def tableGuards : Guards where
  stage := Fits
  collect _ := True
  flush discretionary w := Reaches w discretionary
  spawn _ _ := True

instance (w : World) (e : Entry) : Decidable (w.Fits e) :=
  decidable_of_iff ((∀ s ∈ w.inner.staged, s.digest = e.digest → s.key = e.key) ∧
      (∀ s ∈ w.inner.stagedAt e.digest >>= fun i => w.inner.staged[i]?,
        s.path = e.path → s.source = e.source) ∧
      (w.inner.hiddenPrefixes.forget e.path.bytes).covers e.path.bytes = false ∧
      ∀ x ∈ w.inner.staged ++ w.rows, x.key ≠ e.key →
        (w.inner.hiddenPrefixes.forget e.path.bytes).covers x.path.bytes =
          w.inner.hiddenPrefixes.covers x.path.bytes)
    ⟨fun ⟨h1, h2, h3, h4⟩ => ⟨h1, h2, h3, h4⟩, fun ⟨h1, h2, h3, h4⟩ => ⟨h1, h2, h3, h4⟩⟩

instance (w : World) (d : Bool) : Decidable (w.Reaches d) :=
  decidable_of_iff ((d = true →
      (w.inner.staged.filter fun e => !w.inner.hiddenPrefixes.covers e.path.bytes).length <
        MAX_STAGED → ∀ e ∈ w.inner.staged, w.inner.hiddenPrefixes.covers e.path.bytes = false) ∧
      (∀ l ∈ w.inner.segments, ∀ e ∈ l.entries, w.inner.hiddenPrefixes.covers e.path.bytes = true →
        reached l.seg w.inner.sources w.inner.hiddenPrefixes e = true) ∧
      ∀ e ∈ w.building.airRows, w.inner.hiddenPrefixes.covers e.path.bytes = true →
        scanned w.inner.hiddenPrefixes e = true)
    ⟨fun ⟨h1, h2, h3⟩ => ⟨h1, h2, h3⟩, fun ⟨h1, h2, h3⟩ => ⟨h1, h2, h3⟩⟩

instance : tableGuards.Computes where
  stage w e := inferInstanceAs (Decidable (w.Fits e))
  collect _ := .isTrue trivial
  flush d w := inferInstanceAs (Decidable (w.Reaches d))
  spawn _ _ := .isTrue trivial

/-- Without a fault, every step of the write path does to the table what its change says. -/
theorem tableKeeper (table : Set Entry) : Keeper tableGuards
    (fun cs w held => Stands .fully table [] cs w held ∧ w.Unfailing) fun _ _ => False := by
  refine ((soundKeeper .fully table []).unfailing fun h => h.sound.segments).weaken
    (fun {cs w e} h hg => ?_) (fun {cs w} h _ => ?_) (fun {cs w d} h hg => ?_)
    fun {cs w p} h _ _ _ _ => ?_
  · have hg : w.Fits e := hg
    refine ⟨fun _ => hg.digest, fun _ => hg.kept, fun _ x hx => hg.others x ?_, fun _ i s hi hs => ?_⟩
    · simpa using hx
    · exact hg.slot s (by simp [hi, hs])
  · -- no build fails, so nothing comes back
    have hl := h.2.landed
    refine ⟨fun _ => ?_, fun _ n rows hm => ?_, fun _ hne => absurd hl hne⟩
    · rw [hl, List.flatten_nil, List.append_nil]
      exact (h.1.sound.slots trivial).distinct
    · have : rows ∈ failedRows w.building.landed := List.mem_filterMap.mpr ⟨_, hm, rfl⟩
      rw [hl] at this
      cases this
  · have hg : w.Reaches d := hg
    exact ⟨fun _ => hg.full, fun _ _ _ _ => List.not_mem_nil, fun _ => hg.live, fun _ => hg.air,
      fun _ _ hx => absurd hx List.not_mem_nil⟩
  · rw [Disk.fault_eq h.2.faults]

/-- The rows after a run are the table of its changes. -/
theorem run_table {w : World} (h : w.Sound .fully w.table []) (hf : w.Unfailing)
    (calls : List Call) (hc : ∀ c ∈ calls, c.writes = true)
    (hg : tableGuards.run w (calls ++ [.commit])) :
    let r := (w.run calls).commit
    r.val = some () ∧ (r.world.liveRows.map Entry.key).Nodup ∧
      ∀ e, e ∈ r.world.liveRows ↔ e ∈ tableAfter w.table (calls.flatMap Call.changes) := by
  obtain ⟨hg, hcommit, -⟩ := (Guards.run_append _ _ _).mp hg
  have h0 : Stands .fully w.table [] [] w none := .free h
  have hrun := (tableKeeper w.table).runWrites (fun _ _ => id) calls hc ⟨h0, hf⟩ hg
  obtain ⟨⟨⟩, hv, hw, -⟩ := ((tableKeeper w.table).commit hrun hcommit).returns
  have hidle := (w.run calls).commit_idle () hv
  have hs := hw.sound
  refine ⟨hv, ?_, fun e => ?_⟩
  · have hu := hs.unique trivial
    unfold rows at hu
    rw [List.map_append, List.map_append] at hu
    exact (List.nodup_append.mp (List.nodup_append.mp hu).1).1
  · rw [← mem_table_of_idle hidle]
    exact iff_of_eq (congrArg (e ∈ ·) (hs.view trivial))

theorem empty_tabled (faults : List Bool) :
    (empty faults).Sound .fully (empty faults).table [] := by
  have h := empty_sound .fully faults
  rw [table, h.view trivial]
  exact h

/-- A directory of two files is removed and one of them comes back beside it. -/
theorem run_table_removed :
    let calls : List Call := [.apply [.upsert (.file "/a/x"), .upsert (.file "/a/y")], .publish,
      .apply [.removeSubtree (.of "/a"), .upsert (.file "/b/x")]]
    let r := ((empty []).run calls).commit
    r.val = some () ∧ (r.world.liveRows.map Entry.key).Nodup ∧
      ∀ e, e ∈ r.world.liveRows ↔
        e ∈ tableAfter (empty []).table (calls.flatMap Call.changes) :=
  run_table (empty_tabled []) ⟨rfl, rfl⟩ _ (by decide) (by decide +kernel)

/-- A file written again after the removal of its directory is not there after the commit. -/
theorem not_run_table : ¬ ∀ e,
    e ∈ ((empty []).run [.apply [.removeSubtree (.of "/d"), .upsert (.file "/d/f")]]
        ).commit.world.liveRows ↔
      e ∈ tableAfter (empty []).table [.removeSubtree (.of "/d"), .upsert (.file "/d/f")] := by
  intro h
  have hin : Entry.file "/d/f" ∈
      tableAfter (empty []).table [.removeSubtree (.of "/d"), .upsert (.file "/d/f")] :=
    Or.inl rfl
  exact absurd ((h _).mpr hin) (by decide +kernel)

end World

end Scour
