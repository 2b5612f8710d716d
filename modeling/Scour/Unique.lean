import Scour.Passes

/-!
# A path appears once

Over every run from an empty index there is one row a path, over the segments in the list and those
in the air, and one entry a path in the buffer, found where the position map says (`run_unique`).
-/

namespace Scour

namespace World

variable {V : Set Entry}

/-! ## Every run -/

/-- What is asked of a run.  An upsert's digest is no other staged path's, and no path's of a batch
that comes back; a full buffer that is kept loses nothing to the removals. -/
def uniqueGuards : Guards where
  stage w e := ∀ s ∈ w.inner.staged, s.digest = e.digest → s.key = e.key
  collect w := Distinct (w.inner.staged ++ (failedRows w.building.landed).flatten)
  flush discretionary w := discretionary = true →
    (w.inner.staged.filter fun e => !w.inner.hiddenPrefixes.covers e.path.bytes).length < MAX_STAGED →
      ∀ e ∈ w.inner.staged, w.inner.hiddenPrefixes.covers e.path.bytes = false
  spawn _ _ := True

instance : uniqueGuards.Computes where
  stage w _ := inferInstanceAs (Decidable (∀ s ∈ w.inner.staged, _ → _))
  collect _ := inferInstanceAs (Decidable (∀ a ∈ _, ∀ b ∈ _, _ → _))
  flush _ _ := inferInstanceAs (Decidable (_ → _ → ∀ e ∈ _, _))
  spawn _ _ := .isTrue trivial

/-- Every step keeps one row a path. -/
theorem uniqueKeeper : FullKeeper uniqueGuards (Stands .uniquely ∅ [])
    fun cs w => Stands .uniquely ∅ [] cs w none :=
  (looseKeeper .uniquely id).weaken
    (fun _ h => ⟨fun _ => h, False.elim, False.elim, False.elim⟩)
    (fun _ h => ⟨fun _ => h, False.elim, False.elim⟩)
    (fun _ h => ⟨fun _ => h, fun _ _ _ _ => List.not_mem_nil, False.elim, False.elim, False.elim⟩)
    fun _ _ => False.elim

/-- A path appears once: over the segments, with those in the air as they will arrive, and in the
buffer, where it is found by its digest. -/
structure Unique (w : World) : Prop where
  rows : ((w.lives.flatMap Live.entries).map Entry.key).Nodup
  staged : (w.inner.staged.map Entry.key).Nodup
  slots : Slots w.inner.staged w.inner.stagedAt

theorem Sound.once {w : World} (h : w.Sound .uniquely V []) : w.Unique where
  rows := by
    have hu := h.unique trivial
    rw [List.flatMap_nil, List.append_nil] at hu
    exact hu.sublist ((entries_lives h.building).map _)
  staged := (h.slots trivial).nodup_key
  slots := h.slots trivial

theorem run_unique (faults : List Bool) (calls done : List Call)
    (h : uniqueGuards.run (empty faults) calls) (hd : done <+: calls) :
    ((empty faults).run done).Unique := by
  obtain ⟨rest, rfl⟩ := hd
  have h0 : Stands .uniquely ∅ [] [] (empty faults) none := .free (empty_sound .uniquely faults)
  obtain ⟨cs, hs⟩ := uniqueKeeper.run (fun h => ⟨_, h⟩) done h0 ((Guards.run_append _ _ _).mp h).1
  exact hs.sound.once

/-- A directory's file, written again after its removal, in the buffer and after a commit. -/
theorem run_unique_removed : ((empty []).run [.apply [.upsert (.file "/w/a"),
    .removeSubtree (.of "/w"), .upsert (.file "/w/a")], .commit]).Unique :=
  run_unique [] _ _ (by decide +kernel) (List.prefix_refl _)

/-- Two paths with one digest, the first of them written twice: it has two rows. -/
theorem not_run_unique : ¬ ((empty []).run [.apply [.upsert (.file "/w/faaaaeaaaaaaa"),
    .upsert (.file "/w/faaaizaaaaaaa"), .upsert (.file "/w/faaaaeaaaaaaa")], .commit]).Unique :=
  fun h => absurd h.rows (by decide +kernel)

end World

end Scour
