import Scour.Steps

/-!
# The passes that remove rows

`soundKeeper` for a run that is not followed exactly, with the steps that open a generation, sweep
it, forget a source and fold: rows only go (`Sound.of_sublist`), so every call keeps one row a path
(`looseKeeper`).
-/

namespace Scour

namespace World

variable {care : Care} {V : Set Entry}

/-- Followed loosely, a table is nobody's business. -/
theorem Sound.free {w : World} {hands : List Hand} (hx : ¬ care.exactly)
    (h : w.Sound care V hands) (V' : Set Entry) : w.Sound care V' hands :=
  ⟨h.toOk, h.unique, h.slots, h.apart, fun he => absurd he hx, fun he => absurd he hx⟩

/-- Rows only go. -/
theorem Sound.of_sublist {w w' : World} {hands : List Hand} (hx : ¬ care.exactly)
    (h : w.Sound care V hands) (hok : w'.Ok hands)
    (hstaged : w'.inner.staged = w.inner.staged) (hat : w'.inner.stagedAt = w.inner.stagedAt)
    (hb : w'.building = w.building) (hrows : w'.liveRows.Sublist w.liveRows) : w'.Sound care V hands where
  toOk := hok
  unique ho := by
    refine (h.unique ho).sublist (List.Sublist.map _ (List.Sublist.append_right ?_ _))
    unfold rows
    rw [hb]
    exact hrows.append_right _
  slots := by rw [hstaged, hat]; exact h.slots
  apart ho rows hr := h.apart ho rows (by unfold batches at hr ⊢; rwa [hb] at hr)
  closed he := absurd he hx
  view he := absurd he hx

theorem flatMap_sublist (segments : List Live) (f : Live → Live)
    (hf : ∀ l ∈ segments, (f l).entries.Sublist l.entries) :
    ((segments.map f).flatMap Live.entries).Sublist (segments.flatMap Live.entries) := by
  induction segments with
  | nil => exact List.Sublist.refl _
  | cons l segments ih =>
    rw [List.map_cons, List.flatMap_cons, List.flatMap_cons]
    exact List.Sublist.append (hf l List.mem_cons_self) (ih fun l' hl' =>
      hf l' (List.mem_cons_of_mem _ hl'))

/-- Segments that only lost rows, where nothing else of the index moved that matters here. -/
theorem Ok.of_later {w w' : World} {hands : List Hand} (h : w.Ok hands) (f : Live → Live)
    (hf : ∀ l ∈ w.inner.segments, l.Later (f l)) (hs : w'.inner.segments = w.inner.segments.map f)
    (hb : w'.building = w.building) (hh : w'.inner.hiddenPrefixes = w.inner.hiddenPrefixes)
    (hn : w'.inner.nextSegment = w.inner.nextSegment) : w'.Ok hands := by
  have hnum : w'.numbers hands = w.numbers hands := by
    have hmap : (w.inner.segments.map f).map (·.number) = w.inner.segments.map (·.number) := by
      rw [List.map_map]
      exact List.map_congr_left fun l hl => (hf l hl).number
    unfold numbers
    rw [hs, hb, hmap]
  refine ⟨fun l hl => ?_, by rw [hnum]; exact h.nodup, fun n hm => ?_, by rw [hb]; exact h.building,
    by rw [hh]; exact h.clean⟩
  · rw [hs] at hl
    obtain ⟨l', hl', rfl⟩ := List.mem_map.mp hl
    exact (hf l' hl').ok (h.segments l' hl')
  · rw [hnum] at hm
    rw [hn]
    exact h.fresh n hm

/-- Kills keep it. -/
theorem Sound.of_later {w w' : World} {hands : List Hand} (hx : ¬ care.exactly)
    (h : w.Sound care V hands) (f : Live → Live) (hf : ∀ l ∈ w.inner.segments, l.Later (f l))
    (hs : w'.inner.segments = w.inner.segments.map f) (hb : w'.building = w.building)
    (hstaged : w'.inner.staged = w.inner.staged) (hat : w'.inner.stagedAt = w.inner.stagedAt)
    (hh : w'.inner.hiddenPrefixes = w.inner.hiddenPrefixes)
    (hn : w'.inner.nextSegment = w.inner.nextSegment) : w'.Sound care V hands := by
  refine h.of_sublist hx (h.toOk.of_later f hf hs hb hh hn) hstaged hat hb ?_
  unfold liveRows
  rw [hs]
  exact flatMap_sublist _ f fun l hl => (hf l hl).entries

/-- A segment nothing is alive in leaves no row behind. -/
theorem emptied_sound {w : World} {hands : List Hand}
    (h : w.Sound care V hands) : w.emptied.Sound care V hands := by
  have hsub : (w.emptied.inner.segments.map (·.number)).Sublist
      (w.inner.segments.map (·.number)) := List.filter_sublist.map _
  refine replace_sound h ⟨rfl, rfl, rfl, rfl⟩ rfl (le_refl _)
    (fun l hl => h.segments l (List.mem_of_mem_filter hl))
    ((List.nodup_append.mp (List.nodup_append.mp h.nodup).1).1.sublist hsub)
    (fun l hl => Or.inl (hsub.subset (List.mem_map_of_mem hl))) (List.Perm.of_eq ?_)
  exact Inner.rows_filter_empty _

/-! ## The steps that open, sweep and forget -/

theorem dropMarks_sound {w : World} {hands : List Hand}
    (h : w.Sound care V hands) : w.dropMarks.Sound care V hands :=
  ⟨⟨h.segments, h.nodup, h.fresh, h.building, h.clean⟩, h.unique, h.slots, h.apart, fun _ => rfl,
    h.view⟩

theorem openNext_sound {w : World} {hands : List Hand} (hx : ¬ care.exactly)
    (h : w.Sound care V hands) : w.openNext.Sound care V hands :=
  ⟨⟨h.segments, h.nodup, h.fresh, h.building, h.clean⟩, h.unique, h.slots, h.apart,
    fun he => absurd he hx, h.view⟩

theorem closeGeneration_sound {w : World} {hands : List Hand} (h : w.Sound care V hands)
    (generation : Nat) : (w.closeGeneration generation).Sound care V hands := by
  unfold closeGeneration
  split
  · exact ⟨⟨h.segments, h.nodup, h.fresh, h.building, h.clean⟩, h.unique, h.slots, h.apart,
      fun _ => rfl, h.view⟩
  · exact h

theorem sweepJudge_sound {w : World} {hands : List Hand} (hx : ¬ care.exactly)
    (h : w.Sound care V hands) (source : SourceId) (under : List Root) (generation : Nat)
    (spare : PrefixSet) :
    (w.sweepJudge source under generation spare).world.Sound care V hands := by
  have hc := closeGeneration_sound h generation
  unfold sweepJudge
  generalize w.closeGeneration generation = c at hc
  let f (l : Live) : Live := (if generation ≤ l.generation then (l, 0)
    else l.killAll (sweepVictims l source under (c.inner.seen l.number) spare)).1
  have hf : ∀ l ∈ c.inner.segments, l.Later (f l) := fun l hl => by
    simp only [f]
    split
    · exact Live.Later.refl l
    · exact Live.killAll_later _ l (hc.segments l hl).length_le
  refine emptied_sound (w := { c with inner := { c.inner with
    seen := fun _ => none
    segments := (sweepSegments c.inner.segments source under generation c.inner.seen spare).map (·.1)
    dirtyAlive := _ } }) ?_
  refine hc.of_later hx f hf ?_ rfl rfl rfl rfl rfl
  unfold sweepSegments
  rw [List.map_map]
  rfl

theorem forgetKill_sound {w : World} {hands : List Hand} (hx : ¬ care.exactly)
    (h : w.Sound care V hands) (source : SourceId) : (w.forgetKill source).1.Sound care V hands := by
  refine h.of_later hx (fun l => (l.killAll ((List.range l.rows).filter fun row =>
    l.isAlive row && l.seg.sourceOf row == source)).1)
    (fun l hl => Live.killAll_later _ l (h.segments l hl).length_le) ?_ rfl rfl rfl rfl rfl
  unfold forgetKill
  simp only [List.map_map]
  rfl

/-- Every step a caller can ask for keeps one row a path. -/
theorem looseKeeper (care : Care) (hx : ¬ care.exactly) :
    FullKeeper (soundGuards care []) (Stands care ∅ []) fun cs w => Stands care ∅ [] cs w none where
  toKeeper := soundKeeper care ∅ []
  dropMarks h := .free (dropMarks_sound h.sound)
  openNext h _ _ _ _ _ := .free (openNext_sound hx (h.sound.free hx _))
  sweepJudge h := Search.Outcome.Meets.of_world (I := fun w => Stands care ∅ [] _ w none)
    (.free (sweepJudge_sound hx h.sound _ _ _ _))
  foldAny h := Search.Outcome.Meets.of_world (I := fun w => Stands care ∅ [] _ w none)
    (.free (foldTo_sound h.sound _ _))
  abandon {cs w generation} h := by
    have hc := closeGeneration_sound h.sound generation
    exact .free ⟨⟨hc.segments, hc.nodup, hc.fresh, hc.building, hc.clean⟩, hc.unique, hc.slots,
      hc.apart, hc.closed, hc.view⟩
  forgetKill h := .free (forgetKill_sound hx h.sound _)
  emptied h := .free (emptied_sound h.sound)

/-- Whatever is asked and whatever fails. -/
theorem okKeeper : FullKeeper .free (Stands .loosely ∅ [])
    fun cs w => Stands .loosely ∅ [] cs w none :=
  (looseKeeper .loosely id).weaken
    (fun _ _ => ⟨False.elim, False.elim, False.elim, False.elim⟩)
    (fun _ _ => ⟨False.elim, False.elim, False.elim⟩)
    (fun _ _ => ⟨False.elim, False.elim, False.elim, False.elim, False.elim⟩)
    fun _ _ => False.elim

theorem run_ok (faults : List Bool) (calls : List Call) : ((empty faults).run calls).Ok [] := by
  have h0 : Stands .loosely ∅ [] [] (empty faults) none := .free (empty_sound .loosely faults)
  obtain ⟨_, h⟩ := okKeeper.run (fun h => ⟨_, h⟩) calls h0 (Guards.free_run calls _)
  exact h.sound.toOk

end World

end Scour
