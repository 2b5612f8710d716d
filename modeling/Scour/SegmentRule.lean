import Scour.Passes

/-!
# Rules for segments

What holds of every segment a build gives, and of every segment a fold makes of segments it holds of,
holds of every segment in the list after any run, whatever fails (`run_segments`).  Kills, folds that
are refused and segments that wait to be taken in change nothing about it: a segment's files are
written once.
-/

namespace Scour

/-- A property of segments that the index keeps. -/
structure SegmentRule (Q : Segment → Prop) : Prop where
  build : ∀ rows, Q (build rows).seg
  fold : ∀ segs : List Live, (∀ l ∈ segs, l.Ok ∧ Q l.seg) → Q (buildSorted (mergeRows segs)).seg

namespace World

/-- It holds of the segments in the list, of those that wait to be taken in, and of one a caller has
just written. -/
structure Holds (Q : Segment → Prop) (w : World) (held : Option Held) : Prop where
  segments : ∀ l ∈ w.inner.segments, Q l.seg
  landed : ∀ n l, Landed.built n l ∈ w.building.landed → Q l.seg
  written : ∀ live, held = some (.written live) → Q live.seg

variable {Q : Segment → Prop} {w w' : World} {held : Option Held}

namespace Holds

/-- Nothing about the segments moved. -/
theorem of_eq (h : w.Holds Q held) (hs : w'.inner.segments = w.inner.segments)
    (hl : w'.building.landed = w.building.landed) : w'.Holds Q none :=
  ⟨hs ▸ h.segments, hl ▸ h.landed, fun _ hw => by cases hw⟩

theorem batch (h : w.Holds Q held) (p : Pending) : w.Holds Q (some (.batch p)) :=
  ⟨h.segments, h.landed, fun _ hw => by cases hw⟩

theorem none (h : w.Holds Q held) : w.Holds Q none := ⟨h.segments, h.landed, fun _ hw => by cases hw⟩

theorem same (h : w.Holds Q held) (hw : w.Same w') : w'.Holds Q Option.none :=
  h.of_eq hw.segments (by rw [hw.building])

/-- Segments that lost rows are written as they were. -/
theorem of_seg (h : w.Holds Q held) (hs : ∀ l' ∈ w'.inner.segments, ∃ l ∈ w.inner.segments, l'.seg = l.seg)
    (hl : w'.building.landed = w.building.landed) : w'.Holds Q Option.none where
  segments l' hl' := by
    obtain ⟨l, hmem, hseg⟩ := hs l' hl'
    exact hseg ▸ h.segments l hmem
  landed := hl ▸ h.landed
  written _ hw := by cases hw

/-- A segment of which it holds is put in the list. -/
theorem insert (h : w.Holds Q held) {live : Live} (hlive : Q live.seg)
    (hs : w'.inner.segments = Inner.sortSegments (w.inner.segments ++ [live]))
    (hl : w'.building.landed = w.building.landed) : w'.Holds Q Option.none where
  segments l hm := by
    rw [hs] at hm
    rcases List.mem_append.mp ((sortSegments_perm _).mem_iff.mp hm) with hm | hm
    · exact h.segments l hm
    · rw [List.mem_singleton.mp hm]
      exact hlive
  landed := hl ▸ h.landed
  written _ hw := by cases hw

theorem restore (h : w.Holds Q held) (p : Pending) : (w.restore p).Holds Q Option.none := by
  refine h.of_eq ?_ rfl
  unfold World.restore
  rw [Inner.restore_frame]

end Holds

theorem holds_landJob (R : SegmentRule Q) (h : w.Holds Q none) (job : Job) :
    (w.landJob job).Holds Q none := by
  obtain ⟨disk, done, heq, hdone⟩ := w.landJob_cases job
  rw [heq]
  refine ⟨h.segments, fun n l hm => ?_, h.written⟩
  rcases List.mem_append.mp hm with hm | hm
  · exact h.landed n l hm
  · rcases hdone with rfl | rfl
    · cases List.mem_singleton.mp hm
    · cases List.mem_singleton.mp hm
      exact R.build job.rows

theorem arrive_seg (flight : Option Flight) {l : Live} (hl : l.Ok) : (arrive flight l).seg = l.seg :=
  (arrive_later flight l hl).seg

theorem holds_collected (h : w.Holds Q none) (added failure : Bool) :
    (w.collected added failure).world.Holds Q none := by
  unfold collected
  simp only
  split
  · have hsorted : ({ w with inner := { w.inner with
        segments := Inner.sortSegments w.inner.segments } } : World).Holds Q Option.none :=
      h.of_seg (fun l hl => ⟨l, (sortSegments_perm _).mem_iff.mp hl, rfl⟩) rfl
    have hsaved := hsorted.same (saveMeta_same _)
    unfold Search.Outcome.bind
    split
    · exact hsaved
    · split <;> exact hsaved
  · split <;> exact h

/-- The loop of `collect`. -/
theorem holds_collectFrom (rest : List Landed) : ∀ (w : World) (added failure : Bool),
    (w.withLanded (w.building.landed ++ rest)).Holds Q none →
    (∀ n l, Landed.built n l ∈ rest → l.Ok) →
      (w.collectFrom added failure rest).world.Holds Q none := by
  induction rest with
  | nil =>
    intro w added failure h _
    rw [List.append_nil] at h
    exact holds_collected h added failure
  | cons d rest ih =>
    intro w added failure h hok
    cases d with
    | built number live =>
      have hlive := h.landed number live (List.mem_append_right _ List.mem_cons_self)
      have harrive : ∀ flight, Q (arrive flight live).seg := fun flight => by
        rw [arrive_seg flight (hok number live List.mem_cons_self)]
        exact hlive
      have hrest : ∀ n l, Landed.built n l ∈ w.building.landed ++ rest → Q l.seg := fun n l hm => by
        refine h.landed n l ?_
        rcases List.mem_append.mp hm with hm | hm
        · exact List.mem_append_left _ hm
        · exact List.mem_append_right _ (List.mem_cons_of_mem _ hm)
      unfold collectFrom
      simp only
      generalize (if (List.find? (fun x => decide (x.number = number)) w.building.flights).any
          (fun f => !f.doomed.isEmpty || !f.gone.isEmpty) = true then
          w.disk.writeAlive number
            (arrive (List.find? (fun x => decide (x.number = number)) w.building.flights) live).alive
        else (w.disk, true)) = r
      split
      · refine ⟨fun l hl => ?_, fun n l hm => ?_, fun _ hw => by cases hw⟩
        · simp only [Search.Outcome.err] at hl
          split at hl
          · exact h.segments l ((sortSegments_perm _).mem_iff.mp hl)
          · exact h.segments l hl
        · rcases List.mem_append.mp hm with hm | hm
          · exact hrest n l (List.mem_append_left _ hm)
          · rcases List.mem_cons.mp hm with hm | hm
            · cases hm
              exact harrive _
            · exact hrest n l (List.mem_append_right _ hm)
      · refine ih _ _ _ ⟨fun l hl => ?_, hrest, fun _ hw => by cases hw⟩ fun n l hm =>
          hok n l (List.mem_cons_of_mem _ hm)
        rcases List.mem_append.mp hl with hl | hl
        · exact h.segments l hl
        · rw [List.mem_singleton.mp hl]
          exact harrive _
    | failed number rows =>
      unfold collectFrom
      simp only
      refine ih _ _ _ ⟨fun l hl => h.segments l ?_, fun n l hm => ?_, fun _ hw => by cases hw⟩
        fun n l hm => hok n l (List.mem_cons_of_mem _ hm)
      · simp only [World.restore, withLanded] at hl
        rwa [Inner.restore_frame] at hl
      · refine h.landed n l ?_
        rcases List.mem_append.mp hm with hm | hm
        · exact List.mem_append_left _ hm
        · exact List.mem_append_right _ (List.mem_cons_of_mem _ hm)

theorem holds_collect {hands : List Hand} (hw : w.Ok hands) (h : w.Holds Q none) :
    w.collect.world.Holds Q none := by
  unfold collect
  simp only
  split
  · exact h
  · exact holds_collectFrom _ _ _ _ ⟨h.segments, h.landed, h.written⟩ fun n l hm =>
      (hw.building.landed n l hm).1

/-! ## The flush -/

theorem killHidden_seg (hok : ∀ l ∈ w.inner.segments, l.Ok) :
    ∀ l' ∈ w.killHidden.1.inner.segments, ∃ l ∈ w.inner.segments, l'.seg = l.seg := by
  intro l' hl'
  unfold killHidden at hl'
  simp only at hl'
  split at hl'
  · exact ⟨l', hl', rfl⟩
  · rw [List.map_map] at hl'
    obtain ⟨l, hl, rfl⟩ := List.mem_map.mp hl'
    exact ⟨l, hl, (Live.killHidden_later l (hok l hl) _ _).seg⟩

theorem killReplaced_seg (hok : ∀ l ∈ w.inner.segments, l.Ok) :
    ∀ l' ∈ w.killReplaced.1.inner.segments, ∃ l ∈ w.inner.segments, l'.seg = l.seg := by
  intro l' hl'
  unfold killReplaced at hl'
  simp only at hl'
  rw [List.map_map] at hl'
  obtain ⟨l, hl, rfl⟩ := List.mem_map.mp hl'
  exact ⟨l, hl, (Live.killPaths_later l (hok l hl) _).seg⟩

theorem holds_flushTake (h : w.Holds Q none) (discretionary durable : Bool) (touched : List Nat) :
    (w.flushTake discretionary durable touched).world.Holds Q none := by
  obtain ⟨hseg, -⟩ := w.inner.liftOut_rest discretionary durable touched
  unfold flushTake
  generalize w.inner.liftOut discretionary durable touched = lifted at hseg
  obtain ⟨inner, pending, gone⟩ := lifted
  simp only at hseg ⊢
  have hlifted : ({ w with inner } : World).Holds Q Option.none := by
    refine h.of_seg (fun l hl => ⟨l, ?_, rfl⟩) rfl
    rw [show ({ w with inner } : World).inner.segments = inner.segments from rfl, hseg] at hl
    exact List.mem_of_mem_filter hl
  have hsaved : (if (durable && inner.metaDirty) = true then ({ w with inner } : World).saveMeta
      else Search.Outcome.ok { w with inner } ()).world.Holds Q Option.none := by
    split
    · exact hlifted.same (saveMeta_same _)
    · exact hlifted
  generalize (if (durable && inner.metaDirty) = true then ({ w with inner } : World).saveMeta
    else Search.Outcome.ok { w with inner } ()) = saved at hsaved
  cases saved.val with
  | none => exact hsaved.restore pending
  | some u => exact hsaved

theorem holds_flushStaged {hands : List Hand} (hw : w.Ok hands) (h : w.Holds Q none)
    (discretionary durable : Bool) :
    (w.flushStaged discretionary durable).world.Holds Q none := by
  unfold flushStaged
  split
  · split
    · have hsaved := h.same (saveMeta_same w)
      unfold Search.Outcome.bind
      split <;> exact hsaved
    · exact h
  · obtain ⟨hok, -⟩ := killHidden_spec hw
    have hhidden : w.killHidden.1.Holds Q Option.none :=
      h.of_seg (killHidden_seg hw.segments) w.killHidden_building.2
    have hspared : ({ w.killHidden.1 with
        inner := w.killHidden.1.inner.spareUnchanged } : World).Holds Q Option.none := by
      rw [Inner.spareUnchanged_frame]
      exact hhidden.of_eq rfl rfl
    have hsegs : ∀ l ∈ ({ w.killHidden.1 with
        inner := w.killHidden.1.inner.spareUnchanged } : World).inner.segments, l.Ok := by
      rw [Inner.spareUnchanged_frame]
      exact hok.segments
    exact holds_flushTake (hspared.of_seg (killReplaced_seg hsegs) rfl) _ _ _

/-! ## The keeper -/

/-- What is kept: the index is in order, and the rule holds of its segments. -/
structure Ruled (Q : Segment → Prop) (cs : List Change) (w : World) (held : Option Held) : Prop where
  stands : Stands .loosely ∅ [] cs w held
  holds : w.Holds Q held

theorem Ruled.ok {cs : List Change} (h : Ruled Q cs w none) : w.Ok [] := h.stands.sound.toOk

/-- A call leaves both. -/
theorem Ruled.meets {α : Type} {cs : List Change} {r : Out α}
    (h : r.Meets (fun w _ => Stands .loosely ∅ [] cs w none) fun w => Stands .loosely ∅ [] cs w none)
    (h' : r.world.Holds Q none) :
    r.Meets (fun w _ => Ruled Q cs w none) fun w => Ruled Q cs w none :=
  (h.and (Search.Outcome.Meets.of_world (I := fun w => w.Holds Q none) h')).mono
    (fun _ _ hw => ⟨hw.1, hw.2⟩) fun _ hw => ⟨hw.1, hw.2⟩

theorem holds_foldTo (R : SegmentRule Q) {hands : List Hand} (hw : w.Ok hands) (h : w.Holds Q none)
    (which : List Nat) (durable : Bool) : (w.foldTo which durable).world.Holds Q none := by
  rcases w.foldTo_cases which durable with ⟨disk, m, dirty, -, heq⟩ |
    ⟨disk, input, folded, w₁, rfl, -, -, hf, -, hs⟩
  · rw [heq]
    exact h.of_eq rfl rfl
  · refine @Holds.same Q _ _ none ?_ hs
    refine ⟨fun l hl => ?_, h.landed, fun _ hw => by cases hw⟩
    rcases List.mem_append.mp ((sortSegments_perm _).mem_iff.mp hl) with hl | hl
    · exact h.segments l (List.mem_of_mem_filter hl)
    · rcases hf with ⟨rfl, -⟩ | rfl
      · cases hl
      · rw [List.mem_singleton.mp hl]
        exact R.fold _ fun l hl => ⟨hw.segments l (List.mem_of_mem_filter hl),
          h.segments l (List.mem_of_mem_filter hl)⟩

theorem holds_writeUnwritten {hands : List Hand} (hw : w.Ok hands) (h : w.Holds Q none)
    (number : Nat) : (w.writeUnwritten number).world.Holds Q none := by
  unfold writeUnwritten
  cases hl : w.inner.segment? number with
  | none => exact h
  | some live =>
    simp only
    split
    · exact h
    · cases hwrite : (Live.write w.disk number live.generation live.bytes).2 with
      | none => exact h.of_eq rfl rfl
      | some written =>
        obtain ⟨hmem, -⟩ := Inner.mem_of_segment? hl
        have hfull : live.bytes.Full := by
          obtain ⟨es, h1, -⟩ := hw.segments live hmem
          intro d hd
          show live.seg.derived d ≠ none
          rw [h1]
          exact Live.build_full es d hd
        have hseg : written.seg = live.seg :=
          Live.assemble_seg (Live.write_eq _ _ _ _ hfull _ hwrite)
        simp only [Search.Outcome.ok]
        unfold adoptWritten
        rw [show ({ w with disk := (Live.write w.disk number live.generation live.bytes).1 } :
          World).inner.segment? number = some live from hl]
        refine h.of_seg (fun l' hl' => ?_) rfl
        obtain ⟨l, hmem', rfl⟩ := List.mem_map.mp hl'
        split
        · exact ⟨live, hmem, hseg⟩
        · exact ⟨l, hmem', rfl⟩

theorem holds_sweepJudge {hands : List Hand} (hw : w.Ok hands) (h : w.Holds Q none)
    (source : SourceId) (under : List Root) (generation : Nat) (spare : PrefixSet) :
    (w.sweepJudge source under generation spare).world.Holds Q none := by
  have hclosed : (w.closeGeneration generation).inner.segments = w.inner.segments := by
    unfold closeGeneration
    split <;> rfl
  have hlanded : (w.closeGeneration generation).building = w.building := by
    unfold closeGeneration
    split <;> rfl
  unfold sweepJudge
  refine h.of_seg (fun l' hl' => ?_) (by
    show (w.closeGeneration generation).building.landed = _
    rw [hlanded])
  have hl' := List.mem_of_mem_filter hl'
  unfold sweepSegments at hl'
  rw [List.map_map, hclosed] at hl'
  obtain ⟨l, hl, rfl⟩ := List.mem_map.mp hl'
  refine ⟨l, hl, ?_⟩
  rw [Function.comp_apply]
  split
  · rfl
  · exact (Live.killAll_later _ l (hw.segments l hl).length_le).seg

theorem holds_forgetKill {hands : List Hand} (hw : w.Ok hands) (h : w.Holds Q none)
    (source : SourceId) : (w.forgetKill source).1.Holds Q none := by
  refine h.of_seg (fun l' hl' => ?_) rfl
  unfold forgetKill at hl'
  simp only [List.map_map] at hl'
  obtain ⟨l, hl, rfl⟩ := List.mem_map.mp hl'
  exact ⟨l, hl, (Live.killAll_later _ l (hw.segments l hl).length_le).seg⟩

theorem holds_commitBuild (R : SegmentRule Q) (h : w.Holds Q none) (p : Pending) :
    (w.commitBuild p).Meets (fun w live => w.Holds Q (live.map .written)) fun w => w.Holds Q none := by
  unfold commitBuild
  cases p.staged with
  | none => exact (Search.Outcome.meets_ok _ _ _ _).mpr h.none
  | some s =>
    obtain ⟨number, generation, staged⟩ := s
    simp only
    cases hw : (Live.write w.disk number generation (build staged)).2 with
    | none =>
      have hdisk : ({ w with disk := (Live.write w.disk number generation (build staged)).1 } :
          World).Holds Q none := h.of_eq rfl rfl
      exact (Search.Outcome.meets_err _ _ _).mpr (hdisk.restore p)
    | some live =>
      have heq := Live.write_eq _ _ _ _ (Live.build_full _) _ hw
      rw [Live.fromBytes_buildSorted] at heq
      cases heq
      refine (Search.Outcome.meets_ok _ _ _ _).mpr ⟨h.segments, h.landed, fun l hl => ?_⟩
      cases hl
      exact R.build staged

/-- Every step keeps the rule. -/
theorem ruleKeeper (R : SegmentRule Q) : FullKeeper .free (Ruled Q) fun cs w => Ruled Q cs w none where
  numbered h := okKeeper.numbered h.stands
  stage {cs w e} h hg := by
    obtain ⟨sources, -, heq⟩ := w.stage_frame e
    refine ⟨okKeeper.stage h.stands hg, ?_⟩
    rw [heq]
    exact h.holds.of_eq rfl rfl
  hide h := ⟨okKeeper.hide h.stands, h.holds.of_eq rfl rfl⟩
  rescan h := ⟨okKeeper.rescan h.stands, h.holds⟩
  told h := ⟨okKeeper.told h.stands, h.holds.of_eq rfl rfl⟩
  land h hj := ⟨okKeeper.land h.stands hj, holds_landJob R h.holds _⟩
  collect h hg := Ruled.meets (okKeeper.collect h.stands hg) (holds_collect h.ok h.holds)
  flush {cs w d durable} h hg := by
    have hs := holds_flushStaged h.ok h.holds d durable
    exact ((okKeeper.flush h.stands hg).and (Search.Outcome.Meets.of_world
      (I := fun w => w.Holds Q none) hs)).mono (fun _ p hw => ⟨hw.1, hw.2.batch p⟩)
        fun _ hw => ⟨hw.1, hw.2⟩
  commitAlive {cs w p} h := by
    refine ((okKeeper.commitAlive h.stands).and (Search.Outcome.Meets.of_world
      (I := fun w => w.Holds Q none) ?_)).mono (fun _ _ hw => ⟨hw.1, hw.2.batch _⟩)
        fun _ hw => ⟨hw.1, hw.2⟩
    unfold commitAlive
    simp only
    split
    · exact h.holds.of_eq rfl rfl
    · have hdisk : ({ w with disk := (writeAlive w.disk p.alive).1 } : World).Holds Q none :=
        h.holds.of_eq rfl rfl
      exact hdisk.restore p
  commitBuild {cs w p} h := ((okKeeper.commitBuild h.stands).and
    (holds_commitBuild R h.holds.none p)).mono (fun _ _ hw => ⟨hw.1, hw.2⟩) fun _ hw => ⟨hw.1, hw.2⟩
  install {cs w n live} h hn := by
    refine Ruled.meets (okKeeper.install h.stands hn) ?_
    have hput : (({ w with inner := { w.inner with nextSegment := max w.inner.nextSegment n } } :
        World).installWritten live).Holds Q none :=
      h.holds.insert (h.holds.written live rfl) rfl rfl
    exact hput.same (saveMeta_same _)
  takeOff {cs w number generation staged p} h hp hg hf := by
    refine Ruled.meets (okKeeper.takeOff h.stands hp hg hf) ?_
    unfold takeOff
    simp only
    split
    · exact h.holds.of_eq rfl rfl
    · exact h.holds.of_eq rfl rfl
  oweAlive {cs w p} h := by
    have howed : (w.oweAlive p).Holds Q none := h.holds.of_eq rfl rfl
    exact ⟨okKeeper.oweAlive h.stands, howed.batch _⟩
  publishInstall {cs w p} h := by
    refine Ruled.meets (okKeeper.publishInstall h.stands) ?_
    unfold publishInstall
    cases p.bare.staged with
    | none => exact h.holds.none
    | some s =>
      obtain ⟨number, generation, staged⟩ := s
      have hb : Live.fromBytes number generation (build staged) =
          some (.ofBytes number generation (build staged)) := Live.fromBytes_buildSorted _ _ _
      simp only [hb]
      have hbuilt : Q (Live.ofBytes number generation (build staged)).seg := R.build staged
      exact h.holds.insert hbuilt rfl rfl
  foldTo h hu := Ruled.meets (okKeeper.foldTo h.stands hu) (holds_foldTo R h.ok h.holds _ _)
  writeUnwritten h := Ruled.meets (okKeeper.writeUnwritten h.stands)
    (holds_writeUnwritten h.ok h.holds _)
  writeDirtyAlive h := Ruled.meets (okKeeper.writeDirtyAlive h.stands)
    (h.holds.same (writeDirtyAlive_same _))
  saveMeta h := Ruled.meets (okKeeper.saveMeta h.stands) (h.holds.same (saveMeta_same _))
  dropMarks h := ⟨okKeeper.dropMarks h.stands, h.holds.of_eq rfl rfl⟩
  openNext h h1 h2 h3 h4 h5 := ⟨okKeeper.openNext h.stands h1 h2 h3 h4 h5, h.holds.of_eq rfl rfl⟩
  sweepJudge h := Ruled.meets (okKeeper.sweepJudge h.stands) (holds_sweepJudge h.ok h.holds _ _ _ _)
  foldAny h := Ruled.meets (okKeeper.foldAny h.stands) (holds_foldTo R h.ok h.holds _ _)
  abandon {cs w generation} h := by
    refine ⟨okKeeper.abandon h.stands, h.holds.of_eq ?_ ?_⟩ <;>
      · unfold closeGeneration unmarked
        split <;> rfl
  forgetKill h := ⟨okKeeper.forgetKill h.stands, holds_forgetKill h.ok h.holds _⟩
  emptied h := ⟨okKeeper.emptied h.stands,
    h.holds.of_seg (fun l hl => ⟨l, List.mem_of_mem_filter hl, rfl⟩) rfl⟩

/-- **The rule holds after every run**, whatever is asked and whatever fails. -/
theorem run_segments (R : SegmentRule Q) (faults : List Bool) (calls : List Call) :
    ∀ l ∈ ((empty faults).run calls).inner.segments, Q l.seg := by
  have h0 : Ruled Q [] (empty faults) none :=
    ⟨.free (empty_sound .loosely faults), fun _ h => absurd h List.not_mem_nil,
      fun _ _ h => absurd h List.not_mem_nil, fun _ h => by cases h⟩
  obtain ⟨_, h⟩ := (ruleKeeper R).run (fun h => ⟨_, h⟩) calls h0 (Guards.free_run calls _)
  exact h.holds.segments

end World

end Scour
