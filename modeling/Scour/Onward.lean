import Scour.Faultless

/-!
# What a step leaves of the segments there were

`Onward` says once what any step of the write path may do to the list of segments: a segment in it
was there before and may only have lost rows since, or its number was on its way to the list, in a
build or in a caller's hands, or is new.  A number that has left the list does not come back to it, so
a copy made of a segment is told by its death count from what the segment has become (`Tracked`).
-/

namespace Scour

namespace World

/-- The numbers on their way to the list: those of the builds, and those that callers hold. -/
def coming (w : World) (hands : List Hand) : List Nat := w.building.numbers ++ hands.map (·.1)

structure Onward (w : World) (hands : List Hand) (w' : World) (hands' : List Hand) : Prop where
  nextSegment : w.inner.nextSegment ≤ w'.inner.nextSegment
  coming : ∀ n ∈ w'.coming hands', n ∈ w.coming hands ∨ w.inner.nextSegment ≤ n
  segments : ∀ l' ∈ w'.inner.segments, (∃ l ∈ w.inner.segments, l.Later l') ∨
    l'.number ∈ w.coming hands ∨ w.inner.nextSegment ≤ l'.number

variable {w w' w₁ w₂ w₃ : World} {hands hands' hands₁ hands₂ hands₃ : List Hand}

theorem Onward.trans (h : w₁.Onward hands₁ w₂ hands₂) (h' : w₂.Onward hands₂ w₃ hands₃) :
    w₁.Onward hands₁ w₃ hands₃ where
  nextSegment := h.nextSegment.trans h'.nextSegment
  coming n hn := by
    have := h.nextSegment
    rcases h'.coming n hn with hn | hn
    · exact h.coming n hn
    · exact Or.inr (by omega)
  segments l'' hl'' := by
    have := h.nextSegment
    rcases h'.segments l'' hl'' with ⟨l', hl', hlater⟩ | hn | hn
    · rcases h.segments l' hl' with ⟨l, hl, hlater'⟩ | hn | hn
      · exact Or.inl ⟨l, hl, hlater'.trans hlater⟩
      · exact Or.inr (Or.inl (by rwa [hlater.number]))
      · exact Or.inr (Or.inr (by rwa [hlater.number]))
    · exact Or.inr (h.coming _ hn)
    · exact Or.inr (Or.inr (by omega))

/-- Nothing is on its way but what was, and every segment was there. -/
theorem Onward.of_later (hb : w'.building.numbers = w.building.numbers)
    (hn : w.inner.nextSegment ≤ w'.inner.nextSegment)
    (hs : ∀ l' ∈ w'.inner.segments, ∃ l ∈ w.inner.segments, l.Later l') :
    w.Onward hands w' hands where
  nextSegment := hn
  coming n hm := Or.inl (by unfold World.coming at hm ⊢; rwa [← hb])
  segments l' hl' := Or.inl (hs l' hl')

theorem Onward.of_eq (hs : w'.inner.segments = w.inner.segments)
    (hb : w'.building.numbers = w.building.numbers)
    (hn : w.inner.nextSegment ≤ w'.inner.nextSegment) : w.Onward hands w' hands :=
  .of_later hb hn fun l hl => ⟨l, hs ▸ hl, Live.Later.refl l⟩

theorem Onward.refl (w : World) (hands : List Hand) : w.Onward hands w hands :=
  .of_eq rfl rfl (le_refl _)

theorem Same.onward (h : w.Same w') : w.Onward hands w' hands :=
  .of_eq h.segments (by rw [h.building]) h.nextSegment

/-- Whoever holds the numbers. -/
theorem Onward.of_hands (hh : ∀ n ∈ hands'.map (·.1), n ∈ hands.map (·.1)) :
    w.Onward hands w hands' where
  nextSegment := le_refl _
  coming n hn := by
    unfold World.coming at hn ⊢
    rcases List.mem_append.mp hn with hn | hn
    · exact Or.inl (List.mem_append_left _ hn)
    · exact Or.inl (List.mem_append_right _ (hh n hn))
  segments l hl := Or.inl ⟨l, hl, Live.Later.refl l⟩

theorem Onward.drop (hand : List Hand) : w.Onward (hand ++ hands) w hands :=
  .of_hands fun n hn => by
    rw [List.map_append]
    exact List.mem_append_right _ hn

/-! ## Threads, and builds taken in -/

theorem landJob_onward (h : w.Ok hands) {job : Job} (hjob : job ∈ w.building.jobs) :
    w.Onward hands (w.landJob job) hands := by
  obtain ⟨disk, done, heq, hdone⟩ := w.landJob_cases job
  have hnum : done.number = job.number := by rcases hdone with rfl | rfl <;> rfl
  have hperm := Building.numbers_landed' w.building job done hjob h.jobs_nodup hnum
  rw [heq]
  refine ⟨le_refl _, fun n hn => Or.inl ?_, fun l hl => Or.inl ⟨l, hl, Live.Later.refl l⟩⟩
  exact (hperm.append_right _).mem_iff.mp hn

theorem restore_onward (w : World) (p : Pending) : w.Onward hands (w.restore p) hands := by
  unfold World.restore
  rw [Inner.restore_frame]
  exact .of_eq rfl rfl (le_refl _)

theorem collected_onward (w : World) (added failure : Bool) :
    w.Onward hands (w.collected added failure).world hands := by
  have hsorted : w.Onward hands { w with inner := { w.inner with
      segments := Inner.sortSegments w.inner.segments } } hands :=
    .of_later rfl (le_refl _) fun l hl =>
      ⟨l, (sortSegments_perm _).mem_iff.mp hl, Live.Later.refl l⟩
  unfold collected
  simp only
  split
  · have hsaved := hsorted.trans (saveMeta_same _).onward
    unfold Search.Outcome.bind
    split
    · exact hsaved
    · split <;> exact hsaved
  · split <;> exact .refl w hands

/-- The loop of `collect`: what comes into the list was in the air. -/
theorem collectFrom_onward (rest : List Landed) : ∀ (w : World) (added failure : Bool),
    w.building.landed = [] → (w.withLanded rest).Sound .loosely ∅ hands →
      (w.withLanded rest).Onward hands (w.collectFrom added failure rest).world hands := by
  induction rest with
  | nil =>
    intro w added failure hl _
    rw [withLanded_self hl]
    exact collected_onward w added failure
  | cons d rest ih =>
    intro w added failure hl h
    have hnum : (w.withLanded (d :: rest)).building.numbers.Perm
        (d.number :: ((w.withLanded (d :: rest)).building.taken d.number rest).numbers) :=
      Building.numbers_taken rfl
    cases d with
    | built number live =>
      have hok := h.building.landed number live List.mem_cons_self
      have hlater := arrive_later (w.building.flight? number) live hok.1
      unfold collectFrom
      simp only
      generalize (if (List.find? (fun x => decide (x.number = number)) w.building.flights).any
          (fun f => !f.doomed.isEmpty || !f.gone.isEmpty) = true then
          w.disk.writeAlive number
            (arrive (List.find? (fun x => decide (x.number = number)) w.building.flights) live).alive
        else (w.disk, true)) = r
      split
      · -- the bitmap could not be written: what is left of the batch waits as it did
        have hnumbers : ∀ live', ({ w.building with
            landed := w.building.landed ++ .built number live' :: rest } : Building).numbers =
              (w.withLanded (.built number live :: rest)).building.numbers := by
          intro live'
          rw [hl]
          rfl
        split
        · exact .of_later (hnumbers _) (le_refl _) fun l hm =>
            ⟨l, (sortSegments_perm _).mem_iff.mp hm, Live.Later.refl l⟩
        · exact .of_eq rfl (hnumbers _) (le_refl _)
      · have hnext := takeBuilt_sound (w := w.withLanded (.built number live :: rest)) rfl h r.1
        refine .trans ⟨le_max_left _ _, fun n hn => Or.inl ?_, fun l hm => ?_⟩
          (ih _ true failure hl hnext)
        · refine (hnum.append_right _).mem_iff.mpr ?_
          exact List.mem_cons_of_mem _ hn
        · rcases List.mem_append.mp hm with hm | hm
          · exact Or.inl ⟨l, hm, Live.Later.refl l⟩
          · refine Or.inr (Or.inl ?_)
            have hl' : l.number = number := by
              rw [List.mem_singleton.mp hm]
              exact hlater.number.trans hok.2.1
            rw [hl']
            exact (hnum.append_right _).mem_iff.mpr List.mem_cons_self
    | failed number rows =>
      have hnext := takeFailed_sound (w := w.withLanded (.failed number rows :: rest)) rfl h
        False.elim False.elim (w.buildFailed + 1) w.inner.generation
      unfold collectFrom
      simp only
      refine .trans ?_ (ih _ added true hl hnext)
      unfold World.restore
      rw [Inner.restore_frame]
      refine ⟨le_refl _, fun n hn => Or.inl ?_, fun l hm => Or.inl ⟨l, hm, Live.Later.refl l⟩⟩
      exact (hnum.append_right _).mem_iff.mpr (List.mem_cons_of_mem _ hn)

theorem collect_onward (h : w.Sound .loosely ∅ hands) :
    w.Onward hands w.collect.world hands := by
  unfold collect
  simp only
  split
  · exact .refl w hands
  · exact collectFrom_onward w.building.landed
      { w with building := { w.building with landed := [] } } false false rfl
      (by simpa [withLanded] using h)

/-! ## The flush -/

theorem killHidden_segments (h : w.Ok hands) :
    ∀ l' ∈ w.killHidden.1.inner.segments, ∃ l ∈ w.inner.segments, l.Later l' := by
  intro l' hl'
  unfold killHidden at hl'
  simp only at hl'
  split at hl'
  · exact ⟨l', hl', Live.Later.refl l'⟩
  · rw [List.map_map] at hl'
    obtain ⟨l, hl, rfl⟩ := List.mem_map.mp hl'
    exact ⟨l, hl, Live.killHidden_later l (h.segments l hl) _ _⟩

theorem killReplaced_segments (h : w.Ok hands) :
    ∀ l' ∈ w.killReplaced.1.inner.segments, ∃ l ∈ w.inner.segments, l.Later l' := by
  intro l' hl'
  unfold killReplaced at hl'
  simp only at hl'
  rw [List.map_map] at hl'
  obtain ⟨l, hl, rfl⟩ := List.mem_map.mp hl'
  exact ⟨l, hl, Live.killPaths_later l (h.segments l hl) _⟩

theorem killHidden_onward (h : w.Ok hands) : w.Onward hands w.killHidden.1 hands := by
  refine .of_later ?_ ?_ (killHidden_segments h)
  · unfold Building.numbers
    rw [(killHidden_building w).1, (killHidden_building w).2]
  · rw [killHidden_frame]

theorem killReplaced_onward (h : w.Ok hands) : w.Onward hands w.killReplaced.1 hands :=
  .of_later rfl (le_refl _) (killReplaced_segments h)

/-- The number of the batch lifted out is new. -/
theorem flushTake_onward (w : World) (discretionary durable : Bool) (touched : List Nat) :
    (w.flushTake discretionary durable touched).Meets
      (fun w' p => w.Onward hands w' (p.hand ++ hands)) fun w' => w.Onward hands w' hands := by
  obtain ⟨hsegs, -⟩ := w.inner.liftOut_rest discretionary durable touched
  have hstaged := w.inner.liftOut_staged discretionary durable touched
  unfold flushTake
  generalize w.inner.liftOut discretionary durable touched = lifted at hsegs hstaged
  obtain ⟨inner, pending, gone⟩ := lifted
  simp only at hsegs hstaged ⊢
  have hnext : w.inner.nextSegment ≤ inner.nextSegment := by
    rcases hstaged with ⟨-, -, -, h, -⟩ | ⟨-, -, h, -⟩ <;> omega
  have hlifted : w.Onward hands { w with inner } hands := by
    refine .of_later rfl hnext fun l hl => ⟨l, ?_, Live.Later.refl l⟩
    rw [show ({ w with inner } : World).inner.segments = inner.segments from rfl, hsegs] at hl
    exact List.mem_of_mem_filter hl
  have hsaved : w.Onward hands (if (durable && inner.metaDirty) = true then
      ({ w with inner } : World).saveMeta else Search.Outcome.ok { w with inner } ()).world hands := by
    split
    · exact hlifted.trans (saveMeta_same _).onward
    · exact hlifted
  generalize (if (durable && inner.metaDirty) = true then ({ w with inner } : World).saveMeta
    else Search.Outcome.ok { w with inner } ()) = saved at hsaved
  cases saved.val with
  | none => exact (Search.Outcome.meets_err _ _ _).mpr (hsaved.trans (restore_onward _ pending))
  | some u =>
    refine (Search.Outcome.meets_ok _ _ _ _).mpr ⟨hsaved.nextSegment, fun n hn => ?_, hsaved.segments⟩
    simp only [coming, List.map_append, List.mem_append] at hn
    rcases hn with hn | hn | hn
    · exact hsaved.coming n (List.mem_append_left _ hn)
    · refine Or.inr ?_
      rcases hstaged with ⟨-, -, h, -⟩ | ⟨-, h, -⟩
      · simp [Pending.hand, h] at hn
      · simp only [Pending.hand, h, List.map_cons, List.map_nil, List.mem_singleton] at hn
        omega
    · exact hsaved.coming n (List.mem_append_right _ hn)

theorem flushStaged_onward (h : w.Ok hands) (discretionary durable : Bool) :
    (w.flushStaged discretionary durable).Meets
      (fun w' p => w.Onward hands w' (p.hand ++ hands)) fun w' => w.Onward hands w' hands := by
  unfold flushStaged
  split
  · split
    · refine Search.Outcome.Meets.bind (Search.Outcome.Meets.of_world
        (I := fun w' => w.Onward hands w' hands) (saveMeta_same w).onward) fun w' _ hw' => ?_
      exact (Search.Outcome.meets_ok _ _ _ _).mpr hw'
    · exact (Search.Outcome.meets_ok _ _ _ _).mpr (.refl w hands)
  · obtain ⟨hok, -⟩ := killHidden_spec h
    have hspared : ({ w.killHidden.1 with
        inner := w.killHidden.1.inner.spareUnchanged } : World).Ok hands := spareUnchanged_ok hok
    have hspare : w.killHidden.1.Onward hands ({ w.killHidden.1 with
        inner := w.killHidden.1.inner.spareUnchanged } : World) hands := by
      rw [Inner.spareUnchanged_frame]
      exact .of_eq rfl rfl (le_refl _)
    have hkilled : w.Onward hands ({ w.killHidden.1 with
        inner := w.killHidden.1.inner.spareUnchanged } : World).killReplaced.1 hands :=
      ((killHidden_onward h).trans hspare).trans (killReplaced_onward hspared)
    exact (flushTake_onward _ _ _ _).mono (fun _ _ hw => hkilled.trans hw)
      fun _ hw => hkilled.trans hw

/-! ## Writing -/

theorem commitAlive_onward (w : World) (p : Pending) :
    (w.commitAlive p).Meets (fun w' _ => w.Onward (p.hand ++ hands) w' (p.hand ++ hands))
      fun w' => w.Onward (p.hand ++ hands) w' hands := by
  have hs : w.Onward (p.hand ++ hands) ({ w with disk := (writeAlive w.disk p.alive).1 } : World)
      (p.hand ++ hands) := (same_disk w _).onward
  unfold commitAlive
  simp only
  split
  · exact (Search.Outcome.meets_ok _ _ _ _).mpr hs
  · exact (Search.Outcome.meets_err _ _ _).mpr (hs.trans ((restore_onward _ p).trans (.drop _)))

theorem commitBuild_onward (w : World) (p : Pending) :
    (w.commitBuild p).Meets
      (fun w' live => w.Onward (p.hand ++ hands) w' (Held.hand (live.map .written) ++ hands))
      fun w' => w.Onward (p.hand ++ hands) w' hands := by
  unfold commitBuild
  cases hp : p.staged with
  | none => exact (Search.Outcome.meets_ok _ _ _ _).mpr (.drop _)
  | some s =>
    obtain ⟨number, generation, staged⟩ := s
    have hs : w.Onward (p.hand ++ hands)
        ({ w with disk := (Live.write w.disk number generation (build staged)).1 } : World)
        (p.hand ++ hands) := (same_disk w _).onward
    simp only
    cases hw : (Live.write w.disk number generation (build staged)).2 with
    | none => exact (Search.Outcome.meets_err _ _ _).mpr (hs.trans ((restore_onward _ p).trans (.drop _)))
    | some live =>
      refine (Search.Outcome.meets_ok _ _ _ _).mpr (hs.trans (.of_hands fun n hn => ?_))
      rw [hand_of_staged hp]
      simpa [Held.hand, (Live.write_stamp hw).1] using hn

/-- A segment that was in somebody's hands is in the list. -/
theorem install_onward (w : World) (live : Live) (m : Nat) (unwritten : List Nat) (dirty : Bool)
    (hm : w.inner.nextSegment ≤ m) {n : Nat} {rows : List Entry} (hn : live.number = n) :
    w.Onward ((n, rows) :: hands) { w with inner := { w.inner with
      nextSegment := m
      segments := Inner.sortSegments (w.inner.segments ++ [live])
      unwritten
      metaDirty := dirty } } hands := by
  refine ⟨hm, fun k hk => Or.inl ?_, fun l hl => ?_⟩
  · simp only [coming, List.map_cons, List.mem_append, List.mem_cons] at hk ⊢
    tauto
  · rcases List.mem_append.mp ((sortSegments_perm _).mem_iff.mp hl) with hl | hl
    · exact Or.inl ⟨l, hl, Live.Later.refl l⟩
    · refine Or.inr (Or.inl ?_)
      rw [List.mem_singleton.mp hl, hn]
      simp [coming]

theorem takeOff_onward (w : World) (number generation : Nat) (staged : List Entry) :
    (w.takeOff number generation staged).Meets
      (fun w' _ => w.Onward ((number, staged) :: hands) w' hands)
      fun w' => w.Onward ((number, staged) :: hands) w' hands := by
  unfold takeOff
  simp only
  split
  · refine (Search.Outcome.meets_err _ _ _).mpr
      ⟨le_refl _, fun n hn => Or.inl ?_, fun l hl => Or.inl ⟨l, hl, Live.Later.refl l⟩⟩
    simp only [coming, List.map_cons, List.mem_append, List.mem_cons] at hn ⊢
    exact hn.imp_right Or.inr
  · refine (Search.Outcome.meets_ok _ _ _ _).mpr
      ⟨le_refl _, fun n hn => Or.inl ?_, fun l hl => Or.inl ⟨l, hl, Live.Later.refl l⟩⟩
    simp only [coming, Building.numbers, List.map_append, List.map_cons, List.map_nil,
      List.mem_append, List.mem_cons, List.not_mem_nil, or_false] at hn ⊢
    tauto

theorem publishInstall_onward (w : World) (p : Pending) :
    (w.publishInstall p).Meets (fun w' _ => w.Onward (p.hand ++ hands) w' hands)
      fun w' => w.Onward (p.hand ++ hands) w' hands := by
  unfold publishInstall
  cases hp : p.staged with
  | none => exact (Search.Outcome.meets_ok _ _ _ _).mpr (.drop _)
  | some s =>
    obtain ⟨number, generation, staged⟩ := s
    have hb : Live.fromBytes number generation (build staged) =
        some (.ofBytes number generation (build staged)) := Live.fromBytes_buildSorted _ _ _
    simp only [hb]
    rw [hand_of_staged hp]
    exact (Search.Outcome.meets_ok _ _ _ _).mpr
      (install_onward w _ _ _ w.inner.metaDirty (le_max_left _ _) rfl)

/-! ## Folds, and segments written down -/

theorem foldTo_onward (w : World) (which : List Nat) (durable : Bool) :
    w.Onward hands (w.foldTo which durable).world hands := by
  rcases w.foldTo_cases which durable with ⟨disk, m, dirty, hm, heq⟩ |
    ⟨disk, input, folded, w₁, rfl, -, -, hf, -, hs⟩
  · rw [heq]
    exact .of_eq rfl rfl hm
  · refine Onward.trans ?_ hs.onward
    refine ⟨?_, fun n hn => Or.inl hn, fun l hl => ?_⟩
    · exact le_trans (Nat.le_succ _) (le_max_left _ _)
    · rcases List.mem_append.mp ((sortSegments_perm _).mem_iff.mp hl) with hl | hl
      · exact Or.inl ⟨l, List.mem_of_mem_filter hl, Live.Later.refl l⟩
      · rcases hf with ⟨rfl, -⟩ | rfl
        · cases hl
        · rw [List.mem_singleton.mp hl]
          exact Or.inr (Or.inr (le_refl _))

/-- The copy that was written is the segment it was made of, with the bits that segment has by
now. -/
theorem adoptAlive_later {live written : Live} (hn : written.number = live.number)
    (hg : written.generation = live.generation) (hs : written.seg = live.seg) :
    live.Later (written.adoptAlive live) :=
  ⟨hn, hg, hs, rfl, fun _ h => h, le_refl _, fun _ => rfl⟩

theorem adoptWritten_onward (w : World) {number deaths : Nat} {written : Live}
    (h : ∀ live, w.inner.segment? number = some live → live.Later (written.adoptAlive live)) :
    w.Onward hands (w.adoptWritten number deaths written) hands := by
  unfold adoptWritten
  cases hl : w.inner.segment? number with
  | none => exact .of_eq rfl rfl (le_refl _)
  | some live =>
    refine .of_later rfl (le_refl _) fun l' hl' => ?_
    obtain ⟨l, hm, rfl⟩ := List.mem_map.mp hl'
    split
    · exact ⟨live, (Inner.mem_of_segment? hl).1, h live hl⟩
    · exact ⟨l, hm, Live.Later.refl l⟩

/-- What is written of a segment is that segment. -/
theorem write_bytes {live written : Live} (hlive : live.Ok) {d : Disk} {number generation : Nat}
    (hw : (Live.write d number generation live.bytes).2 = some written) :
    written.number = number ∧ written.generation = generation ∧ written.seg = live.seg := by
  have hfull := (Live.fromBytes_bytes hlive number generation).1
  exact ⟨(Live.write_stamp hw).1, (Live.write_stamp hw).2,
    Live.assemble_seg (Live.write_eq _ _ _ _ hfull _ hw)⟩

theorem writeUnwritten_onward (h : w.Ok hands) (number : Nat) :
    w.Onward hands (w.writeUnwritten number).world hands := by
  unfold writeUnwritten
  cases hl : w.inner.segment? number with
  | none => exact .refl w hands
  | some live =>
    obtain ⟨hmem, hnumber⟩ := Inner.mem_of_segment? hl
    simp only
    split
    · exact .refl w hands
    · have hdisk : w.Onward hands
          ({ w with disk := (Live.write w.disk number live.generation live.bytes).1 } : World) hands :=
        (same_disk w _).onward
      cases hw : (Live.write w.disk number live.generation live.bytes).2 with
      | none => exact hdisk
      | some written =>
        obtain ⟨h1, h2, h3⟩ := write_bytes (h.segments live hmem) hw
        refine hdisk.trans (adoptWritten_onward _ fun live' hl' => ?_)
        obtain rfl : live = live' := Option.some.inj (hl.symm.trans hl')
        exact adoptAlive_later (h1.trans hnumber.symm) h2 h3

/-! ## Sweeps -/

theorem sweepJudge_onward (h : w.Ok hands) (source : SourceId) (under : List Root)
    (generation : Nat) (spare : PrefixSet) :
    w.Onward hands (w.sweepJudge source under generation spare).world hands := by
  have hclosed : (w.closeGeneration generation).inner.segments = w.inner.segments ∧
      (w.closeGeneration generation).building = w.building ∧
        (w.closeGeneration generation).inner.nextSegment = w.inner.nextSegment := by
    unfold closeGeneration
    split <;> exact ⟨rfl, rfl, rfl⟩
  unfold sweepJudge
  refine .of_later ?_ ?_ fun l' hl' => ?_
  · show (w.closeGeneration generation).building.numbers = _
    rw [hclosed.2.1]
  · show _ ≤ (w.closeGeneration generation).inner.nextSegment
    rw [hclosed.2.2]
  · have hl' := List.mem_of_mem_filter hl'
    unfold sweepSegments at hl'
    rw [List.map_map, hclosed.1] at hl'
    obtain ⟨l, hl, rfl⟩ := List.mem_map.mp hl'
    refine ⟨l, hl, ?_⟩
    rw [Function.comp_apply]
    split
    · exact Live.Later.refl l
    · exact Live.killAll_later _ l (h.segments l hl).length_le

theorem forgetKill_onward (h : w.Ok hands) (source : SourceId) :
    w.Onward hands (w.forgetKill source).1 hands := by
  refine .of_later rfl (le_refl _) fun l' hl' => ?_
  have hl' : l' ∈ (w.inner.segments.map fun l => l.killAll ((List.range l.rows).filter fun row =>
    l.isAlive row && l.seg.sourceOf row == source)).map (·.1) := hl'
  rw [List.map_map] at hl'
  obtain ⟨l, hl, rfl⟩ := List.mem_map.mp hl'
  exact ⟨l, hl, Live.killAll_later _ l (h.segments l hl).length_le⟩

theorem emptied_onward (w : World) : w.Onward hands w.emptied hands :=
  .of_later rfl (le_refl _) fun l hl => ⟨l, List.mem_of_mem_filter hl, Live.Later.refl l⟩

end World

end Scour
