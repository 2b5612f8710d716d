import Scour.Callers
import Scour.Table

/-!
# The parts of a call, beside what others carry

Every part of a call that lets go of the lock keeps the index in order with whatever the other
callers carry, and goes onward (`Goes`), one lemma for each part.  The steps under the lock are those
of `soundKeeper` and `onwardKeeper`, side by side (`Keeper.and`); a run that is followed closely is
one in which no file operation fails (`Keeper.calm`).
-/

namespace Scour

/-! ## Keepers side by side -/

section
variable {G : Guards} {I J : List Change → World → Option Held → Prop}
  {E F : List Change → World → Prop}

/-- Two invariants kept by the same steps. -/
theorem Keeper.and (K : Keeper G I E) (L : Keeper .free J F) :
    Keeper G (fun cs w held => I cs w held ∧ J cs w held) fun cs w => E cs w ∧ F cs w where
  numbered h := K.numbered h.1
  stage h hg := ⟨K.stage h.1 hg, L.stage h.2 trivial⟩
  hide h := ⟨K.hide h.1, L.hide h.2⟩
  rescan h := ⟨K.rescan h.1, L.rescan h.2⟩
  told h := ⟨K.told h.1, L.told h.2⟩
  land h hj := ⟨K.land h.1 hj, L.land h.2 hj⟩
  collect h hg := (K.collect h.1 hg).and (L.collect h.2 trivial)
  flush h hg := (K.flush h.1 hg).and (L.flush h.2 trivial)
  commitAlive h := (K.commitAlive h.1).and (L.commitAlive h.2)
  commitBuild h := (K.commitBuild h.1).and (L.commitBuild h.2)
  install h hn := (K.install h.1 hn).and (L.install h.2 hn)
  takeOff h hp hg hf := (K.takeOff h.1 hp hg hf).and (L.takeOff h.2 hp trivial hf)
  oweAlive h := ⟨K.oweAlive h.1, L.oweAlive h.2⟩
  publishInstall h := (K.publishInstall h.1).and (L.publishInstall h.2)
  foldTo h hu := (K.foldTo h.1 hu).and (L.foldTo h.2 hu)
  writeUnwritten h := (K.writeUnwritten h.1).and (L.writeUnwritten h.2)
  writeDirtyAlive h := (K.writeDirtyAlive h.1).and (L.writeDirtyAlive h.2)
  saveMeta h := (K.saveMeta h.1).and (L.saveMeta h.2)

/-- `Keeper.unfailing` for a run that is asked not to fail only where it is followed closely. -/
theorem Keeper.calm (K : Keeper G I E) (calm : Prop)
    (hok : ∀ {cs w}, I cs w none → ∀ l ∈ w.inner.segments, l.Ok) :
    Keeper G (fun cs w held => I cs w held ∧ (calm → w.Unfailing)) fun cs w => E cs w ∧ ¬ calm := by
  by_cases h : calm
  · have := K.unfailing hok
    simpa only [h, true_imp_iff, not_true_eq_false, and_false] using this
  · simpa only [h, false_imp_iff, not_false_eq_true, and_true] using K

end

/-! ## What callers carry -/

namespace Caller

/-- The hand of a caller that may be done. -/
def after : Option Caller → List Hand
  | none => []
  | some x => x.hand

/-- What is known of what a caller carries. -/
def Fits (care : Care) (w : World) (hands : List Hand) : Caller → Prop
  | .lifted p | .building p | .published p => p.prefixes.Clean
  | .refused p => p.prefixes.Clean ∧ ¬ care.once
  | .written live => live.Ok
  | .merged which _ _ input => ∃ segs, w.FoldOf hands which input.snapshot segs ∧
      input.bytes = buildSorted (mergeRows segs)
  | .folded which number _ snapshot live => ∃ segs, w.FoldOf hands which snapshot segs ∧
      World.MergeOf segs number live
  | .copied number generation _ bytes => ∃ l, w.Tracked hands l ∧ l.number = number ∧
      l.generation = generation ∧ l.bytes = bytes
  | .saved number _ live => ∃ l, w.Tracked hands l ∧ l.number = number ∧ live.number = number ∧
      live.generation = l.generation ∧ live.seg = l.seg
  | .asked _ | .unmarked .. | .claimed .. => True

variable {care : Care} {w w' : World} {hands hands' : List Hand}

theorem Fits.onward {x : Caller} (h : x.Fits care w hands) (ho : w.Onward hands w' hands') :
    x.Fits care w' hands' := by
  cases x with
  | merged =>
    obtain ⟨segs, h1, h2⟩ := h
    exact ⟨segs, h1.onward ho, h2⟩
  | folded =>
    obtain ⟨segs, h1, h2⟩ := h
    exact ⟨segs, h1.onward ho, h2⟩
  | copied =>
    obtain ⟨l, h1, h2⟩ := h
    exact ⟨l, h1.onward ho, h2⟩
  | saved =>
    obtain ⟨l, h1, h2⟩ := h
    exact ⟨l, h1.onward ho, h2⟩
  | _ => exact h

end Caller

namespace World

variable {care : Care} {V : Set Entry} {w w' : World} {hands hands' : List Hand}

theorem Sound.hands_perm (h : w.Sound care V hands) (hp : hands'.Perm hands) :
    w.Sound care V hands' := by
  have hn : (w.numbers hands').Perm (w.numbers hands) := (hp.map _).append_left _
  refine h.of_perm ⟨h.segments, hn.nodup_iff.mpr h.nodup, fun n hm => h.fresh n (hn.mem_iff.mp hm),
    h.building, h.clean⟩ ⟨rfl, rfl, rfl, rfl⟩ ((hp.flatMap_right _).append_left _)
    fun rows hr => ⟨rows, ?_, List.Perm.refl _⟩
  exact ((hp.map _).append_left _).mem_iff.mp hr

/-- A number is claimed. -/
theorem foldClaim_sound (h : w.Sound care V hands) (durable : Bool) :
    (w.foldClaim durable).1.Sound care V ((w.inner.nextSegment, []) :: hands) where
  segments := h.segments
  nodup := by
    have hp : (w.numbers ((w.inner.nextSegment, []) :: hands)).Perm
        (w.inner.nextSegment :: w.numbers hands) := List.perm_middle
    refine hp.nodup_iff.mpr (List.nodup_cons.mpr ⟨fun hm => ?_, h.nodup⟩)
    exact lt_irrefl _ (h.fresh _ hm)
  fresh n hn := by
    have hp : (w.numbers ((w.inner.nextSegment, []) :: hands)).Perm
        (w.inner.nextSegment :: w.numbers hands) := List.perm_middle
    show n < w.inner.nextSegment + 1
    rcases List.mem_cons.mp (hp.mem_iff.mp hn) with rfl | hn
    · omega
    · have := h.fresh n hn
      omega
  building := h.building
  clean := h.clean
  unique := h.unique
  slots := h.slots
  apart ho rows hr := by
    simp only [batches, List.map_cons, List.mem_append, List.mem_cons] at hr
    rcases hr with hr | rfl | hr
    · exact h.apart ho rows (List.mem_append_left _ (List.mem_append.mpr hr))
    · exact List.nodup_nil
    · exact h.apart ho rows (List.mem_append_right _ hr)
  closed := h.closed
  view := h.view

theorem foldClaim_onward (w : World) (durable : Bool) :
    w.Onward hands (w.foldClaim durable).1 ((w.inner.nextSegment, []) :: hands) := by
  refine ⟨Nat.le_succ _, fun n hn => ?_, fun l hl => Or.inl ⟨l, hl, Live.Later.refl l⟩⟩
  simp only [coming, List.map_cons, List.mem_append, List.mem_cons] at hn ⊢
  rcases hn with hn | rfl | hn
  · exact Or.inl (Or.inl hn)
  · exact Or.inr (le_refl _)
  · exact Or.inl (Or.inr hn)

/-- A number that was claimed for nothing. -/
theorem Sound.unclaim {n : Nat} (h : w.Sound care V ((n, []) :: hands)) :
    w.Sound care V hands := by
  have hsub : (w.numbers hands).Sublist (w.numbers ((n, []) :: hands)) :=
    List.Sublist.append_left (List.sublist_cons_self _ _) _
  refine h.of_perm ⟨h.segments, h.nodup.sublist hsub, fun m hm => h.fresh m (hsub.subset hm),
    h.building, h.clean⟩ ⟨rfl, rfl, rfl, rfl⟩ (List.Perm.refl _) fun rows hr =>
      ⟨rows, ?_, List.Perm.refl _⟩
  simp only [batches, List.map_cons, List.mem_append, List.mem_cons] at hr ⊢
  tauto

/-! ## Folds and written copies -/

section
variable {which : List Nat} {snapshot : List (Nat × Nat)} {segs : List Live} {number : Nat}
  {live : Option Live} {durable : Bool}

/-- What a fold leaves, whoever did what since its inputs were merged: the rows there were. -/
theorem foldPublish_keeps (hw : w.Ok hands) (hf : w.FoldOf hands which snapshot segs)
    (hl : MergeOf segs number live) :
    (w.foldPublish which number snapshot live durable).world.liveRows.Perm w.liveRows := by
  rcases w.foldPublish_cases which number snapshot live durable with ⟨-, disk, heq⟩ | ⟨hc, hs⟩
  · rw [heq]
    exact List.Perm.refl _
  · unfold liveRows
    rw [hs.segments]
    exact putFolded_rows hf hw hc hl durable

theorem putFolded_sound (h : w.Sound care V ((number, []) :: hands))
    (hf : w.FoldOf ((number, []) :: hands) which snapshot segs)
    (hc : w.foldCurrent which snapshot = true) (hl : MergeOf segs number live) :
    ({ w with inner := w.inner.putFolded which number live durable } : World).Sound care V hands := by
  have hp := sortSegments_perm ((w.inner.segments.filter fun l => !which.contains l.number) ++
    live.toList)
  have hnumbers : ({ w with inner := w.inner.putFolded which number live durable } :
      World).numbers hands |>.Subperm (w.numbers ((number, []) :: hands)) := by
    have hlive : (live.toList.map (·.number)).Sublist [number] := by
      rcases hl with ⟨rfl, -⟩ | ⟨g, rfl⟩
      · exact List.nil_sublist _
      · exact List.Sublist.refl _
    have hsegs : ((w.inner.putFolded which number live durable).segments.map (·.number)).Subperm
        (w.inner.segments.map (·.number) ++ [number]) := by
      refine (hp.map _).subperm.trans ?_
      rw [List.map_append]
      exact (List.Sublist.append (List.filter_sublist.map _) hlive).subperm
    have hmiddle : (w.inner.segments.map (·.number) ++ [number] ++ w.building.numbers ++
        hands.map (·.1)).Perm (w.numbers ((number, []) :: hands)) := by
      unfold numbers
      simp only [List.map_cons, List.append_assoc, List.singleton_append]
      exact List.Perm.append_left _ List.perm_middle.symm
    exact (((List.subperm_append_right _).mpr ((List.subperm_append_right _).mpr hsegs))).trans
      hmiddle.subperm
  obtain ⟨numbers, hperm, hsub⟩ := hnumbers
  refine h.of_perm ⟨fun l hm => ?_, hperm.nodup_iff.mp (h.nodup.sublist hsub), fun n hn => ?_,
    h.building, h.clean⟩ ⟨rfl, rfl, rfl, rfl⟩ ?_ fun rows hr => ⟨rows, ?_, List.Perm.refl _⟩
  · rcases List.mem_append.mp (hp.mem_iff.mp hm) with hm | hm
    · exact h.segments l (List.mem_of_mem_filter hm)
    · exact (hl.ok l hm).2
  · exact lt_of_lt_of_le (h.fresh n (hsub.subset (hperm.mem_iff.mpr hn))) (le_max_left _ _)
  · exact List.Perm.append_right _ (List.Perm.append_right _
      (putFolded_rows hf h.toOk hc hl durable))
  · simp only [batches, List.map_cons, List.mem_append, List.mem_cons] at hr ⊢
    tauto

theorem foldPublish_sound (h : w.Sound care V ((number, []) :: hands))
    (hf : w.FoldOf ((number, []) :: hands) which snapshot segs) (hl : MergeOf segs number live) :
    (w.foldPublish which number snapshot live durable).world.Sound care V hands := by
  rcases w.foldPublish_cases which number snapshot live durable with ⟨-, disk, heq⟩ | ⟨hc, hs⟩
  · rw [heq]
    exact ((same_disk w disk).sound h).unclaim
  · exact hs.sound (putFolded_sound h hf hc hl)

theorem foldPublish_onward (hl : MergeOf segs number live) :
    w.Onward ((number, []) :: hands) (w.foldPublish which number snapshot live durable).world
      hands := by
  rcases w.foldPublish_cases which number snapshot live durable with ⟨-, disk, heq⟩ | ⟨-, hs⟩
  · rw [heq]
    exact (Onward.drop [(number, [])]).trans (same_disk w disk).onward
  · refine Onward.trans ⟨le_max_left _ _, fun n hn => Or.inl ?_, fun l hm => ?_⟩ hs.onward
    · simp only [coming, List.map_cons, List.mem_append, List.mem_cons] at hn ⊢
      tauto
    · rcases List.mem_append.mp ((sortSegments_perm _).mem_iff.mp hm) with hm | hm
      · exact Or.inl ⟨l, List.mem_of_mem_filter hm, Live.Later.refl l⟩
      · refine Or.inr (Or.inl ?_)
        rw [(hl.ok l hm).1]
        simp [coming]

end

section
variable {number deaths : Nat} {live l : Live}

theorem saved_later (hl : w.Tracked hands l) (hn : l.number = number) (hn' : live.number = number)
    (hg : live.generation = l.generation) (hs : live.seg = l.seg) :
    ∀ l', w.inner.segment? number = some l' →
      live.number = l'.number ∧ live.seg = l'.seg ∧ l'.Later (live.adoptAlive l') := by
  intro l' hl'
  obtain ⟨hm, hnumber⟩ := Inner.mem_of_segment? hl'
  have hlater := hl.later l' hm (hnumber.trans hn.symm)
  have h1 : live.number = l'.number := hn'.trans hnumber.symm
  have h2 : live.seg = l'.seg := hs.trans hlater.seg.symm
  exact ⟨h1, h2, adoptAlive_later h1 (hg.trans hlater.generation.symm) h2⟩

/-- The written copy leaves the rows there were. -/
theorem adoptWritten_keeps (hw : w.Ok hands)
    (h : ∀ l', w.inner.segment? number = some l' → live.number = l'.number ∧ live.seg = l'.seg) :
    (w.adoptWritten number deaths live).liveRows = w.liveRows := by
  unfold adoptWritten
  cases hl : w.inner.segment? number with
  | none => rfl
  | some l' =>
    obtain ⟨hm, hnumber⟩ := Inner.mem_of_segment? hl
    show List.flatMap Live.entries (w.inner.segments.map _) = _
    rw [List.flatMap_map]
    refine List.flatMap_congr fun l hmem => ?_
    split
    · rename_i heq
      obtain rfl := number_eq hw.segments_nodup hmem hm (heq.trans hnumber.symm)
      exact Live.entries_congr (h l hl).2 rfl
    · rfl

end

/-! ## One part of a call -/

theorem Sound.loosely (h : w.Sound care V hands) (V' : Set Entry) : w.Sound .loosely V' hands :=
  ⟨h.toOk, False.elim, False.elim, False.elim, False.elim, False.elim⟩

/-- What a part of a call leaves, beside what the others carry. -/
structure Goes (care : Care) (V : Set Entry) (w : World) (x : Caller) (others : List Hand)
    (r : World × Option Caller) : Prop where
  sound : r.1.Sound care V (Caller.after r.2 ++ others)
  onward : w.Onward (x.hand ++ others) r.1 (Caller.after r.2 ++ others)
  fits : ∀ y ∈ r.2, y.Fits care r.1 (Caller.after r.2 ++ others)
  calm : care.once → r.1.Unfailing

variable {x y : Caller} {others : List Hand}

/-- The caller is done. -/
theorem Goes.done (hs : w'.Sound care V others) (ho : w.Onward (x.hand ++ others) w' others)
    (hc : care.once → w'.Unfailing) : Goes care V w x others (w', none) :=
  ⟨hs, ho, fun _ hy => (by cases hy), hc⟩

/-- The caller goes on. -/
theorem Goes.next (hs : w'.Sound care V (y.hand ++ others))
    (ho : w.Onward (x.hand ++ others) w' (y.hand ++ others))
    (hf : y.Fits care w' (y.hand ++ others)) (hc : care.once → w'.Unfailing) :
    Goes care V w x others (w', some y) :=
  ⟨hs, ho, fun _ hy => (by cases hy; exact hf), hc⟩

/-- Only the directory moved. -/
theorem Goes.disk (h : w.Sound care V (x.hand ++ others)) (disk : Disk) (hy : y.hand = x.hand)
    (hf : y.Fits care { w with disk } (y.hand ++ others))
    (hc : care.once → disk.faults = [] ∧ failedRows w.building.landed = []) :
    Goes care V w x others ({ w with disk }, some y) := by
  have hs := same_disk w disk
  refine .next ?_ ?_ hf fun ho => ⟨(hc ho).1, (hc ho).2⟩
  · rw [hy]
    exact hs.sound h
  · rw [hy]
    exact hs.onward

/-- The steps of the write path keep the rows beside what others carry, under these guards. -/
abbrev Beside (G : Guards) (care : Care) (table : Set Entry) (others : List Hand) : Prop :=
  Keeper G (fun cs w held => Stands care table others cs w held ∧ (care.once → w.Unfailing))
    fun cs w => Stands care table others cs w none ∧ ¬ care.once

theorem soundBeside (care : Care) (table : Set Entry) (others : List Hand) :
    Beside (soundGuards care others) care table others :=
  (soundKeeper care table others).calm care.once fun h => h.sound.segments

section
variable {G : Guards} {table : Set Entry} {cs : List Change}

/-- They go onward besides. -/
theorem Beside.onward (K : Beside G care table others) (w₀ : World) (hands₀ : List Hand) :
    Keeper G (fun cs w held => (Stands care table others cs w held ∧ (care.once → w.Unfailing)) ∧
        Follows w₀ hands₀ others cs w held)
      fun cs w => (Stands care table others cs w none ∧ ¬ care.once) ∧
        Follows w₀ hands₀ others cs w none :=
  Keeper.and K (onwardKeeper w₀ hands₀ others).toKeeper

theorem together_free (h : w.Sound care (tableAfter table cs) others)
    (hc : care.once → w.Unfailing) :
    (Stands care table others cs w none ∧ (care.once → w.Unfailing)) ∧
      Follows w others others cs w none :=
  ⟨⟨.free h, hc⟩, .free (h.loosely _), .refl w others⟩

/-- A batch is lifted out of the buffer. -/
theorem flushPrepare_goes (K : Beside G care table others)
    (h : w.Sound care (tableAfter table cs) others) (hc : care.once → w.Unfailing) (durable : Bool)
    (hg : G.flushes false w) :
    (w.flushPrepare false durable).Meets
      (fun w' p => (w'.Sound care (tableAfter table cs) (p.hand ++ others) ∧
        w.Onward others w' (p.hand ++ others)) ∧ p.prefixes.Clean ∧ (care.once → w'.Unfailing))
      fun w' => (w'.Sound care (tableAfter table cs) others ∧ w.Onward others w' others) ∧
        ¬ care.once :=
  ((K.onward w others).flushPrepare (together_free h hc) hg).mono
    (fun _ p hw => ⟨⟨hw.1.1.sound, hw.2.2⟩, (hw.1.1.batch p rfl).clean, hw.1.2⟩)
    fun _ hw => ⟨⟨hw.1.1.sound, hw.2.2⟩, hw.1.2⟩

theorem commit_goes (K : Beside G care table others)
    (h : w.Sound care (tableAfter table cs) others) (hc : care.once → w.Unfailing)
    (hg : G.flushes false w) :
    Goes care (tableAfter table cs) w (.asked .commit) others
      ((Caller.asked .commit).go w) := by
  have hr := flushPrepare_goes K h hc true hg
  show Goes _ _ _ _ _ ((w.flushPrepare false true).world, (w.flushPrepare false true).val.map _)
  cases hv : (w.flushPrepare false true).val with
  | none =>
    obtain ⟨⟨h1, h2⟩, hno⟩ := hr.2 hv
    exact .done h1 h2 fun ho => absurd ho hno
  | some p =>
    obtain ⟨⟨h1, h2⟩, hclean, hcalm⟩ := hr.1 p hv
    exact .next h1 h2 hclean hcalm

theorem publish_goes (K : Beside G care table others)
    (h : w.Sound care (tableAfter table cs) others) (hc : care.once → w.Unfailing)
    (hg : G.flushes false w) :
    Goes care (tableAfter table cs) w (.asked .publish) others
      ((Caller.asked .publish).go w) := by
  have hr : w.publishPrepare.Meets
      (fun w' p => (w'.Sound care (tableAfter table cs) (p.hand ++ others) ∧
        w.Onward others w' (p.hand ++ others)) ∧ p.prefixes.Clean ∧ (care.once → w'.Unfailing))
      fun w' => (w'.Sound care (tableAfter table cs) others ∧ w.Onward others w' others) ∧
        ¬ care.once := by
    refine (flushPrepare_goes K h hc false hg).bind fun w' p hw => ?_
    obtain ⟨⟨h1, h2⟩, hclean, hcalm⟩ := hw
    have hs : w'.Same (w'.oweAlive p) := ⟨rfl, rfl, rfl, rfl, rfl, rfl, rfl, rfl, rfl, le_refl _⟩
    exact (Search.Outcome.meets_ok _ _ _ _).mpr ⟨⟨hs.sound h1, h2.trans hs.onward⟩, hclean,
      fun ho => ⟨(hcalm ho).faults, (hcalm ho).landed⟩⟩
  show Goes _ _ _ _ _ (w.publishPrepare.world, w.publishPrepare.val.map _)
  cases hv : w.publishPrepare.val with
  | none =>
    obtain ⟨⟨h1, h2⟩, hno⟩ := hr.2 hv
    exact .done h1 h2 fun ho => absurd ho hno
  | some p =>
    obtain ⟨⟨h1, h2⟩, hclean, hcalm⟩ := hr.1 p hv
    exact .next h1 h2 hclean hcalm

theorem written_goes {live : Live}
    (h : w.Sound care (tableAfter table cs) ((live.number, live.entries) :: others))
    (hl : live.Ok) (hc : care.once → w.Unfailing) :
    Goes care (tableAfter table cs) w (.written live) others ((Caller.written live).go w) := by
  have h0 : (Stands care table others cs w (some (.written live)) ∧ (care.once → w.Unfailing)) ∧
      Follows w ((live.number, live.entries) :: others) others cs w (some (.written live)) := by
    refine ⟨⟨⟨h, fun p hp => (by cases hp), fun l heq => ?_⟩, hc⟩, ⟨h.loosely _,
      fun p hp => (by cases hp), fun l heq => ?_⟩, .refl w _⟩
    · cases heq
      exact hl
    · cases heq
      exact hl
  exact ((((soundBeside care table others).onward w _).install h0 (le_refl _)).mono
    (fun w' _ hw => (.done hw.1.1.sound hw.2.2 hw.1.2 : Goes care (tableAfter table cs) w
      (.written live) others (w', none)))
    fun _ hw => .done hw.1.1.sound hw.2.2 fun ho => absurd ho hw.1.2).world

end

theorem lifted_goes {p : Pending} (h : w.Sound care V (p.hand ++ others)) (hp : p.prefixes.Clean)
    (hc : care.once → w.Unfailing) :
    Goes care V w (.lifted p) others ((Caller.lifted p).go w) := by
  have hfaults : care.once → (writeAlive w.disk p.alive).2 = true ∧
      (writeAlive w.disk p.alive).1.faults = [] := fun ho => writeAlive_returns p.alive (hc ho).faults
  unfold Caller.go
  simp only
  cases hok : (writeAlive w.disk p.alive).2 with
  | true =>
    simp only [if_true]
    exact .disk h _ rfl hp fun ho => ⟨(hfaults ho).2, (hc ho).landed⟩
  | false =>
    simp only [Bool.false_eq_true, if_false]
    refine .disk h _ rfl ⟨hp, fun ho => ?_⟩ fun ho => ⟨(hfaults ho).2, (hc ho).landed⟩
    rw [(hfaults ho).1] at hok
    cases hok

theorem building_goes {p : Pending} (h : w.Sound care V (p.hand ++ others)) (hp : p.prefixes.Clean)
    (hc : care.once → w.Unfailing) :
    Goes care V w (.building p) others ((Caller.building p).go w) := by
  cases hst : p.staged with
  | none =>
    have hgo : (Caller.building p).go w = (w, none) := by simp only [Caller.go, hst]
    have hh : p.hand = [] := by simp [Pending.hand, hst]
    have hs : w.Sound care V others := by
      rw [hh] at h
      exact h
    rw [hgo]
    exact .done hs (.drop _) hc
  | some s =>
    obtain ⟨number, generation, staged⟩ := s
    have hfaults : care.once →
        (Live.write w.disk number generation (build staged)).2 =
          some (.ofBytes number generation (build staged)) ∧
            (Live.write w.disk number generation (build staged)).1.faults = [] :=
      fun ho => Live.write_build (hc ho).faults number generation (staged.insertionSort storedLe)
    cases hw : (Live.write w.disk number generation (build staged)).2 with
    | none =>
      have hgo : (Caller.building p).go w = ({ w with
          disk := (Live.write w.disk number generation (build staged)).1 }, some (.refused p)) := by
        simp only [Caller.go, hst, hw]
      rw [hgo]
      refine .disk h _ rfl ⟨hp, fun ho => ?_⟩ fun ho => ⟨(hfaults ho).2, (hc ho).landed⟩
      rw [(hfaults ho).1] at hw
      cases hw
    | some live =>
      have hgo : (Caller.building p).go w = ({ w with
          disk := (Live.write w.disk number generation (build staged)).1 },
            some (.written live)) := by
        simp only [Caller.go, hst, hw]
      rw [hgo]
      have heq := Live.write_eq _ _ _ _ (Live.build_full _) _ hw
      rw [Live.fromBytes_buildSorted] at heq
      cases heq
      have hs := same_disk w (Live.write w.disk number generation (build staged)).1
      rw [hand_of_staged hst] at h
      obtain ⟨h1, h2⟩ := written_sound (g := generation) (hs.sound h)
      refine Goes.next (y := .written _) h1 (hs.onward.trans (.of_hands fun n hn => ?_)) h2
        fun ho => ⟨(hfaults ho).2, (hc ho).landed⟩
      show n ∈ List.map _ (p.hand ++ others)
      rw [hand_of_staged hst]
      exact hn

theorem refused_goes {p : Pending} (h : w.Sound care V (p.hand ++ others)) (hp : p.prefixes.Clean)
    (ho : ¬ care.once) : Goes care V w (.refused p) others ((Caller.refused p).go w) :=
  .done (restore_sound h ⟨hp, fun h => absurd h ho, fun h => absurd (care.once_of_exactly h) ho⟩)
    ((restore_onward w p).trans (.drop _)) fun h => absurd h ho

theorem published_goes {p : Pending} (h : w.Sound care V (p.hand ++ others))
    (hc : care.once → w.Unfailing) :
    Goes care V w (.published p) others ((Caller.published p).go w) := by
  have ho : w.Onward (p.hand ++ others) (w.publishInstall p).world others :=
    (publishInstall_onward w p).world
  have hcalm : care.once → (w.publishInstall p).world.Unfailing := fun hon =>
    ((publishInstall_returns (hc hon) p).mono (fun _ _ hw => hw) fun _ hw => hw.elim).world
  refine .done ?_ ho hcalm
  unfold publishInstall
  cases hp : p.staged with
  | none =>
    have hh : p.hand = [] := by simp [Pending.hand, hp]
    rw [hh] at h
    exact h
  | some s =>
    obtain ⟨number, generation, staged⟩ := s
    rw [hand_of_staged hp] at h
    obtain ⟨h1, h2⟩ := written_sound (g := generation) h
    have hb : Live.fromBytes number generation (build staged) =
        some (.ofBytes number generation (build staged)) := Live.fromBytes_buildSorted _ _ _
    simp only [hb]
    exact install_sound h2 h1 (max w.inner.nextSegment (number + 1))
      (w.inner.unwritten ++ [number]) w.inner.metaDirty (le_max_left _ _)

theorem claimed_goes {which : List Nat} {number : Nat} {durable : Bool}
    (h : w.Sound care V ((number, []) :: others)) (hc : care.once → w.Unfailing) :
    Goes care V w (.claimed which number durable) others
      ((Caller.claimed which number durable).go w) := by
  show Goes _ _ _ _ _ (w, (w.foldBuild which).map _)
  cases hb : w.foldBuild which with
  | none => exact .done h.unclaim (.drop [(number, [])]) hc
  | some input => exact .next h (.refl w _) (foldBuild_of h.toOk hb) hc

theorem merged_goes {which : List Nat} {number : Nat} {durable : Bool} {input : FoldInput}
    (h : w.Sound care V ((number, []) :: others))
    (hf : (Caller.merged which number durable input).Fits care w ((number, []) :: others))
    (hc : care.once → w.Unfailing) :
    Goes care V w (.merged which number durable input) others
      ((Caller.merged which number durable input).go w) := by
  obtain ⟨segs, hof, hbytes⟩ := hf
  obtain ⟨⟨disk, hd⟩, hthen⟩ := foldWrite_spec (w := w) number durable hbytes
  have hs := same_disk w disk
  have hcalm : care.once → (w.foldWrite number input durable).world.Unfailing := fun ho =>
    ((foldWrite_returns (hc ho) hbytes).mono (fun _ _ hw => hw) fun _ hw => hw.elim).world
  show Goes _ _ _ _ _ ((w.foldWrite number input durable).world,
    (w.foldWrite number input durable).val.map _)
  rw [hd] at hcalm ⊢
  cases hv : (w.foldWrite number input durable).val with
  | none => exact .done (hs.sound h).unclaim (hs.onward.trans (.drop [(number, [])])) hcalm
  | some live =>
    refine .next (hs.sound h) hs.onward ⟨segs, hof.onward hs.onward, ?_⟩ hcalm
    exact (hthen live hv).imp_right fun heq => ⟨input.generation, heq⟩

theorem folded_goes {which : List Nat} {number : Nat} {durable : Bool}
    {snapshot : List (Nat × Nat)} {live : Option Live} (h : w.Sound care V ((number, []) :: others))
    (hf : (Caller.folded which number durable snapshot live).Fits care w ((number, []) :: others))
    (hc : care.once → w.Unfailing) :
    Goes care V w (.folded which number durable snapshot live) others
      ((Caller.folded which number durable snapshot live).go w) := by
  obtain ⟨segs, hof, hl⟩ := hf
  refine .done (foldPublish_sound h hof hl) (foldPublish_onward hl) fun ho => ?_
  exact ((foldPublish_returns (hc ho) which number snapshot live durable).mono
    (fun _ _ hw => hw) fun _ hw => hw.elim).world

theorem copy_goes {number : Nat} (h : w.Sound care V others) (hc : care.once → w.Unfailing) :
    Goes care V w (.asked (.write number)) others ((Caller.asked (.write number)).go w) := by
  show Goes _ _ _ _ _ (w, Caller.copy w number)
  unfold Caller.copy
  cases hl : w.inner.segment? number with
  | none => exact .done h (.refl w others) hc
  | some live =>
    obtain ⟨hm, hnumber⟩ := Inner.mem_of_segment? hl
    simp only
    split
    · exact .done h (.refl w others) hc
    · exact .next h (.refl w others) ⟨live, tracked_of_mem h.toOk hm, hnumber, rfl, rfl⟩ hc

theorem copied_goes {number generation deaths : Nat} {bytes : SegmentBytes}
    (h : w.Sound care V others)
    (hf : (Caller.copied number generation deaths bytes).Fits care w others)
    (hc : care.once → w.Unfailing) :
    Goes care V w (.copied number generation deaths bytes) others
      ((Caller.copied number generation deaths bytes).go w) := by
  obtain ⟨l, hl, rfl, rfl, rfl⟩ := hf
  have hs := same_disk w (Live.write w.disk l.number l.generation l.bytes).1
  have hcalm : care.once → ({ w with
      disk := (Live.write w.disk l.number l.generation l.bytes).1 } : World).Unfailing := fun ho => by
    obtain ⟨hfull, hbytes⟩ := Live.fromBytes_bytes hl.ok l.number l.generation
    exact ⟨(Live.write_ok (hc ho).faults hfull hbytes).2, (hc ho).landed⟩
  show Goes _ _ _ _ _ (({ w with
    disk := (Live.write w.disk l.number l.generation l.bytes).1 } : World),
      (Live.write w.disk l.number l.generation l.bytes).2.map fun live =>
        Caller.saved l.number deaths live)
  cases hw : (Live.write w.disk l.number l.generation l.bytes).2 with
  | none =>
    exact Goes.done (x := .copied l.number l.generation deaths l.bytes) (hs.sound h) hs.onward hcalm
  | some live =>
    obtain ⟨h1, h2, h3⟩ := write_bytes hl.ok hw
    exact Goes.next (x := .copied l.number l.generation deaths l.bytes)
      (y := .saved l.number deaths live) (hs.sound h) hs.onward
      ⟨l, hl.onward hs.onward, rfl, h1, h2, h3⟩ hcalm

theorem saved_goes {number deaths : Nat} {live : Live} (h : w.Sound care V others)
    (hf : (Caller.saved number deaths live).Fits care w others) (hc : care.once → w.Unfailing) :
    Goes care V w (.saved number deaths live) others ((Caller.saved number deaths live).go w) := by
  obtain ⟨l, hl, hn, hn', hg, hs⟩ := hf
  have hall := saved_later hl hn hn' hg hs
  refine .done ?_ (adoptWritten_onward w fun l' hl' => (hall l' hl').2.2) fun ho => ?_
  · cases hfound : w.inner.segment? number with
    | none =>
      unfold adoptWritten
      rw [hfound]
      exact (same_disk w _).sound h
    | some l' =>
      obtain ⟨h1, h2, -⟩ := hall l' hfound
      exact adoptWritten_sound h hfound deaths h1 h2
  · unfold adoptWritten
    split
    · exact ⟨(Disk.erase_faults _ _).trans (hc ho).faults, (hc ho).landed⟩
    · exact ⟨(hc ho).faults, (hc ho).landed⟩


end World

end Scour
