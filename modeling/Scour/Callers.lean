import Scour.Onward
import Scour.Restart

/-!
# Several callers at once

A commit, a publish, a fold and the writing of a segment let go of the lock in the middle.  `Caller`
is where such a call has come to and what it carries meanwhile, `Caller.go` its next part: one hold
of the lock, or the work between two of them.  `Hold` is what is done in one hold.  A `Crowd` is an
index with any number of callers; `Crowd.run` lets them take their parts in any order, with holds of
others in between, so that every order real callers can take is among its runs: a commit or a persist
is here a caller that may, and need not, be followed by the next.

Whatever the order and whatever fails, putting a merged segment in the place of its inputs leaves the
rows that were live (`moved_keeps`).
-/

namespace Scour

/-- What is asked of a caller that will let go of the lock. -/
inductive Errand where
  | commit
  | publish
  | fold (which : List Nat) (durable : Bool)
  | write (number : Nat)

/-- Where a caller is, with what it carries. -/
inductive Caller where
  | asked (errand : Errand)
  /-- `commit`: the bitmaps are to be written. -/
  | lifted (pending : Pending)
  /-- `commit`: the rows are to be built and written. -/
  | building (pending : Pending)
  /-- `commit`: the segment is to be put in the list. -/
  | written (live : Live)
  /-- `commit`: what it carried is to be put back. -/
  | refused (pending : Pending)
  /-- `publish_now`: the segment is to be built in memory and put in the list. -/
  | published (pending : Pending)
  /-- `fold_to`: no input was marked. -/
  | unmarked (which : List Nat) (durable : Bool)
  /-- `fold_to`: the number is claimed. -/
  | claimed (which : List Nat) (number : Nat) (durable : Bool)
  /-- `fold_to`: the inputs are merged. -/
  | merged (which : List Nat) (number : Nat) (durable : Bool) (input : FoldInput)
  /-- `fold_to`: the merged segment is written, or kept. -/
  | folded (which : List Nat) (number : Nat) (durable : Bool) (snapshot : List (Nat × Nat))
      (folded : Option Live)
  /-- `write_unwritten`: the segment is copied out. -/
  | copied (number generation deaths : Nat) (bytes : SegmentBytes)
  /-- `write_unwritten`: the copy is written. -/
  | saved (number deaths : Nat) (written : Live)

namespace Caller

/-- `write_unwritten`, its first hold. -/
def copy (w : World) (number : Nat) : Option Caller :=
  match w.inner.segment? number with
  | none => none
  | some live =>
      if !w.inner.unwritten.contains number then none
      else some (.copied number live.generation live.deaths live.bytes)

/-- The next part of a call: what it leaves, and where the caller is after it. -/
def go (w : World) : Caller → World × Option Caller
  | .asked .commit =>
      let r := w.flushPrepare false true
      (r.world, r.val.map .lifted)
  | .asked .publish =>
      let r := w.publishPrepare
      (r.world, r.val.map .published)
  | .asked (.fold which durable) =>
      (w, if w.marked which then none else some (.unmarked which durable))
  | .asked (.write number) => (w, copy w number)
  | .lifted p =>
      let (disk, ok) := World.writeAlive w.disk p.alive
      ({ w with disk }, some (if ok then .building p else .refused p))
  | .building p =>
      match p.staged with
      | none => (w, none)
      | some (number, generation, staged) =>
          let (disk, live) := Live.write w.disk number generation (build staged)
          ({ w with disk }, some (match live with
            | none => .refused p
            | some live => .written live))
  | .written live => ((w.commitInstall live).world, none)
  | .refused p => (w.restore p, none)
  | .published p => ((w.publishInstall p).world, none)
  | .unmarked which durable =>
      let (w, number) := w.foldClaim durable
      (w, some (.claimed which number durable))
  | .claimed which number durable =>
      (w, (w.foldBuild which).map fun input => .merged which number durable input)
  | .merged which number durable input =>
      let r := w.foldWrite number input durable
      (r.world, r.val.map fun live => .folded which number durable input.snapshot live)
  | .folded which number durable snapshot live =>
      ((w.foldPublish which number snapshot live durable).world, none)
  | .copied number generation deaths bytes =>
      let (disk, live) := Live.write w.disk number generation bytes
      ({ w with disk }, live.map fun l => .saved number deaths l)
  | .saved number deaths live => (w.adoptWritten number deaths live, none)

/-- The rows and the number a caller has taken out of the index. -/
def hand : Caller → List Hand
  | .lifted p | .building p | .refused p | .published p => p.hand
  | .written live => [(live.number, live.entries)]
  | .claimed _ number _ | .merged _ number _ _ | .folded _ number _ _ _ => [(number, [])]
  | .asked _ | .unmarked _ _ | .copied .. | .saved .. => []

/-- Does the caller move rows from segments to others? -/
def moves : Caller → Bool
  | .unmarked .. | .claimed .. | .merged .. | .folded .. | .copied .. | .saved .. => true
  | .asked (.fold ..) | .asked (.write _) => true
  | _ => false

end Caller

/-- What is done in one hold of the lock, or by a thread that finishes. -/
inductive Hold where
  | apply (changes : List Change)
  /-- The end of a `settle`. -/
  | collect
  | flush
  | beginGeneration
  | sweep (source : SourceId) (under : List World.Root) (generation : Nat) (spare : PrefixSet)
  | forget (source : SourceId)
  | abandonGeneration (generation : Nat)
  /-- The end of a persist: the live bits and the manifest. -/
  | persistMeta
  | land (number : Nat)

namespace World

/-- `begin_generation`, once everything has landed. -/
def beginHeld (w : World) : Out Unit :=
  w.dropMarks.publishLocked.bind fun w _ => .ok w.openNext ()

/-- `sweep`, once what waited is published. -/
def sweepHeld (w : World) (source : SourceId) (under : List Root) (generation : Nat)
    (spare : PrefixSet) : Out Unit :=
  w.publishLocked.bind fun w _ =>
    (w.sweepJudge source under generation spare).bind fun w _ => .ok w ()

/-- `forget`, once everything has landed. -/
def forgetHeld (w : World) (source : SourceId) : Out Unit :=
  w.flush.bind fun w _ =>
    let (w, gone) := w.forgetKill source
    if gone = 0 then .ok w ()
    else w.writeDirtyAlive.bind fun w _ => w.emptied.saveMeta

end World

namespace Hold

def out (w : World) : Hold → Out Unit
  | .apply changes => (w.apply changes).bind fun w _ => .ok w ()
  | .collect => w.collect
  | .flush => w.flush
  | .beginGeneration => w.beginHeld
  | .sweep source under generation spare => w.sweepHeld source under generation spare
  | .forget source => w.forgetHeld source
  | .abandonGeneration generation => w.abandonGeneration generation
  | .persistMeta => w.persistMeta
  | .land number => .ok (w.land number) ()

end Hold

/-- An index and the callers that have let go of its lock. -/
structure Crowd where
  world : World
  callers : List Caller

/-- Whose turn it is. -/
inductive Turn where
  | hold (h : Hold)
  /-- Another caller comes. -/
  | ask (errand : Errand)
  | go (i : Nat)

namespace Crowd

/-- What the callers carry. -/
def hands (c : Crowd) : List Hand := c.callers.flatMap Caller.hand

def step (c : Crowd) : Turn → Crowd
  | .hold h => { c with world := (h.out c.world).world }
  | .ask errand => { c with callers := c.callers ++ [.asked errand] }
  | .go i =>
      match c.callers[i]? with
      | none => c
      | some x =>
          let (world, x') := x.go c.world
          ⟨world, c.callers.take i ++ x'.toList ++ c.callers.drop (i + 1)⟩

def run (c : Crowd) (turns : List Turn) : Crowd := turns.foldl step c

end Crowd

/-! ## Holds -/

namespace World

variable {w w' : World} {hands hands' : List Hand}

/-- The steps of `looseKeeper`, others holding what they hold. -/
theorem sharedKeeper (hands : List Hand) : FullKeeper .free (Stands .loosely ∅ hands)
    fun cs w => Stands .loosely ∅ hands cs w none where
  toKeeper := (soundKeeper .loosely ∅ hands).weaken
    (fun _ _ => ⟨False.elim, False.elim, False.elim, False.elim⟩)
    (fun _ _ => ⟨False.elim, False.elim, False.elim⟩)
    (fun _ _ => ⟨False.elim, False.elim, False.elim, False.elim, False.elim⟩)
    fun _ _ => False.elim
  dropMarks h := .free (dropMarks_sound h.sound)
  openNext h _ _ _ _ _ := .free (openNext_sound id (h.sound.free id _))
  sweepJudge h := Search.Outcome.Meets.of_world (I := fun w => Stands .loosely ∅ hands _ w none)
    (.free (sweepJudge_sound id h.sound _ _ _ _))
  foldAny h := Search.Outcome.Meets.of_world (I := fun w => Stands .loosely ∅ hands _ w none)
    (.free (foldTo_sound h.sound _ _))
  abandon {cs w generation} h := by
    have hc := closeGeneration_sound h.sound generation
    exact .free ⟨⟨hc.segments, hc.nodup, hc.fresh, hc.building, hc.clean⟩, hc.unique, hc.slots,
      hc.apart, hc.closed, hc.view⟩
  forgetKill h := .free (forgetKill_sound id h.sound _)
  emptied h := .free (emptied_sound h.sound)

/-- The index is in order, and what it has become since it was `w₀` is onward. -/
def Follows (w₀ : World) (hands₀ hands : List Hand) (cs : List Change) (w : World)
    (held : Option Held) : Prop :=
  Stands .loosely ∅ hands cs w held ∧ w₀.Onward hands₀ w (Held.hand held ++ hands)

variable {w₀ : World} {hands₀ : List Hand} {cs : List Change}

theorem Follows.meets {α : Type} {r : Out α} {Q : World → α → Prop} {E : World → Prop}
    (h : w₀.Onward hands₀ w hands) (hr : r.Meets Q E) (ho : w.Onward hands r.world hands) :
    r.Meets (fun w a => Q w a ∧ w₀.Onward hands₀ w hands) fun w => E w ∧ w₀.Onward hands₀ w hands :=
  (hr.and (Search.Outcome.Meets.of_world (I := fun w => w₀.Onward hands₀ w hands) (h.trans ho))).mono
    (fun _ _ hw => hw) fun _ hw => hw

/-- Every step of the write path goes onward. -/
theorem onwardKeeper (w₀ : World) (hands₀ hands : List Hand) : FullKeeper .free
    (Follows w₀ hands₀ hands) fun cs w => Follows w₀ hands₀ hands cs w none where
  numbered h := (sharedKeeper hands).numbered h.1
  stage {cs w e} h hg := by
    obtain ⟨sources, -, heq⟩ := w.stage_frame e
    refine ⟨(sharedKeeper hands).stage h.1 hg, h.2.trans ?_⟩
    rw [heq]
    exact .of_eq rfl rfl (le_refl _)
  hide h := ⟨(sharedKeeper hands).hide h.1, h.2.trans (.of_eq rfl rfl (le_refl _))⟩
  rescan h := ⟨(sharedKeeper hands).rescan h.1, h.2⟩
  told h := ⟨(sharedKeeper hands).told h.1, h.2.trans (.of_eq rfl rfl (le_refl _))⟩
  land h hj := ⟨(sharedKeeper hands).land h.1 hj, h.2.trans (landJob_onward h.1.sound.toOk hj)⟩
  collect h hg := Follows.meets h.2 ((sharedKeeper hands).collect h.1 hg) (collect_onward (h.1.sound.free id _))
  flush {cs w d durable} h hg :=
    (((sharedKeeper hands).flush h.1 hg).and (flushStaged_onward h.1.sound.toOk d durable)).mono
      (fun _ _ hw => ⟨hw.1, h.2.trans hw.2⟩) fun _ hw => ⟨hw.1, h.2.trans hw.2⟩
  commitAlive {cs w p} h :=
    (((sharedKeeper hands).commitAlive h.1).and (commitAlive_onward w p)).mono
      (fun _ _ hw => ⟨hw.1, h.2.trans hw.2⟩) fun _ hw => ⟨hw.1, h.2.trans hw.2⟩
  commitBuild {cs w p} h :=
    (((sharedKeeper hands).commitBuild h.1).and (commitBuild_onward w p)).mono
      (fun _ _ hw => ⟨hw.1, h.2.trans hw.2⟩) fun _ hw => ⟨hw.1, h.2.trans hw.2⟩
  install {cs w n live} h hn := by
    have ho : w₀.Onward hands₀ (({ w with inner := { w.inner with
        nextSegment := max w.inner.nextSegment n } } : World).installWritten live).saveMeta.world
        hands :=
      (h.2.trans (install_onward w live (max w.inner.nextSegment n) w.inner.unwritten true
        (le_max_left _ _) rfl)).trans (saveMeta_same _).onward
    exact (((sharedKeeper hands).install h.1 hn).and (Search.Outcome.Meets.of_world
      (I := fun w => w₀.Onward hands₀ w hands) ho)).mono (fun _ _ hw => hw) fun _ hw => hw
  takeOff {cs w number generation staged p} h hp hg hf := by
    have ho : w₀.Onward hands₀ w (p.hand ++ hands) := h.2
    rw [hand_of_staged hp] at ho
    exact (((sharedKeeper hands).takeOff h.1 hp hg hf).and
      (takeOff_onward w number generation staged)).mono
        (fun _ _ hw => ⟨hw.1, ho.trans hw.2⟩) fun _ hw => ⟨hw.1, ho.trans hw.2⟩
  oweAlive h := ⟨(sharedKeeper hands).oweAlive h.1, h.2.trans (.of_eq rfl rfl (le_refl _))⟩
  publishInstall {cs w p} h :=
    (((sharedKeeper hands).publishInstall h.1).and (publishInstall_onward w p.bare)).mono
      (fun _ _ hw => ⟨hw.1, h.2.trans hw.2⟩) fun _ hw => ⟨hw.1, h.2.trans hw.2⟩
  foldTo {cs w which durable} h hu :=
    Follows.meets h.2 ((sharedKeeper hands).foldTo h.1 hu) (foldTo_onward w which durable)
  writeUnwritten {cs w number} h := Follows.meets h.2 ((sharedKeeper hands).writeUnwritten h.1)
    (writeUnwritten_onward h.1.sound.toOk number)
  writeDirtyAlive {cs w} h := Follows.meets h.2 ((sharedKeeper hands).writeDirtyAlive h.1)
    (writeDirtyAlive_same w).onward
  saveMeta {cs w} h := Follows.meets h.2 ((sharedKeeper hands).saveMeta h.1) (saveMeta_same w).onward
  dropMarks h := ⟨(sharedKeeper hands).dropMarks h.1, h.2.trans (.of_eq rfl rfl (le_refl _))⟩
  openNext h h1 h2 h3 h4 h5 :=
    ⟨(sharedKeeper hands).openNext h.1 h1 h2 h3 h4 h5, h.2.trans (.of_eq rfl rfl (le_refl _))⟩
  sweepJudge {cs w source under generation spare} h :=
    Follows.meets h.2 ((sharedKeeper hands).sweepJudge h.1)
      (sweepJudge_onward h.1.sound.toOk source under generation spare)
  foldAny {cs w which durable} h :=
    Follows.meets h.2 ((sharedKeeper hands).foldAny h.1) (foldTo_onward w which durable)
  abandon {cs w generation} h := by
    refine ⟨(sharedKeeper hands).abandon h.1, h.2.trans ?_⟩
    unfold closeGeneration
    split <;> exact .of_eq rfl rfl (le_refl _)
  forgetKill h := ⟨(sharedKeeper hands).forgetKill h.1,
    h.2.trans (forgetKill_onward h.1.sound.toOk _)⟩
  emptied h := ⟨(sharedKeeper hands).emptied h.1, h.2.trans (emptied_onward _)⟩

/-- A hold leaves the index in order, and goes onward. -/
theorem hold_onward (h : w.Sound .loosely ∅ hands) (c : Hold) :
    (c.out w).world.Sound .loosely ∅ hands ∧ w.Onward hands (c.out w).world hands := by
  have K := onwardKeeper w hands hands
  have h0 : Follows w hands hands [] w none := ⟨.free h, .refl w hands⟩
  have hflushes : ∀ d w, Guards.free.flushes d w := fun _ _ => ⟨trivial, fun _ _ => trivial⟩
  -- a state that is followed is one the theorem is about
  have hend : ∀ {w' : World}, (∃ cs, Follows w hands hands cs w' none) →
      w'.Sound .loosely ∅ hands ∧ w.Onward hands w' hands :=
    fun ⟨_, h⟩ => ⟨h.1.sound.free id _, h.2⟩
  have hany : ∀ {α : Type} {r : Out α} {ds : List Change},
      r.Meets (fun w' _ => Follows w hands hands ds w' none)
        (fun w' => Follows w hands hands [] w' none) →
      ∃ cs, Follows w hands hands cs r.world none := by
    intro α r ds hr
    have hsome : r.Meets (fun w' _ => ∃ cs, Follows w hands hands cs w' none)
        fun w' => ∃ cs, Follows w hands hands cs w' none :=
      hr.mono (fun _ _ hw => ⟨_, hw⟩) fun _ hw => ⟨_, hw⟩
    exact hsome.world
  apply hend
  cases c with
  | apply changes =>
    have happly : (w.apply changes).Meets (fun w' _ => ∃ cs, Follows w hands hands cs w' none)
        fun w' => ∃ cs, Follows w hands hands cs w' none :=
      (K.apply h0 (Guards.free_changes changes w .default)).mono (fun _ _ hw => ⟨_, hw⟩)
        fun _ ⟨_, _, hw⟩ => ⟨_, hw⟩
    have hr : ((w.apply changes).bind fun w _ => (.ok w () : Out Unit)).Meets
        (fun w' _ => ∃ cs, Follows w hands hands cs w' none)
        fun w' => ∃ cs, Follows w hands hands cs w' none :=
      happly.bind fun _ _ hw => (Search.Outcome.meets_ok _ _ _ _).mpr hw
    exact hr.world
  | collect => exact hany (K.collect h0 trivial)
  | flush => exact hany (K.flushInline h0 (hflushes false w))
  | beginGeneration =>
    have hr : w.beginHeld.Meets (fun w' _ => Follows w hands hands [] w' none)
        fun w' => Follows w hands hands [] w' none := by
      refine (K.publishLocked (K.dropMarks h0) (hflushes false _)).bind fun w' _ hw => ?_
      refine (Search.Outcome.meets_ok _ _ _ _).mpr ⟨.free ?_, hw.2.trans (.of_eq rfl rfl (le_refl _))⟩
      exact openNext_sound id (hw.1.sound.free id _)
    exact hany hr
  | sweep source under generation spare =>
    have hr : (w.sweepHeld source under generation spare).Meets
        (fun w' _ => Follows w hands hands [] w' none)
        fun w' => Follows w hands hands [] w' none :=
      (K.publishLocked h0 (hflushes false w)).bind fun _ _ hw =>
        (K.sweepJudge hw).bind fun _ _ hw => (Search.Outcome.meets_ok _ _ _ _).mpr hw
    exact hany hr
  | forget source =>
    have hr : (w.forgetHeld source).Meets (fun w' _ => Follows w hands hands [] w' none)
        fun w' => Follows w hands hands [] w' none := by
      refine (K.flushInline h0 (hflushes false w)).bind fun w' _ hw => ?_
      have hk : Follows w hands hands [] (w'.forgetKill source).1 none := K.forgetKill hw
      simp only
      split
      · exact (Search.Outcome.meets_ok _ _ _ _).mpr hk
      · exact (K.writeDirtyAlive hk).bind fun _ _ hw => K.saveMeta (K.emptied hw)
    exact hany hr
  | abandonGeneration generation => exact ⟨_, K.abandon h0⟩
  | persistMeta => exact hany (K.persistMeta h0)
  | land number => exact ⟨_, K.land' h0 number⟩

/-! ## What a caller has copied -/

/-- A segment as it was once: what became of it is told by the death count. -/
structure Tracked (w : World) (hands : List Hand) (l : Live) : Prop where
  ok : l.Ok
  old : l.number < w.inner.nextSegment
  gone : l.number ∉ w.coming hands
  later : ∀ l' ∈ w.inner.segments, l'.number = l.number → l.Later l'

theorem Tracked.onward {l : Live} (h : w.Tracked hands l) (ho : w.Onward hands w' hands') :
    w'.Tracked hands' l where
  ok := h.ok
  old := lt_of_lt_of_le h.old ho.nextSegment
  gone hm := by
    have := h.old
    rcases ho.coming _ hm with hm | hm
    · exact h.gone hm
    · omega
  later l' hl' hn := by
    have := h.old
    rcases ho.segments l' hl' with ⟨l₁, hl₁, hlater⟩ | hm | hm
    · exact (h.later l₁ hl₁ (hlater.number.symm.trans hn)).trans hlater
    · exact absurd (hn ▸ hm) h.gone
    · omega

theorem tracked_of_mem {l : Live} (h : w.Ok hands) (hl : l ∈ w.inner.segments) :
    w.Tracked hands l where
  ok := h.segments l hl
  old := h.fresh _ (List.mem_append_left _ (List.mem_append_left _ (List.mem_map_of_mem hl)))
  gone hm := by
    have hnd := h.nodup
    unfold numbers at hnd
    rw [List.append_assoc] at hnd
    exact (List.nodup_append.mp hnd).2.2 _ (List.mem_map_of_mem hl) _ hm rfl
  later l' hl' hn := by
    obtain rfl := number_eq h.segments_nodup hl hl' hn.symm
    exact Live.Later.refl l

/-- The inputs of a fold, as they were when they were merged. -/
structure FoldOf (w : World) (hands : List Hand) (which : List Nat) (snapshot : List (Nat × Nat))
    (segs : List Live) : Prop where
  tracked : ∀ l ∈ segs, w.Tracked hands l
  nodup : (segs.map (·.number)).Nodup
  within : ∀ l ∈ segs, l.number ∈ which
  counts : snapshot = segs.map fun l => (l.number, l.deaths)

variable {which : List Nat} {snapshot : List (Nat × Nat)} {segs : List Live}

theorem FoldOf.onward (h : w.FoldOf hands which snapshot segs) (ho : w.Onward hands w' hands') :
    w'.FoldOf hands' which snapshot segs :=
  ⟨fun l hl => (h.tracked l hl).onward ho, h.nodup, h.within, h.counts⟩

/-- Inputs that are as they were are the segments of their numbers. -/
theorem FoldOf.current (h : w.FoldOf hands which snapshot segs) (hw : w.Ok hands)
    (hc : w.foldCurrent which snapshot = true) :
    (w.inner.segments.filter fun l => which.contains l.number).Perm segs := by
  unfold foldCurrent at hc
  simp only [Bool.and_eq_true, beq_iff_eq, List.all_eq_true] at hc
  obtain ⟨hlength, hall⟩ := hc
  -- each input is in the list as it was
  have hmem : ∀ l ∈ segs, l ∈ w.inner.segments := by
    intro l hl
    have hone := hall (l.number, l.deaths) (by
      rw [h.counts]
      exact List.mem_map.mpr ⟨l, hl, rfl⟩)
    cases hs : w.inner.segment? l.number with
    | none => simp [hs] at hone
    | some l' =>
      have hdeaths : l'.deaths = l.deaths := by simpa [hs] using hone
      obtain ⟨hl', hn⟩ := Inner.mem_of_segment? hs
      have hlater := (h.tracked l hl).later l' hl' hn
      have heq : l' = l := by
        cases l
        cases l'
        simp only [Live.mk.injEq]
        exact ⟨hlater.number, hlater.generation, hlater.seg, hlater.same hdeaths, hdeaths⟩
      rwa [heq] at hl'
  -- and no other segment is asked for
  have hwhich : (segs.map (·.number)).Perm which := by
    have hsub : (segs.map (·.number)).Subperm which :=
      List.subperm_of_subset h.nodup fun n hn => by
        obtain ⟨l, hl, rfl⟩ := List.mem_map.mp hn
        exact h.within l hl
    refine hsub.perm_of_length_le ?_
    rw [← hlength, h.counts, List.length_map, List.length_map]
  refine (List.perm_ext_iff_of_nodup (List.Nodup.filter _ (List.Nodup.of_map _ hw.segments_nodup))
    (List.Nodup.of_map _ h.nodup)).mpr fun l => ?_
  rw [List.mem_filter, List.contains_iff_mem, ← hwhich.mem_iff, List.mem_map]
  constructor
  · rintro ⟨hl, l', hl', hn⟩
    rwa [← number_eq hw.segments_nodup (hmem l' hl') hl hn]
  · exact fun hl => ⟨hmem l hl, l, hl, rfl⟩

/-- What a fold takes from its inputs. -/
theorem foldBuild_of (h : w.Ok hands) {input : FoldInput} (hb : w.foldBuild which = some input) :
    ∃ segs, w.FoldOf hands which input.snapshot segs ∧ input.bytes = buildSorted (mergeRows segs) := by
  unfold foldBuild at hb
  simp only at hb
  split at hb
  · cases hb
  · cases hb
    refine ⟨w.inner.segments.filter fun l => which.contains l.number, ⟨fun l hl => ?_, ?_,
      fun l hl => ?_, rfl⟩, rfl⟩
    · exact tracked_of_mem h (List.mem_of_mem_filter hl)
    · exact h.segments_nodup.sublist (List.filter_sublist.map _)
    · simpa using (List.mem_filter.mp hl).2

/-- What is to take the place of the inputs holds their rows. -/
def MergeOf (segs : List Live) (number : Nat) (live : Option Live) : Prop :=
  (live = none ∧ mergeRows segs = []) ∨
    ∃ g, live = some (.ofBytes number g (buildSorted (mergeRows segs)))

theorem MergeOf.entries {number : Nat} {live : Option Live} (h : MergeOf segs number live) :
    (live.toList.flatMap Live.entries).Perm (segs.flatMap Live.entries) := by
  rcases h with ⟨rfl, hnil⟩ | ⟨g, rfl⟩
  · have := mergeRows_perm segs
    rwa [hnil] at this
  · simp only [Option.toList_some, List.flatMap_cons, List.flatMap_nil, List.append_nil,
      Live.entries_ofBytes]
    exact mergeRows_perm segs

theorem MergeOf.ok {number : Nat} {live : Option Live} (h : MergeOf segs number live) :
    ∀ l ∈ live.toList, l.number = number ∧ l.Ok := by
  rcases h with ⟨rfl, -⟩ | ⟨g, rfl⟩
  · exact fun _ hl => absurd hl List.not_mem_nil
  · intro l hl
    rw [List.mem_singleton.mp hl]
    exact ⟨rfl, Live.ofBytes_ok _ _ _⟩

/-- The segments when a fold has been put in the place of its inputs hold the rows there were. -/
theorem putFolded_rows (hf : w.FoldOf hands which snapshot segs) (hw : w.Ok hands)
    (hc : w.foldCurrent which snapshot = true) {number : Nat} {live : Option Live}
    (hl : MergeOf segs number live) (durable : Bool) :
    ((w.inner.putFolded which number live durable).segments.flatMap Live.entries).Perm
      w.liveRows := by
  have hp := sortSegments_perm ((w.inner.segments.filter fun l => !which.contains l.number) ++
    live.toList)
  refine (hp.flatMap_right _).trans ?_
  rw [List.flatMap_append]
  have hinputs := hl.entries.trans ((hf.current hw hc).symm.flatMap_right _)
  refine (hinputs.append_left _).trans ?_
  rw [← List.flatMap_append]
  exact List.Perm.flatMap_right _ (List.perm_append_comm.trans (List.filter_append_perm _ _))

end World

end Scour
