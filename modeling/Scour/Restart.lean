import Scour.FiledFolds
import Scour.Reach

/-!
# An index that is opened again

Every step keeps `Filed` (`filedKeeper`), so every image its directory has been through can be
opened, whatever is asked, whatever fails and wherever the process stops; and the index that is
opened from one is filed as well.  `Lived` is every index there can be that way.
-/

namespace Scour

namespace World

variable {Q : Segment → Prop} {cs : List Change} {w : World} {held : Option Held}

/-- The segments whose bitmaps a batch carries. -/
def owedOf : Option Held → List Nat
  | some (.batch p) => p.alive.map (·.1)
  | _ => []

/-- What is kept: the index is in order, its segments are by the rule, and its directory is true. -/
structure Kept (Q : Segment → Prop) (cs : List Change) (w : World) (held : Option Held) : Prop
    extends Ruled Q cs w held where
  filed : w.Filed Q held (owedOf held)

theorem Kept.ordered {p : Pending} (h : Kept Q cs w (some (.batch p))) : w.Ok p.hand := by
  have hok := h.stands.sound.toOk
  rwa [List.append_nil] at hok

/-- A call leaves the index in order, and its directory true. -/
theorem Kept.meets {α : Type} {r : Out α} {f : α → Option Held}
    (h : r.Meets (fun w a => Ruled Q cs w (f a)) fun w => Ruled Q cs w none)
    (h' : r.Meets (fun w a => w.Filed Q (f a) (owedOf (f a))) fun w => w.Filed Q none []) :
    r.Meets (fun w a => Kept Q cs w (f a)) fun w => Kept Q cs w none :=
  (h.and h').mono (fun _ _ hw => ⟨hw.1, hw.2⟩) fun _ hw => ⟨hw.1, hw.2⟩

theorem Kept.meets_world {r : Out Unit}
    (h : r.Meets (fun w _ => Ruled Q cs w none) fun w => Ruled Q cs w none)
    (h' : r.world.Filed Q none []) :
    r.Meets (fun w _ => Kept Q cs w none) fun w => Kept Q cs w none :=
  Kept.meets (f := fun _ => none) h
    (Search.Outcome.Meets.of_world (I := fun w : World => w.Filed Q none []) h')

/-- Every step keeps the directory true. -/
theorem filedKeeper (R : SegmentRule Q) : FullKeeper .free (Kept Q) fun cs w => Kept Q cs w none where
  numbered h := (ruleKeeper R).numbered h.toRuled
  stage {cs w e} h hg := by
    obtain ⟨sources, hidden, heq⟩ := w.stage_frame e
    refine ⟨(ruleKeeper R).stage h.toRuled hg, ?_⟩
    rw [heq]
    exact h.filed.still ⟨rfl, rfl, rfl, rfl, rfl, List.Subset.refl _, id, le_refl _⟩
  hide h := ⟨(ruleKeeper R).hide h.toRuled,
    h.filed.still ⟨rfl, rfl, rfl, rfl, rfl, List.Subset.refl _, id, le_refl _⟩⟩
  rescan h := ⟨(ruleKeeper R).rescan h.toRuled, h.filed⟩
  told h := ⟨(ruleKeeper R).told h.toRuled,
    h.filed.still ⟨rfl, rfl, rfl, rfl, rfl, List.Subset.refl _, id, le_refl _⟩⟩
  land h hj := ⟨(ruleKeeper R).land h.toRuled hj, h.filed.landJob h.ok hj⟩
  collect h hg := Kept.meets_world ((ruleKeeper R).collect h.toRuled hg)
    (h.filed.collect (h.ok.loosely ∅) h.holds)
  flush h hg := Kept.meets (f := fun p => some (.batch p)) ((ruleKeeper R).flush h.toRuled hg)
    (h.filed.flushStaged h.ok h.holds _ _)
  commitAlive {cs w p} h := Kept.meets (f := fun _ => some (.batch p.bare))
    ((ruleKeeper R).commitAlive h.toRuled) (h.filed.commitAlive h.ordered h.holds.none)
  commitBuild {cs w p} h := by
    refine Kept.meets (f := fun live => live.map .written) ((ruleKeeper R).commitBuild h.toRuled)
      ((h.filed.commitBuild (p := p) h.ordered).mono (fun w live hw => ?_) fun _ hw => hw)
    cases live <;> exact hw
  install {cs w n live} h hn := Kept.meets_world ((ruleKeeper R).install h.toRuled hn)
    (h.filed.install (h.stands.sound.toOk.loosely ∅) h.holds (h.stands.written live rfl))
  takeOff {cs w number generation staged p} h hp hg hf := Kept.meets_world
    ((ruleKeeper R).takeOff h.toRuled hp hg hf) (h.filed.takeOff (p := p) h.ordered hp)
  oweAlive {cs w p} h := ⟨(ruleKeeper R).oweAlive h.toRuled,
    h.filed.remember.carry p.bare rfl fun a ha => absurd ha List.not_mem_nil⟩
  publishInstall {cs w p} h := Kept.meets_world ((ruleKeeper R).publishInstall h.toRuled)
    (h.filed.publishInstall (p := p) h.ordered)
  foldTo h hu := Kept.meets (f := fun _ => none) ((ruleKeeper R).foldTo h.toRuled hu)
    (h.filed.foldTo R h.ok h.holds _ _)
  writeUnwritten h := Kept.meets_world ((ruleKeeper R).writeUnwritten h.toRuled)
    (h.filed.writeUnwritten h.ok _)
  writeDirtyAlive h := Kept.meets_world ((ruleKeeper R).writeDirtyAlive h.toRuled)
    (h.filed.writeDirtyAlive h.ok h.holds)
  saveMeta h := Kept.meets_world ((ruleKeeper R).saveMeta h.toRuled) (h.filed.saveMeta h.ok h.holds)
  dropMarks h := ⟨(ruleKeeper R).dropMarks h.toRuled,
    h.filed.still ⟨rfl, rfl, rfl, rfl, rfl, List.Subset.refl _, id, le_refl _⟩⟩
  openNext h h1 h2 h3 h4 h5 := ⟨(ruleKeeper R).openNext h.toRuled h1 h2 h3 h4 h5,
    h.filed.still ⟨rfl, rfl, rfl, rfl, rfl, List.Subset.refl _, (nomatch ·), le_refl _⟩⟩
  sweepJudge h := Kept.meets (f := fun _ => none) ((ruleKeeper R).sweepJudge h.toRuled)
    (Search.Outcome.Meets.of_world (I := fun w : World => w.Filed Q none [])
      (h.filed.sweepJudge h.ok _ _ _ _))
  foldAny h := Kept.meets (f := fun _ => none) ((ruleKeeper R).foldAny h.toRuled)
    (h.filed.foldTo R h.ok h.holds _ _)
  abandon h := ⟨(ruleKeeper R).abandon h.toRuled, (h.filed.closeGeneration _).still
    ⟨rfl, rfl, rfl, rfl, rfl, List.Subset.refl _, id, le_refl _⟩⟩
  forgetKill h := ⟨(ruleKeeper R).forgetKill h.toRuled, h.filed.forgetKill h.ok _⟩
  emptied h := ⟨(ruleKeeper R).emptied h.toRuled, h.filed.emptied h.ok fun p hp => by cases hp⟩

/-! ## Opening what is there -/

/-- A segment as it is when it has just been opened. -/
def reopened (l : Live) : Live := { l with deaths := 0 }

/-- Every segment named is opened, where each can be. -/
theorem openAll_eq {img : Image} (ls : List (Nat × Nat))
    (h : ∀ s ∈ ls, ∃ l, Live.open? img s.1 s.2 = some l) :
    openAll img ls = some (ls.filterMap fun s => Live.open? img s.1 s.2) := by
  induction ls with
  | nil => rfl
  | cons s ls ih =>
    obtain ⟨l, hl⟩ := h s List.mem_cons_self
    unfold openAll
    rw [hl, ih fun s hs => h s (List.mem_cons_of_mem _ hs), List.filterMap_cons, hl]
    rfl

/-- What is left of files no segment of the manifest has is removed, and nothing else is touched. -/
theorem sweepOrphans_keeps {m : Manifest} (files : List (Nat × Ext)) : ∀ {d : Disk}, d.Current →
    d.image.listed = m → (∀ img ∈ d.past, img.Opens Q) →
      let d' := files.foldl (fun d f =>
        if !(m.segments.map (·.1)).contains f.1 && f.1 < m.nextSegment then
          d.step (d.image.removeFile f.1 f.2) else d) d
      d'.Current ∧ (∀ img ∈ d'.past, img.Opens Q) ∧ d'.image.manifest = d.image.manifest ∧
        ∀ s ∈ m.segments, ∀ x, d'.image.file s.1 x = d.image.file s.1 x := by
  induction files with
  | nil => exact fun hc _ hp => ⟨hc, hp, rfl, fun _ _ _ => rfl⟩
  | cons f files ih =>
    intro d hc hm hp
    rw [List.foldl_cons]
    split
    · rename_i hf
      rw [Bool.and_eq_true, Bool.not_eq_true', List.contains_eq_mem, decide_eq_false_iff_not] at hf
      have hfile : ∀ s ∈ m.segments, ∀ x,
          (d.image.removeFile f.1 f.2).file s.1 x = d.image.file s.1 x := fun s hs x => by
        rw [Image.file_removeFile, if_neg fun heq => hf.1 ?_]
        rw [← congrArg Prod.fst heq]
        exact List.mem_map_of_mem hs
      have hopens : (d.image.removeFile f.1 f.2).Opens Q :=
        (hp _ hc).of_files rfl fun s hs x => hfile s (hm ▸ hs) x
      obtain ⟨h1, h2, h3, h4⟩ := ih (d := d.step (d.image.removeFile f.1 f.2))
        (Disk.current_step _ _) hm fun img himg => by
          rcases List.mem_cons.mp himg with rfl | himg
          · exact hopens
          · exact hp img himg
      exact ⟨h1, h2, h3, fun s hs x => (h4 s hs x).trans (hfile s hs x)⟩
    · exact ih hc hm hp

/-- The index that is opened from an image. -/
def opened (img : Image) (faults : List Bool) : World where
  inner := openInner img.listed (img.listed.segments.filterMap fun s => Live.open? img s.1 s.2)
  building := ⟨[], [], []⟩
  buildFailed := 0
  disk := sweepOrphans (.of img faults) img.listed

variable {img : Image}

theorem open?_of_opens (h : img.Opens Q) {s : Nat × Nat} (hs : s ∈ img.listed.segments) :
    ∃ l, Live.open? img s.1 s.2 = some l ∧ l.number = s.1 ∧ l.generation = s.2 ∧ l.Ok ∧ Q l.seg ∧
      img.Holds l.number l.bytes := by
  obtain ⟨es, hq, bits, hlen, hh⟩ := h.segments s hs
  exact ⟨_, Image.open?_of_holds hlen hh s.2, rfl, rfl, ⟨es, rfl, hlen⟩, hq, hh⟩

/-- An image that opens, opens. -/
theorem openOrCreate_of_opens (h : img.Opens Q) (faults : List Bool) :
    openOrCreate (.of img faults) = some (opened img faults) := by
  have hopen := openAll_eq img.listed.segments fun s hs =>
    (open?_of_opens h hs).imp fun _ hl => hl.1
  have hformat : ¬ ((Disk.of img faults).image.manifest.getD .default).format ≠ FORMAT :=
    not_not.mpr h.format
  unfold openOrCreate
  simp only
  rw [if_neg hformat]
  exact congrArg (Option.map _) hopen

/-- What is opened is what the manifest names. -/
theorem segments_opened (h : img.Opens Q) (faults : List Bool) :
    (opened img faults).inner.segments.map (fun l => (l.number, l.generation)) =
      img.listed.segments := by
  show List.map _ (List.filterMap _ _) = _
  rw [List.map_filterMap]
  refine (List.filterMap_congr fun s hs => ?_).trans (List.filterMap_some)
  obtain ⟨l, hl, hn, hg, -⟩ := open?_of_opens h hs
  rw [hl]
  exact congrArg some (Prod.ext hn hg)

theorem mem_opened (h : img.Opens Q) (faults : List Bool) {l : Live}
    (hl : l ∈ (opened img faults).inner.segments) :
    ∃ s ∈ img.listed.segments, l.number = s.1 ∧ l.Ok ∧ Q l.seg ∧ img.Holds l.number l.bytes := by
  obtain ⟨s, hs, hsl⟩ := List.mem_filterMap.mp hl
  obtain ⟨k, hk, hn, -, hok, hq, hh⟩ := open?_of_opens h hs
  obtain rfl : k = l := Option.some.inj (hk.symm.trans hsl)
  exact ⟨s, hs, hn, hok, hq, hh⟩

/-- An index that is opened is in order, and its directory is true. -/
theorem kept_opened (h : img.Opens Q) (faults : List Bool) : Kept Q [] (opened img faults) none := by
  have hsegments := segments_opened h faults
  have hnumbers : (opened img faults).inner.segments.map (·.number) =
      img.listed.segments.map (·.1) := by
    rw [← hsegments, List.map_map]
    rfl
  obtain ⟨hcurrent, hpast, hmanifest, hfiles⟩ := sweepOrphans_keeps (Q := Q) (m := img.listed)
    (img.files.map (·.1)) (d := .of img faults) (List.mem_singleton_self _) rfl fun i hi => by
      rw [List.mem_singleton.mp hi]
      exact h
  have hlisted : (opened img faults).disk.image.listed = img.listed :=
    congrArg (fun m : Option Manifest => m.getD .default) hmanifest
  have hkeeps : ∀ l ∈ (opened img faults).inner.segments,
      (opened img faults).disk.image.Holds l.number l.bytes := fun l hl => by
    obtain ⟨s, hs, hn, -, -, hh⟩ := mem_opened h faults hl
    exact hh.of_files (hn ▸ hfiles s hs)
  have hok : (opened img faults).Ok [] := by
    have hall : (opened img faults).numbers [] = img.listed.segments.map (·.1) := by
      unfold numbers
      rw [hnumbers]
      exact (List.append_nil _).trans (List.append_nil _)
    refine ⟨fun l hl => ?_, ?_, fun n hn => ?_, ⟨fun _ h => absurd h List.not_mem_nil,
      fun _ _ h => absurd h List.not_mem_nil, fun _ _ h => absurd h List.not_mem_nil,
      fun _ h => absurd h List.not_mem_nil⟩, PrefixSet.clean_empty⟩
    · obtain ⟨s, -, -, hok, -⟩ := mem_opened h faults hl
      exact hok
    · rw [hall]
      exact h.nodup
    · rw [hall] at hn
      obtain ⟨s, hs, rfl⟩ := List.mem_map.mp hn
      exact h.fresh s hs
  refine ⟨⟨.free (hok.loosely _), fun l hl => ?_, fun _ _ h => absurd h List.not_mem_nil,
    fun _ h => by cases h⟩, ⟨hcurrent, hpast, fun s hs => Or.inr ?_, fun _ h => absurd h List.not_mem_nil,
    fun _ h => absurd h List.not_mem_nil, fun l hl _ => ⟨⟨l.alive, rfl, hkeeps l hl⟩,
      Or.inl (hkeeps l hl)⟩, fun _ _ h => absurd h List.not_mem_nil, fun _ h => (by cases h),
    fun _ h => (by cases h), fun _ => ?_⟩⟩
  · obtain ⟨s, -, -, -, hq, -⟩ := mem_opened h faults hl
    exact hq
  · rw [hlisted, ← hsegments] at hs
    obtain ⟨l, hl, rfl⟩ := List.mem_map.mp hs
    exact ⟨l, hl, rfl, List.not_mem_nil⟩
  · rw [hlisted, ← hsegments]
    exact List.Perm.of_eq (congrArg (List.map _) (List.filter_eq_self.mpr fun _ _ => rfl).symm)

/-! ## Whatever becomes of an index -/

/-- An index just created is in order, and so is its empty directory. -/
theorem kept_empty (faults : List Bool) : Kept Q [] (empty faults) none := by
  have h : Image.empty.Opens Q :=
    ⟨rfl, List.nodup_nil, fun _ h => absurd h List.not_mem_nil, fun _ h => absurd h List.not_mem_nil⟩
  have heq := (openOrCreate_of_opens h faults).symm.trans (openOrCreate_empty faults)
  exact Option.some.inj heq ▸ kept_opened h faults

/-- Every index there can be: just created, after more calls of which any may fail, and opened again
from what the directory held when the process stopped. -/
inductive Lived : World → Prop where
  | created (faults : List Bool) : Lived (empty faults)
  | ran {w : World} (calls : List Call) : Lived w → Lived (w.run calls)
  | restarted {w w' : World} {img : Image} (faults : List Bool) : Lived w → img ∈ w.disk.past →
      openOrCreate (.of img faults) = some w' → Lived w'

theorem lived_kept (R : SegmentRule Q) (h : Lived w) : ∃ cs, Kept Q cs w none := by
  induction h with
  | created faults => exact ⟨[], kept_empty faults⟩
  | ran calls _ ih =>
    obtain ⟨cs, ih⟩ := ih
    exact (filedKeeper R).run (fun h => ⟨_, h⟩) calls ih (Guards.free_run calls _)
  | restarted faults _ hpast hopen ih =>
    obtain ⟨cs, ih⟩ := ih
    have hopens := ih.filed.past _ hpast
    obtain rfl := Option.some.inj ((openOrCreate_of_opens hopens faults).symm.trans hopen)
    exact ⟨[], kept_opened hopens faults⟩

/-! ## The order of a segment's rows -/

/-- The segment of rows that are in stored order. -/
def InOrder (seg : Segment) : Prop := ∃ es : List Entry, es.Pairwise storedLe ∧ seg = (buildSorted es).seg

theorem entries_sublist {l : Live} {es : List Entry} (h : l.seg = (buildSorted es).seg) :
    l.entries.Sublist es := by
  have htable := @buildSorted_table es
  unfold Segment.table at htable
  have heq : l.entries = ((List.range l.rows).filter l.isAlive).filterMap l.seg.entry :=
    List.filterMap_filter.symm
  have hrange : l.rows = (buildSorted es).seg.rows := congrArg Segment.rows h
  rw [heq, hrange, h]
  conv => rhs; rw [← htable]
  exact List.filter_sublist.filterMap _

/-- A build sorts its rows, and a fold of sorted segments is sorted. -/
theorem inOrder_rule : SegmentRule InOrder where
  build rows := ⟨rows.insertionSort storedLe, pairwise_stored rows, rfl⟩
  fold segs h := by
    have hsorted : ∀ xs ∈ segs.map Live.entries, xs.Pairwise fun a b => decide (storedLe a b) = true := by
      intro xs hxs
      obtain ⟨l, hl, rfl⟩ := List.mem_map.mp hxs
      obtain ⟨-, es, hes, hseg⟩ := h l hl
      exact (hes.sublist (entries_sublist hseg)).imp fun hab => decide_eq_true hab
    refine ⟨mergeRows segs, ?_, rfl⟩
    refine (Search.mergeHeads_pairwise (fun a b => ?_) (fun a b c hab hbc => ?_) hsorted).imp
      fun hab => of_decide_eq_true hab
    · exact (storedLe_total a b).imp decide_eq_true decide_eq_true
    · exact decide_eq_true (storedLe_trans (of_decide_eq_true hab) (of_decide_eq_true hbc))

/-! ## Wherever the process stops -/

/-- **Wherever the process stops, the index can be opened again**: whatever has been asked and
whatever has failed, in this life of the index and in those before, the segments that any image of
its directory names are there whole, their rows in stored order and a bit for each. -/
theorem lived_opens (h : Lived w) {img : Image} (hi : img ∈ w.disk.past) (faults : List Bool) :
    ∃ w', openOrCreate (.of img faults) = some w' ∧
      w'.inner.segments.map (fun l => (l.number, l.generation)) = img.listed.segments ∧
      ∀ l ∈ w'.inner.segments, ∃ es : List Entry, es.Pairwise storedLe ∧
        l.seg = (buildSorted es).seg ∧ l.alive.length = es.length := by
  obtain ⟨cs, hk⟩ := lived_kept inOrder_rule h
  have hopens := hk.filed.past img hi
  refine ⟨_, openOrCreate_of_opens hopens faults, segments_opened hopens faults, fun l hl => ?_⟩
  obtain ⟨-, -, -, ⟨es', hseg', hlen⟩, ⟨es, hsorted, hseg⟩, -⟩ := mem_opened hopens faults hl
  have hrows := congrArg Segment.rows (hseg'.symm.trans hseg)
  rw [buildSorted_rows, buildSorted_rows] at hrows
  exact ⟨es, hsorted, hseg, hlen.trans hrows⟩

/-- A file is written, and the process stops while its segment is. -/
def halfWritten : World := (empty []).run [.apply [.upsert (.file "/a")], .commit]

theorem halfWritten_past : 4 < halfWritten.disk.past.length := by decide +kernel

theorem lived_opens_halfWritten : ∃ w',
    openOrCreate (.of (halfWritten.disk.past.get ⟨4, halfWritten_past⟩) []) = some w' ∧
      w'.inner.segments.map (fun l => (l.number, l.generation)) =
        (halfWritten.disk.past.get ⟨4, halfWritten_past⟩).listed.segments ∧
      ∀ l ∈ w'.inner.segments, ∃ es : List Entry, es.Pairwise storedLe ∧
        l.seg = (buildSorted es).seg ∧ l.alive.length = es.length :=
  lived_opens (.ran _ (.created [])) (List.get_mem _ _) []

end World

end Scour
