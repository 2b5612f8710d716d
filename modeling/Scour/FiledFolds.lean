import Scour.FiledBuilds

/-!
# Folds and sweeps keep the directory true

The steps of `Filed` that rewrite segments or take rows by their source: a fold puts one segment in
the place of several, a segment kept in memory gets its files, a sweep and a source that is forgotten
leave bitmaps owed.
-/

namespace Scour

namespace World

variable {Q : Segment → Prop} {w w' : World} {held : Option Held} {owed : List Nat}

/-! ## Folds -/

section
variable {which : List Nat} {number : Nat} {folded : Option Live} {durable : Bool}

theorem mem_segments_putFolded {l : Live} :
    l ∈ (w.inner.putFolded which number folded durable).segments ↔
      (l ∈ w.inner.segments ∧ l.number ∉ which) ∨ folded = some l := by
  show l ∈ Inner.sortSegments (_ ++ _) ↔ _
  rw [(sortSegments_perm _).mem_iff, List.mem_append, List.mem_filter, Option.mem_toList,
    Bool.not_eq_true', List.contains_eq_mem, decide_eq_false_iff_not]

/-- The numbers of the segments a fold replaces. -/
theorem mem_replaced {n : Nat} :
    n ∈ (w.inner.segments.filter fun l => which.contains l.number).map (·.number) ↔
      n ∈ w.inner.segments.map (·.number) ∧ n ∈ which := by
  simp only [List.mem_map, List.mem_filter, List.contains_eq_mem, decide_eq_true_eq]
  constructor
  · rintro ⟨l, ⟨hl, hm⟩, rfl⟩
    exact ⟨⟨l, hl, rfl⟩, hm⟩
  · rintro ⟨⟨l, hl, rfl⟩, hm⟩
    exact ⟨l, ⟨hl, hm⟩, rfl⟩

theorem mem_unwritten_putFolded (hseg : number ∉ w.inner.segments.map (·.number)) {n : Nat} :
    n ∈ (w.inner.putFolded which number folded durable).unwritten ↔
      (n ∈ w.inner.unwritten ∧ ¬ (n ∈ w.inner.segments.map (·.number) ∧ n ∈ which)) ∨
        (n = number ∧ durable = false ∧ folded.isSome) := by
  unfold Inner.putFolded
  simp only
  rw [List.mem_filter, Bool.not_eq_true', List.contains_eq_mem, decide_eq_false_iff_not, mem_replaced]
  split
  · rename_i h
    rw [Bool.and_eq_true, Bool.not_eq_true'] at h
    rw [List.mem_append, List.mem_singleton]
    constructor
    · rintro ⟨hn | rfl, hr⟩
      · exact Or.inl ⟨hn, hr⟩
      · exact Or.inr ⟨rfl, h⟩
    · rintro (⟨hn, hr⟩ | ⟨rfl, -⟩)
      · exact ⟨Or.inl hn, hr⟩
      · exact ⟨Or.inr rfl, fun hm => hseg hm.1⟩
  · rename_i h
    rw [Bool.and_eq_true, Bool.not_eq_true'] at h
    exact (or_iff_left fun hn => h hn.2).symm

theorem mem_pendingErase_putFolded (hseg : number ∉ w.inner.segments.map (·.number)) {n : Nat} :
    n ∈ (w.inner.putFolded which number folded durable).pendingErase ↔ n ∈ w.inner.pendingErase ∨
      ((n ∈ w.inner.segments.map (·.number) ∧ n ∈ which) ∧ n ∉ w.inner.unwritten) := by
  unfold Inner.putFolded
  simp only
  rw [List.mem_append, List.mem_filter, mem_replaced, Bool.not_eq_true', List.contains_eq_mem,
    decide_eq_false_iff_not]
  refine or_congr_right (and_congr_right fun hn => not_congr ?_)
  split
  · rw [List.mem_append, List.mem_singleton]
    exact or_iff_left fun heq => hseg (heq ▸ hn.1)
  · exact Iff.rfl

end

theorem mem_numbers {hands : List Hand} {n : Nat} : n ∈ w.numbers hands ↔
    n ∈ w.inner.segments.map (·.number) ∨ n ∈ w.building.numbers ∨ n ∈ hands.map (·.1) := by
  unfold numbers
  rw [List.mem_append, List.mem_append, or_assoc]

/-- A fold leaves the index in order. -/
theorem Ok.putFolded (hw : w.Ok []) (which : List Nat) {number : Nat} (folded : Option Live)
    (durable : Bool) (hnum : number ∉ w.numbers [])
    (hf : ∀ l, folded = some l → l.Ok ∧ l.number = number) :
    ({ w with inner := w.inner.putFolded which number folded durable } : World).Ok [] := by
  have hp := sortSegments_perm
    ((w.inner.segments.filter fun l => !which.contains l.number) ++ folded.toList)
  have hlt : ∀ n ∈ w.numbers [], n < max w.inner.nextSegment (number + 1) := fun n hn =>
    lt_of_lt_of_le (hw.fresh n hn) (le_max_left _ _)
  refine ⟨fun l hl => ?_, ?_, fun n hn => ?_, hw.building, hw.clean⟩
  · rcases mem_segments_putFolded.mp hl with ⟨hl, -⟩ | hl
    · exact hw.segments l hl
    · exact (hf l hl).1
  · have hnd := hw.nodup
    unfold numbers at hnd ⊢
    rw [List.map_nil, List.append_nil] at hnd ⊢
    rw [mem_numbers, not_or] at hnum
    obtain ⟨hsegs, hbuild, hapart⟩ := List.nodup_append.mp hnd
    refine List.nodup_append.mpr ⟨?_, hbuild, ?_⟩
    · refine (hp.map _).nodup_iff.mpr ?_
      rw [List.map_append]
      refine List.nodup_append.mpr ⟨hsegs.sublist (List.filter_sublist.map _), ?_, ?_⟩
      · cases folded <;> simp
      · rintro n hn m hm rfl
        obtain ⟨l, hl, rfl⟩ := List.mem_map.mp hm
        obtain ⟨k, hk, heq⟩ := List.mem_map.mp hn
        rw [(hf l (Option.mem_toList.mp hl)).2] at heq
        exact hnum.1 (List.mem_map.mpr ⟨k, List.mem_of_mem_filter hk, heq⟩)
    · rintro n hn m hm rfl
      obtain ⟨l, hl, rfl⟩ := List.mem_map.mp hn
      rcases mem_segments_putFolded.mp hl with ⟨hl, -⟩ | hl
      · exact hapart _ (List.mem_map_of_mem hl) _ hm rfl
      · rw [(hf l hl).2] at hm
        exact hnum.2 (Or.inl hm)
  · rcases mem_numbers.mp hn with hn | hn
    · obtain ⟨l, hl, rfl⟩ := List.mem_map.mp hn
      rcases mem_segments_putFolded.mp hl with ⟨hl, -⟩ | hl
      · exact hlt _ (mem_numbers.mpr (Or.inl (List.mem_map_of_mem hl)))
      · rw [(hf l hl).2]
        exact lt_of_lt_of_le (Nat.lt_succ_self _) (le_max_right _ _)
    · exact hlt _ (mem_numbers.mpr (Or.inr hn))

/-- The written copy of a segment is the segment. -/
theorem adoptAlive_eq {live written : Live} (hn : written.number = live.number)
    (hg : written.generation = live.generation) (hs : written.seg = live.seg) :
    written.adoptAlive live = live := by
  obtain ⟨number, generation, seg, alive, deaths⟩ := live
  simp only at hn hg hs
  subst hn hg hs
  rfl

/-- A segment that has been written down is the segment it was. -/
theorem adoptWritten_eq (hw : w.Ok []) {number : Nat} {live written : Live} {disk : Disk}
    (hl : w.inner.segment? number = some live)
    (hwrite : (Live.write w.disk number live.generation live.bytes).2 = some written) :
    ({ w with disk } : World).adoptWritten number live.deaths written = { w with
      disk
      inner := { w.inner with
        unwritten := w.inner.unwritten.filter (· ≠ number), metaDirty := true } } := by
  obtain ⟨hmem, hnumber⟩ := Inner.mem_of_segment? hl
  have hfull : live.bytes.Full := by
    obtain ⟨es, h1, -⟩ := hw.segments live hmem
    intro d hd
    show live.seg.derived d ≠ none
    rw [h1]
    exact Live.build_full es d hd
  have hseg : written.seg = live.seg := Live.assemble_seg (Live.write_eq _ _ _ _ hfull _ hwrite)
  obtain ⟨hn, hg⟩ := Live.write_stamp hwrite
  have hmap : (w.inner.segments.map fun l => if l.number = number then live else l) =
      w.inner.segments := by
    refine (List.map_congr_left fun l hl => ?_).trans (List.map_id _)
    split
    · rename_i heq
      exact number_eq hw.segments_nodup hmem hl (hnumber.trans heq.symm)
    · rfl
  unfold adoptWritten
  rw [show ({ w with disk } : World).inner.segment? number = some live from hl]
  simp only
  rw [adoptAlive_eq (hn.trans hnumber.symm) hg hseg, hmap, if_neg (not_not.mpr rfl)]

namespace Filed

/-- The merged segment takes the place of its inputs, whose files wait to be erased. -/
theorem putFolded (h : w.Filed Q none owed) (which : List Nat) {number : Nat}
    (folded : Option Live) (durable : Bool) (hw : w.Ok []) (hnum : number ∉ w.numbers [])
    (herase : number ∉ w.inner.pendingErase)
    (hf : ∀ l, folded = some l → l.number = number ∧
      (durable = true → w.disk.image.Holds number l.bytes)) :
    ({ w with inner := w.inner.putFolded which number folded durable } : World).Filed Q none
      owed := by
  have hseg : number ∉ w.inner.segments.map (·.number) := fun hm => hnum (mem_numbers.mpr (Or.inl hm))
  -- a segment that stays and has files had them before
  have hstays : ∀ l ∈ w.inner.segments, l.number ∉ which →
      l.number ∉ (w.inner.putFolded which number folded durable).unwritten →
        l.number ∉ w.inner.unwritten := fun l hl hwhich hn hm =>
    hn ((mem_unwritten_putFolded hseg).mpr (Or.inl ⟨hm, fun hr => hwhich hr.2⟩))
  refine ⟨h.current, h.past, fun s hs => ?_, fun n hn => ?_, fun n hn => ?_, fun l hl hn => ?_,
    h.landed, fun _ hw => (by cases hw), fun _ hw => (by cases hw), fun hd => ?_⟩
  · rcases h.named s hs with hp | ⟨l, hl, heq, hn⟩
    · exact Or.inl ((mem_pendingErase_putFolded hseg).mpr (Or.inl hp))
    · have hin : l.number ∈ w.inner.segments.map (·.number) := List.mem_map_of_mem hl
      by_cases hwhich : l.number ∈ which
      · rw [← heq]
        exact Or.inl ((mem_pendingErase_putFolded hseg).mpr (Or.inr ⟨⟨hin, hwhich⟩, hn⟩))
      · refine Or.inr ⟨l, mem_segments_putFolded.mpr (Or.inl ⟨hl, hwhich⟩), heq, fun hm => ?_⟩
        rcases (mem_unwritten_putFolded hseg).mp hm with ⟨hm, -⟩ | ⟨heq, -⟩
        · exact hn hm
        · exact hseg (heq ▸ hin)
  · have hgone : n ∈ w.inner.pendingErase ∨ (n ∈ w.inner.segments.map (·.number) ∧ n ∈ which) :=
      ((mem_pendingErase_putFolded hseg).mp hn).imp_right And.left
    have hne : n ≠ number := by
      rintro rfl
      exact hgone.elim herase fun hr => hseg hr.1
    have hlt : n < w.inner.nextSegment :=
      hgone.elim (fun hp => (h.erased n hp).1) fun hr => hw.fresh n (mem_numbers.mpr (Or.inl hr.1))
    refine ⟨lt_of_lt_of_le hlt (le_max_left _ _), fun hm => ?_⟩
    rcases mem_numbers.mp hm with hm | hm
    · obtain ⟨l, hl, rfl⟩ := List.mem_map.mp hm
      rcases mem_segments_putFolded.mp hl with ⟨hl, hwhich⟩ | hl
      · rcases hgone with hp | ⟨-, hr⟩
        · exact (h.erased _ hp).2 (mem_numbers.mpr (Or.inl (List.mem_map_of_mem hl)))
        · exact hwhich hr
      · exact hne (hf l hl).1
    · rcases hgone with hp | ⟨hr, -⟩
      · exact (h.erased _ hp).2 (mem_numbers.mpr (Or.inr hm))
      · refine hw.not_mem_segments ?_ hr
        exact hm.resolve_right List.not_mem_nil
  · rcases (mem_unwritten_putFolded hseg).mp hn with ⟨hm, hr⟩ | ⟨rfl, -, hsome⟩
    · obtain ⟨l, hl, rfl⟩ := h.unwritten n hm
      have hwhich : l.number ∉ which := fun hw => hr ⟨List.mem_map_of_mem hl, hw⟩
      exact ⟨l, mem_segments_putFolded.mpr (Or.inl ⟨hl, hwhich⟩), rfl⟩
    · obtain ⟨l, hl⟩ := Option.isSome_iff_exists.mp hsome
      exact ⟨l, mem_segments_putFolded.mpr (Or.inr hl), (hf l hl).1⟩
  · rcases mem_segments_putFolded.mp hl with ⟨hl, hwhich⟩ | hnew
    · exact h.files l hl (hstays l hl hwhich hn)
    · obtain ⟨rfl, hholds⟩ := hf l hnew
      have hdurable : durable = true := by
        cases durable with
        | true => rfl
        | false => exact absurd ((mem_unwritten_putFolded hseg).mpr
            (Or.inr ⟨rfl, rfl, Option.isSome_iff_exists.mpr ⟨l, hnew⟩⟩)) hn
      exact ⟨⟨l.alive, rfl, hholds hdurable⟩, Or.inl (hholds hdurable)⟩
  · -- the manifest is not behind: only what had no files was replaced, by what has none
    have hd : (w.inner.metaDirty || durable ||
      !(List.filter (fun n => !(if (!durable && folded.isSome) = true then
        w.inner.unwritten ++ [number] else w.inner.unwritten).contains n)
          ((w.inner.segments.filter fun l => which.contains l.number).map (·.number))).isEmpty) =
        false := hd
    rw [Bool.or_eq_false_iff, Bool.or_eq_false_iff, Bool.not_eq_false', List.isEmpty_iff] at hd
    obtain ⟨⟨hdirty, rfl⟩, hnone⟩ := hd
    have hreplaced : ∀ n, n ∈ w.inner.segments.map (·.number) → n ∈ which →
        n ∈ w.inner.unwritten := by
      intro n h1 h2
      by_contra hn
      have hm : n ∈ (w.inner.putFolded which number folded false).pendingErase :=
        (mem_pendingErase_putFolded hseg).mpr (Or.inr ⟨⟨h1, h2⟩, hn⟩)
      have hall : (w.inner.putFolded which number folded false).pendingErase =
          w.inner.pendingErase := by
        show w.inner.pendingErase ++ _ = _
        rw [hnone, List.append_nil]
      rw [hall] at hm
      exact (h.erased n hm).2 (mem_numbers.mpr (Or.inl h1))
    refine (h.manifest hdirty).trans ?_
    have hp := sortSegments_perm
      ((w.inner.segments.filter fun l => !which.contains l.number) ++ folded.toList)
    show List.Perm (List.map _ _) (List.map _ (List.filter _ (Inner.sortSegments _)))
    refine List.Perm.map _ (List.Perm.trans ?_ (hp.filter _).symm)
    rw [List.filter_append]
    have hnew : folded.toList.filter (fun l =>
        !(w.inner.putFolded which number folded false).unwritten.contains l.number) = [] := by
      refine List.filter_eq_nil_iff.mpr fun l hl => ?_
      have hl := Option.mem_toList.mp hl
      have hm : l.number ∈ (w.inner.putFolded which number folded false).unwritten :=
        (mem_unwritten_putFolded hseg).mpr
          (Or.inr ⟨(hf l hl).1, rfl, Option.isSome_iff_exists.mpr ⟨l, hl⟩⟩)
      simpa using hm
    refine List.Perm.of_eq ?_
    rw [hnew, List.append_nil, List.filter_filter]
    refine List.filter_congr fun l hl => ?_
    have hin : l.number ∈ w.inner.segments.map (·.number) := List.mem_map_of_mem hl
    have hne : l.number ≠ number := fun heq => hseg (heq ▸ hin)
    rw [Bool.eq_iff_iff, Bool.and_eq_true]
    simp only [Bool.not_eq_true', List.contains_eq_mem, decide_eq_false_iff_not]
    rw [mem_unwritten_putFolded hseg]
    have hr := hreplaced l.number hin
    tauto

/-- The merged segment is written, where it is to be durable. -/
theorem foldWrite (h : w.Filed Q none owed) {number : Nat} (hnum : number ∉ w.numbers [])
    (herase : number ∉ w.inner.pendingErase) {input : FoldInput} {es : List Entry}
    (hb : input.bytes = buildSorted es) (durable : Bool) :
    (w.foldWrite number input durable).Meets
      (fun w' folded => (∃ disk, w' = { w with disk }) ∧ w'.Filed Q none owed ∧
        ∀ l, folded = some l → l = .ofBytes number input.generation (buildSorted es) ∧
          (durable = true → w'.disk.image.Holds number l.bytes))
      fun w' => w'.Filed Q none owed := by
  rw [mem_numbers, not_or, not_or] at hnum
  obtain ⟨hseg, hair, -⟩ := hnum
  have hdisk := h.disk (Live.write_only w.disk number input.generation input.bytes)
    (h.current.write _ _ _) (fun l hl heq => absurd (List.mem_map.mpr ⟨l, hl, heq⟩) hseg)
    (fun l hl => hair (List.mem_append_right _ (List.mem_map.mpr ⟨_, hl, rfl⟩)))
    (fun _ hlive => by cases hlive) herase
  unfold World.foldWrite
  split
  · exact (Search.Outcome.meets_ok _ _ _ _).mpr
      ⟨⟨w.disk, rfl⟩, h, fun _ hl => by cases hl⟩
  · split
    · simp only
      cases hwrite : (Live.write w.disk number input.generation input.bytes).2 with
      | none => exact (Search.Outcome.meets_err _ _ _).mpr hdisk
      | some live =>
        have hfull : input.bytes.Full := hb ▸ Live.build_full es
        have hholds := Live.write_holds _ _ _ _ _ hwrite
        have heq := Live.write_eq _ _ _ _ hfull _ hwrite
        rw [hb, Live.fromBytes_buildSorted] at heq
        cases heq
        refine (Search.Outcome.meets_ok _ _ _ _).mpr ⟨⟨_, rfl⟩, hdisk, fun l hl => ?_⟩
        cases hl
        refine ⟨rfl, fun _ => ?_⟩
        show (Live.write w.disk number input.generation input.bytes).1.image.Holds number
          (buildSorted es)
        rw [← hb]
        exact hholds
    · rename_i hdurable
      rw [hb, Live.fromBytes_buildSorted]
      refine (Search.Outcome.meets_ok _ _ _ _).mpr ⟨⟨w.disk, rfl⟩, h, fun l hl => ?_⟩
      cases hl
      exact ⟨rfl, fun hd => absurd hd hdurable⟩

/-- The merged segment is published, or erased again. -/
theorem foldPublish (h : w.Filed Q none owed) (hw : w.Ok []) (hq : w.Holds Q none)
    {which : List Nat} {number generation : Nat} {snapshot : List (Nat × Nat)}
    {folded : Option Live} {durable : Bool} {es : List Entry} (hnum : number ∉ w.numbers [])
    (herase : number ∉ w.inner.pendingErase) (hes : Q (buildSorted es).seg)
    (hf : ∀ l, folded = some l → l = .ofBytes number generation (buildSorted es) ∧
      (durable = true → w.disk.image.Holds number l.bytes)) :
    (w.foldPublish which number snapshot folded durable).Meets (fun w _ => w.Filed Q none owed)
      fun w => w.Filed Q none owed := by
  unfold World.foldPublish
  split
  · refine (Search.Outcome.meets_ok _ _ _ _).mpr ?_
    split
    · rw [mem_numbers, not_or, not_or] at hnum
      obtain ⟨hseg, hair, -⟩ := hnum
      exact h.disk (Disk.erase_only _ _) (h.current.erase number)
        (fun l hl heq => absurd (List.mem_map.mpr ⟨l, hl, heq⟩) hseg)
        (fun l hl => hair (List.mem_append_right _ (List.mem_map.mpr ⟨_, hl, rfl⟩)))
        (fun _ hlive => by cases hlive) herase
    · exact h
  · have hput := h.putFolded which folded durable hw hnum herase
      fun l hl => by
        obtain ⟨rfl, hh⟩ := hf l hl
        exact ⟨rfl, hh⟩
    have hok := hw.putFolded which folded durable hnum fun l hl => by
      obtain ⟨rfl, -⟩ := hf l hl
      exact ⟨Live.ofBytes_ok _ _ _, rfl⟩
    have hholds : ({ w with inner := w.inner.putFolded which number folded durable } : World).Holds Q
        none := by
      refine ⟨fun l hl => ?_, hq.landed, fun _ hw => by cases hw⟩
      rcases mem_segments_putFolded.mp hl with ⟨hl, -⟩ | hl
      · exact hq.segments l hl
      · obtain ⟨rfl, -⟩ := hf l hl
        exact hes
    simp only
    split
    · refine Search.Outcome.Meets.bind (Search.Outcome.Meets.of_world
        (I := fun w : World => w.Filed Q none owed) (hput.saveMeta hok hholds)) fun w _ hw => ?_
      exact (Search.Outcome.meets_ok _ _ _ _).mpr hw
    · exact (Search.Outcome.meets_ok _ _ _ _).mpr hput

/-- A fold. -/
theorem foldTo (R : SegmentRule Q) (h : w.Filed Q none []) (hw : w.Ok []) (hq : w.Holds Q none)
    (which : List Nat) (durable : Bool) :
    (w.foldTo which durable).Meets (fun w _ => w.Filed Q none []) fun w => w.Filed Q none [] := by
  have hnum : w.inner.nextSegment ∉ w.numbers [] := fun hm => lt_irrefl _ (hw.fresh _ hm)
  have herase : w.inner.nextSegment ∉ w.inner.pendingErase := fun hm =>
    lt_irrefl _ (h.erased _ hm).1
  have hclaim : (w.foldClaim durable).1.Filed Q none [] := h.still
    ⟨rfl, rfl, rfl, rfl, rfl, List.Subset.refl _, fun hd => (Bool.or_eq_false_iff.mp hd).1,
      Nat.le_succ _⟩
  have hok : (w.foldClaim durable).1.Ok [] := ⟨hw.segments, hw.nodup,
    fun n hn => lt_of_lt_of_le (hw.fresh n hn) (Nat.le_succ _), hw.building, hw.clean⟩
  unfold World.foldTo
  split
  · exact (Search.Outcome.meets_ok _ _ _ _).mpr h
  · simp only
    cases hb : (w.foldClaim durable).1.foldBuild which with
    | none => exact (Search.Outcome.meets_ok _ _ _ _).mpr hclaim
    | some input =>
      have hbytes : input.bytes = buildSorted (mergeRows
          (w.inner.segments.filter fun l => which.contains l.number)) := by
        unfold World.foldBuild at hb
        simp only at hb
        split at hb
        · cases hb
        · rw [← Option.some.inj hb]
          rfl
      have hes := R.fold (w.inner.segments.filter fun l => which.contains l.number) fun l hl =>
        ⟨hw.segments l (List.mem_of_mem_filter hl), hq.segments l (List.mem_of_mem_filter hl)⟩
      refine Search.Outcome.Meets.bind (hclaim.foldWrite hnum herase hbytes durable)
        fun w' folded hw' => ?_
      obtain ⟨⟨disk, rfl⟩, hfiled, hf⟩ := hw'
      exact hfiled.foldPublish ⟨hok.segments, hok.nodup, hok.fresh, hok.building, hok.clean⟩
        ⟨hq.segments, hq.landed, fun _ hw => by cases hw⟩ hnum herase hes hf

/-! ## Segments kept in memory -/

/-- A segment that was only in memory gets its files. -/
theorem writeUnwritten (h : w.Filed Q none []) (hw : w.Ok []) (number : Nat) :
    (w.writeUnwritten number).world.Filed Q none [] := by
  unfold World.writeUnwritten
  cases hl : w.inner.segment? number with
  | none => exact h
  | some live =>
    obtain ⟨hmem, hnumber⟩ := Inner.mem_of_segment? hl
    have hin : number ∈ w.inner.segments.map (·.number) := List.mem_map.mpr ⟨live, hmem, hnumber⟩
    simp only
    split
    · exact h
    · rename_i hun
      have hun : number ∈ w.inner.unwritten := by simpa using hun
      have hdisk := h.disk (Live.write_only w.disk number live.generation live.bytes)
        (h.current.write _ _ _) (fun l _ _ => hun)
        (fun l hl => hw.not_mem_segments
          (List.mem_append_right _ (List.mem_map.mpr ⟨_, hl, rfl⟩)) hin)
        (fun _ hlive => by cases hlive) (h.not_mem_pendingErase (mem_numbers.mpr (Or.inl hin)))
      cases hwrite : (Live.write w.disk number live.generation live.bytes).2 with
      | none => exact hdisk
      | some written =>
        have hholds := Live.write_holds _ _ _ _ _ hwrite
        simp only [Search.Outcome.ok]
        rw [adoptWritten_eq hw hl hwrite]
        have hsub : ∀ n, n ∈ w.inner.unwritten.filter (· ≠ number) ↔
            n ∈ w.inner.unwritten ∧ n ≠ number := fun n => by simp
        refine ⟨hdisk.current, hdisk.past, fun s hs => ?_, hdisk.erased, fun n hn => ?_,
          fun l hl hn => ?_, hdisk.landed, fun _ hw => (by cases hw), fun _ hw => (by cases hw),
          fun hd => by cases hd⟩
        · obtain hpending | ⟨l, hl, heq, hn⟩ := hdisk.named s hs
          · exact Or.inl hpending
          · exact Or.inr ⟨l, hl, heq, fun hm => hn ((hsub _).mp hm).1⟩
        · exact h.unwritten n ((hsub n).mp hn).1
        · by_cases heq : l.number = number
          · obtain rfl := number_eq hw.segments_nodup hl hmem (heq.trans hnumber.symm)
            rw [heq]
            exact ⟨⟨l.alive, rfl, hholds⟩, Or.inl hholds⟩
          · exact hdisk.files l hl fun hm => hn ((hsub _).mpr ⟨hm, heq⟩)

/-- The bitmaps that are newer than their files are written, or stay owed. -/
theorem writeDirtyAlive (h : w.Filed Q none []) (hw : w.Ok []) (hq : w.Holds Q none) :
    w.writeDirtyAlive.world.Filed Q none [] := by
  have htake := h.takeDirty
  have hok : ({ w with inner := w.inner.takeDirtyAlive.1 } : World).Ok [] :=
    ⟨hw.segments, hw.nodup, hw.fresh, hw.building, hw.clean⟩
  have hqtake : ({ w with inner := w.inner.takeDirtyAlive.1 } : World).Holds Q none :=
    ⟨hq.segments, hq.landed, fun _ hw => by cases hw⟩
  have hall : ({ w with inner := w.inner.takeDirtyAlive.1 } : World).Filed Q none
      (w.inner.takeDirtyAlive.2.map (·.1) ++ []) := by
    rw [List.append_nil]
    exact htake
  have hwrite := writeAlive w.inner.takeDirtyAlive.2 hall hok hqtake (bits_takeDirty w)
  unfold World.writeDirtyAlive
  generalize w.inner.takeDirtyAlive = taken at htake hwrite
  obtain ⟨inner, alive⟩ := taken
  simp only at htake hwrite ⊢
  split
  · rename_i hempty
    rw [List.isEmpty_iff.mp hempty] at htake
    exact htake
  · split
    · rename_i hok
      exact hwrite.2 hok
    · refine Filed.remember (hwrite.1.owe fun l hl ho => List.mem_filter.mpr ⟨?_, ?_⟩)
      · rwa [List.append_nil] at ho
      · exact List.any_eq_true.mpr ⟨l, hl, by simp⟩

/-! ## Sweeps, and sources that are forgotten -/

/-- Some rows die, and the bitmaps they were in are remembered as newer than their files. -/
theorem killAll (h : w.Filed Q none []) (hw : w.Ok []) (kill : Live → Live × Nat)
    (hk : ∀ l, l.Ok → l.Later (kill l).1 ∧ ((kill l).2 = 0 → (kill l).1 = l))
    (seen : Nat → Option (List Bool)) :
    ({ w with inner := { w.inner with
      seen
      segments := (w.inner.segments.map kill).map (·.1)
      dirtyAlive := w.inner.dirtyAlive ++
        ((w.inner.segments.map kill).filter fun p => 0 < p.2).map fun p => p.1.number } } :
      World).Filed Q none [] := by
  refine h.kill (fun l => (kill l).1) ?_ fun l hl ho => Or.inl ?_
  · exact ⟨rfl, List.map_map, fun l hl => (hk l (hw.segments l hl)).1, rfl, rfl, id, le_refl _, rfl,
      rfl, fun _ => id⟩
  · obtain ⟨hlater, hzero⟩ := hk l (hw.segments l hl)
    rcases ho with hd | ho | hne
    · exact List.mem_append_left _ hd
    · cases ho
    · refine List.mem_append_right _ (List.mem_map.mpr
        ⟨kill l, List.mem_filter.mpr ⟨List.mem_map_of_mem hl, ?_⟩, hlater.number⟩)
      exact decide_eq_true (Nat.pos_of_ne_zero fun h0 => hne (congrArg Live.alive (hzero h0)))

theorem forgetKill (h : w.Filed Q none []) (hw : w.Ok []) (source : SourceId) :
    (w.forgetKill source).1.Filed Q none [] :=
  h.killAll hw _ (fun l hl => ⟨Live.killAll_later _ l hl.length_le,
    Live.killAll_eq_self _ l hl.length_le⟩) w.inner.seen

theorem closeGeneration (h : w.Filed Q held owed) (generation : Nat) :
    (w.closeGeneration generation).Filed Q held owed := by
  unfold World.closeGeneration
  split
  · exact h.still ⟨rfl, rfl, rfl, rfl, rfl, List.Subset.refl _, (nomatch ·), le_refl _⟩
  · exact h

theorem sweepJudge (h : w.Filed Q none []) (hw : w.Ok []) (source : SourceId) (under : List Root)
    (generation : Nat) (spare : PrefixSet) :
    (w.sweepJudge source under generation spare).world.Filed Q none [] := by
  have hc := h.closeGeneration generation
  have hok := (closeGeneration_sound (hw.loosely ∅) generation).toOk
  unfold World.sweepJudge
  generalize w.closeGeneration generation = c at hc hok
  let kill (l : Live) : Live × Nat := if generation ≤ l.generation then (l, 0)
    else l.killAll (sweepVictims l source under (c.inner.seen l.number) spare)
  have hkill : ∀ l : Live, l.Ok → l.Later (kill l).1 ∧ ((kill l).2 = 0 → (kill l).1 = l) := by
    intro l hl
    simp only [kill]
    split
    · exact ⟨Live.Later.refl l, fun _ => rfl⟩
    · exact ⟨Live.killAll_later _ l hl.length_le, Live.killAll_eq_self _ l hl.length_le⟩
  refine (hc.killAll hok kill hkill fun _ => none).emptied ?_ fun p hp => by cases hp
  exact hok.of_later (fun l => (kill l).1) (fun l hl => (hkill l (hok.segments l hl)).1)
    List.map_map rfl rfl rfl

end Filed

end World

end Scour
