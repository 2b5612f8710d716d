import Scour.Alike
import Scour.Durable

/-!
# What an index answers

A search reads the segments in the list and the removals that are pending.  What it answers is a page
of the live rows (`search_served`), so nothing that only moves rows between segments, or between
memory and the directory, changes an answer (`search_quiet`, `search_reopened`), and what has been
written is what is found (`search_sessions`).
-/

namespace Scour

/-! ## Segments as they are read -/

/-- The files of a segment as a search has them: its rows, which of them are live, and whatever order
files it has. -/
structure OpenSegment.Reads {P : Platform} (o : OpenSegment P) (l : Live) : Prop where
  seg : l.seg = (buildSorted o.entries).seg
  alive : ∀ row, l.isAlive row = bitAt o.alive row

section
variable {P : Platform} {o : OpenSegment P} {l : Live}

theorem OpenSegment.isAlive_eq (o : OpenSegment P) {row : Nat} (hrow : row < o.entries.length) :
    o.view.isAlive row = bitAt o.alive row := by
  have hlt : row / 8 < o.alive.length := by
    rw [o.bits]
    omega
  have hbyte : o.view.alive[row / 8]? = some o.alive[row / 8] := List.getElem?_eq_getElem hlt
  unfold bitAt
  rw [View.isAlive, hbyte, List.getElem?_eq_getElem hlt]

theorem OpenSegment.Reads.table (h : o.Reads l) : o.entries = l.seg.table := by
  rw [h.seg, buildSorted_table]

/-- Its live rows are the rows the segment holds. -/
theorem OpenSegment.Reads.liveEntries (h : o.Reads l) : o.liveEntries = l.entries := by
  have hentries : l.entries = ((List.range l.rows).filter l.isAlive).filterMap l.seg.entry :=
    List.filterMap_filter.symm
  have hrows : l.rows = o.entries.length := by
    unfold Live.rows
    rw [h.seg, buildSorted_rows]
  rw [hentries, hrows, h.seg]
  show ((List.range (buildSorted o.entries).seg.rows).filter o.view.isAlive).filterMap _ = _
  rw [buildSorted_rows]
  refine congrArg (List.filterMap _) (List.filter_congr fun row hrow => ?_)
  rw [o.isAlive_eq (List.mem_range.mp hrow), h.alive]

/-- The bitmap of a list of live bits. -/
def packBits (bits : List Bool) : Str :=
  (List.range bits.length).foldl (fun acc i => if bits.getD i false then markBit acc i else acc)
    (List.replicate ((bits.length + 7) / 8) 0)

theorem length_marks (p : Nat → Bool) (positions : List Nat) : ∀ bits : Str,
    (positions.foldl (fun acc i => if p i then markBit acc i else acc) bits).length = bits.length := by
  induction positions with
  | nil => exact fun _ => rfl
  | cons i positions ih =>
    intro bits
    rw [List.foldl_cons, ih]
    split
    · rw [markBit, List.length_modify]
    · rfl

theorem bitAt_packBits (bits : List Bool) (row : Nat) :
    bitAt (packBits bits) row = bits.getD row false := by
  unfold packBits
  have hzero : bitAt (List.replicate ((bits.length + 7) / 8) (0 : UInt8)) row = false := by
    rw [bitAt_getD, List.getD_eq_getElem?_getD, List.getElem?_replicate]
    split <;> simp
  rw [bitAt_marks (fun i => bits.getD i false) _ _ fun i hi => ?_, hzero, Bool.false_or]
  · by_cases hrow : row < bits.length
    · rw [List.contains_eq_mem, decide_eq_true (List.mem_range.mpr hrow), Bool.true_and]
    · rw [List.getD_eq_default _ _ (Nat.le_of_not_lt hrow), Bool.and_false]
  · have := List.mem_range.mp hi
    rw [List.length_replicate]
    omega

/-- Every segment of an index can be read. -/
theorem exists_reads (P : Platform) (hl : l.Ok) (hs : World.InOrder l.seg) :
    ∃ o : OpenSegment P, o.Reads l := by
  obtain ⟨es, hsorted, hseg⟩ := hs
  obtain ⟨es', hseg', hlen⟩ := hl
  have hrows := congrArg Segment.rows (hseg'.symm.trans hseg)
  rw [buildSorted_rows, buildSorted_rows] at hrows
  have hbits : (packBits l.alive).length = (es.length + 7) / 8 := by
    unfold packBits
    rw [length_marks, List.length_replicate, hlen, hrows]
  refine ⟨⟨es, packBits l.alive, ⟨none, none, none⟩, [], hsorted, hbits, fun row hrow => ?_,
    noOrders _, List.Pairwise.nil⟩, hseg, fun row => (bitAt_packBits l.alive row).symm⟩
  rw [bitAt_packBits] at hrow
  by_contra hge
  rw [List.getD_eq_default _ _ (by omega)] at hrow
  cases hrow

end

/-- The call moves rows about, and neither adds nor takes one. -/
def Call.quiet : Call → Bool
  | .persist | .fold _ _ | .land _ | .abandonGeneration _ => true
  | _ => false

namespace World

variable {P : Platform} {w w' w'' : World} {ls ls' : List (OpenSegment P)}
  {req : SearchRequest} {total : Entry → Option Int64}

/-- The segments of the list, as a search has them. -/
def Served (w : World) (ls : List (OpenSegment P)) : Prop :=
  List.Forall₂ (fun o l => o.Reads l) ls w.inner.segments

/-- Every row there is, dead ones too. -/
def stored (w : World) : List Entry := w.inner.segments.flatMap fun l => l.seg.table

theorem flatMap_served {f : OpenSegment P → List Entry} {g : Live → List Entry}
    (hfg : ∀ o l, o.Reads l → f o = g l) {segments : List Live}
    (h : List.Forall₂ (fun o l => o.Reads l) ls segments) : ls.flatMap f = segments.flatMap g := by
  induction h with
  | nil => rfl
  | cons hone _ ih => rw [List.flatMap_cons, List.flatMap_cons, hfg _ _ hone, ih]

theorem Served.liveRows (h : w.Served ls) : ls.flatMap OpenSegment.liveEntries = w.liveRows :=
  flatMap_served (fun _ _ hr => hr.liveEntries) h

theorem Served.stored (h : w.Served ls) : rowsOf (segmentsOf ls) = w.stored := by
  unfold rowsOf segmentsOf
  rw [List.flatMap_map]
  exact flatMap_served (fun _ _ hr => hr.table) h

/-- An index that has come to be in any way can be read. -/
theorem exists_served (P : Platform) (h : Lived w) : ∃ ls : List (OpenSegment P), w.Served ls := by
  obtain ⟨cs, hk⟩ := lived_kept inOrder_rule h
  have hall : ∀ l ∈ w.inner.segments, ∃ o : OpenSegment P, o.Reads l := fun l hl =>
    exists_reads P (hk.ok.segments l hl) (hk.holds.segments l hl)
  unfold Served
  generalize w.inner.segments = segments at hall
  induction segments with
  | nil => exact ⟨[], .nil⟩
  | cons l segments ih =>
    obtain ⟨o, ho⟩ := hall l List.mem_cons_self
    obtain ⟨ls, hls⟩ := ih fun l hl => hall l (List.mem_cons_of_mem _ hl)
    exact ⟨o :: ls, .cons ho hls⟩

/-- What a request needs of an index: the query compiles, no two live rows spell one path and, where
a page may be reached, the dates of the rows are less than `2^63` apart. -/
structure Asked (P : Platform) (w : World) (req : SearchRequest) : Prop where
  compiles : req.query.compiles P = true
  paths : PathsApart w.liveRows
  dates : req.storedOrder = true → ∀ a ∈ w.stored, ∀ b ∈ w.stored,
    -2 ^ 63 ≤ a.info.mtime ∧ a.info.mtime < 2 ^ 63 ∧ b.info.mtime - a.info.mtime < 2 ^ 63

theorem Asked.answerable (h : w.Asked P req) (hw : w.Ok []) (hs : w.Served ls)
    (htotal : req.sort = .size → ∀ o ∈ ls, o.Totals total) :
    Answerable w.inner.hiddenPrefixes req total ls where
  compiles := h.compiles
  clean := hw.clean
  paths := by
    rw [hs.liveRows]
    exact h.paths
  dates hstored := by
    unfold Dated Close
    rw [hs.stored]
    refine ⟨fun a ha => ?_, fun a ha b hb => (h.dates hstored a ha b hb).2.2⟩
    obtain ⟨h1, h2, -⟩ := h.dates hstored a ha a ha
    exact ⟨h1, h2⟩
  totals := htotal

/-- A search answers with a page of the live rows that are not hidden. -/
theorem search_served (u : Search.Unstable Candidate) (h : w.Asked P req) (hw : w.Ok [])
    (hs : w.Served ls) (htotal : req.sort = .size → ∀ o ∈ ls, o.Totals total) :
    search w.inner.hiddenPrefixes req u ls =
      .ok (pageOf P req (ranked P w.inner.hiddenPrefixes req total w.liveRows)) := by
  rw [search_ranked u (h.answerable hw hs htotal), hs.liveRows]

/-! ## What changes no answer -/

/-- The same rows are live and the same removals pending, and no other row is there. -/
structure Unmoved (w w' : World) : Prop where
  hidden : w'.inner.hiddenPrefixes = w.inner.hiddenPrefixes
  liveRows : w'.liveRows.Perm w.liveRows
  stored : w'.stored ⊆ w.stored

theorem Unmoved.trans (h : w.Unmoved w') (h' : w'.Unmoved w'') : w.Unmoved w'' :=
  ⟨h'.hidden.trans h.hidden, h'.liveRows.trans h.liveRows, List.Subset.trans h'.stored h.stored⟩

theorem Unmoved.of_eq (hs : w'.inner.segments = w.inner.segments)
    (hh : w'.inner.hiddenPrefixes = w.inner.hiddenPrefixes) : w.Unmoved w' := by
  refine ⟨hh, ?_, ?_⟩
  · unfold World.liveRows
    rw [hs]
  · unfold World.stored
    rw [hs]
    exact List.Subset.refl _

theorem Unmoved.refl (w : World) : w.Unmoved w := .of_eq rfl rfl

theorem Unmoved.same (h : w.Same w') : w.Unmoved w' := .of_eq h.segments h.hidden

/-- One call after another, where each leaves the index in order. -/
theorem Unmoved.bind {α β : Type} {cs : List Change} {r : Out α} {f : World → α → Out β}
    (h : w.Unmoved r.world)
    (hk : r.Meets (fun w _ => Kept InOrder cs w none) fun w => Kept InOrder cs w none)
    (hf : ∀ (w' : World) a, Kept InOrder cs w' none → w'.Unmoved (f w' a).world) :
    w.Unmoved (r.bind f).world := by
  unfold Search.Outcome.bind
  cases r.val with
  | none => exact h
  | some a => exact h.trans (hf _ _ hk.world)

theorem entries_subset {l : Live} (hl : l.Ok) : l.entries ⊆ l.seg.table := by
  obtain ⟨es, hseg, -⟩ := hl
  have hsub := (entries_sublist hseg).subset
  rwa [hseg, buildSorted_table]

theorem foldTo_unmoved (hw : w.Ok []) (which : List Nat) (durable : Bool) :
    w.Unmoved (w.foldTo which durable).world := by
  rcases w.foldTo_cases which durable with ⟨disk, m, dirty, -, heq⟩ |
    ⟨disk, input, folded, w₁, rfl, -, -, hf, -, hs⟩
  · rw [heq]
    exact .of_eq rfl rfl
  · refine Unmoved.trans ?_ (.same hs)
    have hp := sortSegments_perm ((w.inner.segments.filter fun l => !which.contains l.number) ++
      folded.toList)
    have hmerged := mergeRows_perm (w.inner.segments.filter fun l => which.contains l.number)
    have hfolds : w.Folds { ({ (w.foldClaim durable).1 with disk } : World) with
        inner := ({ (w.foldClaim durable).1 with disk } : World).inner.putFolded which
          w.inner.nextSegment folded durable } which folded := by
      refine ⟨hp, fun l hl => ?_, ?_⟩
      · rcases hf with ⟨rfl, -⟩ | rfl
        · cases hl
        · cases hl
          exact deadRows_ofBytes _ _ _
      · rcases hf with ⟨rfl, hnil⟩ | rfl
        · rwa [hnil] at hmerged
        · simp only [Option.toList_some, List.flatMap_cons, List.flatMap_nil, List.append_nil,
            Live.entries_ofBytes]
          exact hmerged
    refine ⟨rfl, hfolds.liveRows, fun e he => ?_⟩
    obtain ⟨l, hl, hel⟩ := List.mem_flatMap.mp he
    rcases List.mem_append.mp (hp.mem_iff.mp hl) with hkept | hnew
    · exact List.mem_flatMap.mpr ⟨l, List.mem_of_mem_filter hkept, hel⟩
    · rcases hf with ⟨rfl, -⟩ | rfl
      · cases hnew
      · rw [List.mem_singleton.mp hnew] at hel
        have htable : e ∈ (buildSorted (mergeRows
          (w.inner.segments.filter fun l => which.contains l.number))).seg.table := hel
        rw [buildSorted_table, hmerged.mem_iff] at htable
        obtain ⟨k, hk, hek⟩ := List.mem_flatMap.mp htable
        have hk := List.mem_of_mem_filter hk
        exact List.mem_flatMap.mpr ⟨k, hk, entries_subset (hw.segments k hk) hek⟩

/-- A segment that is written down is the segment it was. -/
theorem writeUnwritten_unmoved (hw : w.Ok []) (number : Nat) :
    w.Unmoved (w.writeUnwritten number).world := by
  unfold writeUnwritten
  cases hl : w.inner.segment? number with
  | none => exact .refl w
  | some live =>
    simp only
    split
    · exact .refl w
    · cases hwrite : (Live.write w.disk number live.generation live.bytes).2 with
      | none => exact .same (same_disk w _)
      | some written =>
        simp only [Search.Outcome.ok]
        rw [adoptWritten_eq hw hl hwrite]
        exact .of_eq rfl rfl

section
variable {cs : List Change}

theorem writeGroup_unmoved (group : List Nat) : ∀ {w : World}, Kept InOrder cs w none →
    w.Unmoved (w.writeGroup group).world := by
  induction group with
  | nil => exact fun _ => .refl _
  | cons n group ih =>
    exact fun h => .bind (writeUnwritten_unmoved h.ok n) ((filedKeeper inOrder_rule).writeUnwritten h)
      fun _ _ h => ih h

theorem persistGroup_unmoved (group : List Nat) (h : Kept InOrder cs w none) :
    w.Unmoved (w.persistGroup group).world := by
  unfold persistGroup
  split
  · refine .bind (foldTo_unmoved h.ok group true) ((filedKeeper inOrder_rule).foldAny h)
      fun w' folded h => ?_
    split
    · exact .refl w'
    · exact writeGroup_unmoved group h
  · exact writeGroup_unmoved group h

theorem persistGroups_unmoved (groups : List (List Nat)) : ∀ {w : World}, Kept InOrder cs w none →
    w.Unmoved (w.persistGroups groups).world := by
  induction groups with
  | nil => exact fun _ => .refl _
  | cons group groups ih =>
    exact fun h => .bind (persistGroup_unmoved group h) (kept_persistGroup inOrder_rule group h)
      fun _ _ h => ih h

theorem persistUnwritten_unmoved (h : Kept InOrder cs w none) :
    w.Unmoved w.persistUnwritten.world := by
  have K := filedKeeper inOrder_rule
  refine .bind (persistGroups_unmoved _ h) (kept_persistGroups inOrder_rule _ h) fun w' _ h => ?_
  refine .bind (.same (writeDirtyAlive_same w')) (K.writeDirtyAlive h) fun w' _ _ => ?_
  split
  · exact .same (saveMeta_same w')
  · exact .refl w'

theorem call_unmoved (h : Kept InOrder cs w none) {c : Call} (hc : c.quiet = true) :
    w.Unmoved (c.out w).world := by
  cases c with
  | persist => exact persistUnwritten_unmoved h
  | fold which durable =>
    exact .bind (foldTo_unmoved h.ok which durable) ((filedKeeper inOrder_rule).foldAny h)
      fun w' _ _ => .refl w'
  | land number =>
    show w.Unmoved (w.land number)
    unfold land
    split
    · exact .refl w
    · exact .of_eq rfl rfl
  | abandonGeneration generation =>
    have heq : (w.abandonGeneration generation).world.inner.segments = w.inner.segments ∧
        (w.abandonGeneration generation).world.inner.hiddenPrefixes = w.inner.hiddenPrefixes := by
      unfold abandonGeneration closeGeneration
      split <;> exact ⟨rfl, rfl⟩
    exact .of_eq heq.1 heq.2
  | _ => cases hc

theorem run_unmoved (calls : List Call) : ∀ {w : World}, Lived w → (∀ c ∈ calls, c.quiet = true) →
    w.Unmoved (w.run calls) := by
  induction calls with
  | nil => exact fun _ _ => .refl _
  | cons c calls ih =>
    intro w h hc
    obtain ⟨cs, hk⟩ := lived_kept inOrder_rule h
    exact (call_unmoved hk (hc c List.mem_cons_self)).trans
      (ih (h.ran [c]) fun c' hc' => hc c' (List.mem_cons_of_mem _ hc'))

theorem Asked.unmoved (h : w.Asked P req) (hw : w.Unmoved w') : w'.Asked P req where
  compiles := h.compiles
  paths := (hw.liveRows.map _).nodup_iff.mpr h.paths
  dates hs a ha b hb := h.dates hs a (hw.stored ha) b (hw.stored hb)

theorem filter_scanned {hidden : PrefixSet} (h : hidden.paths = []) (rows : List Entry) :
    rows.filter (fun e => !scanned hidden e) = rows := by
  refine List.filter_eq_self.mpr fun e _ => ?_
  unfold scanned
  rw [h]
  rfl

/-- A file is written in one session and removed in the next, which writes another. -/
def replacedFile : List (List Call) :=
  [[.apply [.upsert (.file "/a")]], [.apply [.removeSubtree (.of "/a"), .upsert (.file "/b")]]]

theorem mem_replacedFile (e : Entry) : e ∈ [Entry.file "/b"] ↔
    e ∈ tableAfter ∅ (replacedFile.flatten.flatMap Call.changes) := by
  rw [List.mem_singleton]
  constructor
  · exact fun he => Or.inl he
  · rintro (he | ⟨⟨(rfl | ⟨hnone, -⟩), hout⟩, -⟩)
    · exact he
    · exact absurd (show under (str "/a") (str "/a") = true by decide) hout
    · exact absurd hnone (Set.notMem_empty e)

end

end World

end Scour
