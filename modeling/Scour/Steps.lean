import Scour.Calls

/-!
# Each step keeps one row a path

The steps of `Keeper`, one lemma each, for the rows: `stage` and `hide` move the table the index
stands for as the change says, a flush and everything after it leave it where it is
(`soundKeeper`).  `hands` are what other callers hold meanwhile.
-/

namespace Scour

/-! ## The table a run of changes makes -/

/-- Everything at or under a path, whatever its source. -/
def Path.reach (p : Path) : Set Key := {k | under k.2.bytes p.bytes = true}

/-- A change, done to a table keyed by source and path. -/
def Change.onTable (table : Set Entry) : Change → Set Entry
  | .upsert e => Search.writeTo Entry.key e table
  | .removeSubtree path => Search.removeFrom Entry.key path.reach table
  | .rescan _ => table

/-- Changes, one after another. -/
def tableAfter (table : Set Entry) (changes : List Change) : Set Entry :=
  changes.foldl Change.onTable table

theorem tableAfter_append (table : Set Entry) (cs ds : List Change) :
    tableAfter table (cs ++ ds) = tableAfter (tableAfter table cs) ds := List.foldl_append

/-- What a caller holds, as rows. -/
def Held.hand : Option Held → List Hand
  | none => []
  | some (.batch p) => p.hand
  | some (.written live) => [(live.number, live.entries)]

namespace World

variable {care : Care} {V : Set Entry}

/-! ## Changes -/

/-- What is asked of the state before an upsert reaches the buffer.  No other staged path shares its
digest; of a run followed exactly, no other pending removal covers it, no row becomes visible with
its own removal forgotten, and its slot does not hold its path for another source. -/
structure Stages (care : Care) (w : World) (e : Entry) (hands : List Hand) : Prop where
  digest : care.once → ∀ s ∈ w.inner.staged, s.digest = e.digest → s.key = e.key
  kept : care.exactly → (w.inner.hiddenPrefixes.forget e.path.bytes).covers e.path.bytes = false
  others : care.exactly → ∀ x, x ∈ w.inner.staged ∨ x ∈ w.rows ++ hands.flatMap (·.2) →
    x.key ≠ e.key → (w.inner.hiddenPrefixes.forget e.path.bytes).covers x.path.bytes =
      w.inner.hiddenPrefixes.covers x.path.bytes
  slot : care.exactly → w.inner.SlotRight e

theorem forget_of_isEmpty {s : PrefixSet} (h : s.isEmpty = true) (path : Str) :
    s.forget path = s := by
  rw [PrefixSet.isEmpty_iff] at h
  unfold PrefixSet.forget
  rw [if_neg]
  rw [List.contains_iff_mem, s.same, h]
  exact List.not_mem_nil

/-- What `stage` moves: the sources, the pending removals and the buffer. -/
theorem stage_frame (w : World) (e : Entry) : ∃ sources, e.source ∈ sources ∧
    w.stage e = { w with inner := { w.inner with
      sources
      hiddenPrefixes := w.inner.hiddenPrefixes.forget e.path.bytes
      staged := (w.inner.put e).staged
      stagedAt := (w.inner.put e).stagedAt } } := by
  refine ⟨if w.inner.sources.contains e.source then w.inner.sources
    else w.inner.sources ++ [e.source], ?_, ?_⟩
  · split
    · rename_i h
      exact List.contains_iff_mem.mp h
    · simp
  · have hst : w.stage e = { w with inner := ({ w.inner with
        sources := if w.inner.sources.contains e.source then w.inner.sources
          else w.inner.sources ++ [e.source]
        hiddenPrefixes := w.inner.hiddenPrefixes.forget e.path.bytes } : Inner).put e } := by
      unfold stage
      by_cases hs : w.inner.sources.contains e.source = true <;>
        by_cases hh : w.inner.hiddenPrefixes.isEmpty = true <;>
        simp only [hs, hh, if_true, Bool.false_eq_true, if_false, forget_of_isEmpty]
    have hput := Inner.put_congr (b := w.inner) (a := { w.inner with
        sources := if w.inner.sources.contains e.source then w.inner.sources
          else w.inner.sources ++ [e.source]
        hiddenPrefixes := w.inner.hiddenPrefixes.forget e.path.bytes }) rfl rfl e
    rw [hst, Inner.put_frame, hput.1, hput.2]

theorem stage_sound {w : World} {e : Entry} {hands : List Hand} (h : w.Sound care V hands)
    (hg : Stages care w e hands) :
    (w.stage e).Sound care (Search.writeTo Entry.key e V) hands := by
  obtain ⟨sources, -, heq⟩ := w.stage_frame e
  rw [heq]
  refine ⟨⟨h.segments, h.nodup, h.fresh, h.building, h.clean.forget _⟩, h.unique,
    fun ho => Inner.put_slots w.inner e (h.slots ho) (hg.digest ho), h.apart, h.closed, fun hx => ?_⟩
  rw [← h.view hx]
  refine Search.Buffered.view_put e rfl (fun x => ?_) ?_ fun x hm hk => ?_
  · have ho := care.once_of_exactly hx
    exact Inner.mem_put w.inner e x (h.slots ho) (hg.digest ho) (hg.slot hx)
  · simp only [buffer, Set.mem_ofPred_eq, Bool.not_eq_true]
    exact hg.kept hx
  · exact iff_of_eq (congrArg (· = true) (hg.others hx x hm hk))

theorem hide_sound {w : World} {path : Path} {hands : List Hand} (h : w.Sound care V hands) :
    (w.hide path).Sound care (Search.removeFrom Entry.key path.reach V) hands := by
  refine ⟨⟨h.segments, h.nodup, h.fresh, h.building, h.clean.extend fun p hp => ?_⟩, h.unique,
    h.slots, h.apart, h.closed, fun hx => ?_⟩
  · rw [List.mem_singleton.mp hp]
    exact PrefixSet.clean_trimEnd path
  · rw [← h.view hx]
    refine Search.Buffered.view_hide path.reach rfl rfl ?_
    ext k
    simp only [buffer, hide, Set.mem_ofPred_eq, Set.mem_union, PrefixSet.covers_extend,
      List.mem_singleton, exists_eq_left]
    rfl

/-! ## Writing -/

/-- The number and the rows of a batch of its own. -/
theorem hand_of_staged {p : Pending} {n g : Nat} {rows : List Entry}
    (h : p.staged = some (n, g, rows)) : p.hand = [(n, rows)] := by
  simp [Pending.hand, h]

theorem commitAlive_sound {w : World} {p : Pending} {hands : List Hand}
    (h : w.Sound care V (p.hand ++ hands)) (hr : Restores care w p hands) :
    (w.commitAlive p).Meets
      (fun w _ => w.Sound care V (p.hand ++ hands) ∧ Restores care w p hands)
      fun w => w.Sound care V hands := by
  unfold commitAlive
  simp only
  have hs := same_disk w (writeAlive w.disk p.alive).1
  split
  · exact (Search.Outcome.meets_ok _ _ _ _).mpr ⟨hs.sound h, hr.same hs⟩
  · exact (Search.Outcome.meets_err _ _ _).mpr (restore_sound (hs.sound h) (hr.same hs))

/-- The segment written from a batch holds its rows. -/
theorem written_sound {w : World} {hands : List Hand} {n g : Nat} {rows : List Entry}
    (h : w.Sound care V ((n, rows) :: hands)) :
    let live := Live.ofBytes n g (build rows)
    w.Sound care V ((live.number, live.entries) :: hands) ∧ live.Ok := by
  have hent : (Live.ofBytes n g (build rows)).entries = rows.insertionSort storedLe := by
    unfold build
    exact Live.entries_ofBytes _ _ _
  have hp : (rows.insertionSort storedLe).Perm rows := List.perm_insertionSort _ _
  refine ⟨h.of_perm ⟨h.segments, h.nodup, h.fresh, h.building, h.clean⟩ ⟨rfl, rfl, rfl, rfl⟩ ?_ ?_,
    Live.ofBytes_ok _ _ _⟩
  · rw [hent]
    simp only [List.flatMap_cons]
    exact List.Perm.append_left _ (hp.append_right _)
  · intro rs hr
    rw [hent] at hr
    simp only [batches, List.map_cons, List.mem_append, List.mem_cons] at hr ⊢
    rcases hr with hr | rfl | hr
    · exact ⟨rs, Or.inl hr, List.Perm.refl _⟩
    · exact ⟨rows, Or.inr (Or.inl rfl), hp⟩
    · exact ⟨rs, Or.inr (Or.inr hr), List.Perm.refl _⟩

theorem commitBuild_sound {w : World} {p : Pending} {hands : List Hand}
    (h : w.Sound care V (p.hand ++ hands)) (hr : Restores care w p hands) :
    (w.commitBuild p).Meets
      (fun w live => w.Sound care V (Held.hand (live.map .written) ++ hands) ∧
        ∀ l ∈ live, l.Ok)
      fun w => w.Sound care V hands := by
  unfold commitBuild
  cases hp : p.staged with
  | none =>
    have hh : p.hand = [] := by simp [Pending.hand, hp]
    rw [hh] at h
    exact (Search.Outcome.meets_ok _ _ _ _).mpr ⟨h, by simp⟩
  | some s =>
    obtain ⟨number, generation, staged⟩ := s
    simp only
    have hs := same_disk w (Live.write w.disk number generation (build staged)).1
    cases hw : (Live.write w.disk number generation (build staged)).2 with
    | none => exact (Search.Outcome.meets_err _ _ _).mpr (restore_sound (hs.sound h) (hr.same hs))
    | some live =>
      have heq := Live.write_eq _ _ _ _ (Live.build_full _) _ hw
      rw [Live.fromBytes_buildSorted] at heq
      cases heq
      rw [hand_of_staged hp] at h
      obtain ⟨h1, h2⟩ := written_sound (g := generation) (hs.sound h)
      refine (Search.Outcome.meets_ok _ _ _ _).mpr ⟨h1, fun l hl => ?_⟩
      rw [← Option.some.inj hl]
      exact h2

/-- A segment takes its place in the list. -/
theorem install_sound {w : World} {live : Live} {hands : List Hand} (hl : live.Ok)
    (h : w.Sound care V ((live.number, live.entries) :: hands)) (m : Nat) (unwritten : List Nat)
    (dirty : Bool) (hm : w.inner.nextSegment ≤ m) :
    ({ w with inner := { w.inner with
        nextSegment := m
        segments := Inner.sortSegments (w.inner.segments ++ [live])
        unwritten
        metaDirty := dirty } } : World).Sound care V hands := by
  have hp := sortSegments_perm (w.inner.segments ++ [live])
  have hnum : ((Inner.sortSegments (w.inner.segments ++ [live])).map (·.number) ++
      w.building.numbers ++ hands.map (·.1)).Perm (w.numbers ((live.number, live.entries) :: hands)) := by
    refine (((hp.map _).append_right _).append_right _).trans ?_
    simp only [numbers, List.map_append, List.map_cons, List.map_nil, List.append_assoc,
      List.singleton_append]
    exact List.Perm.append_left _ List.perm_middle.symm
  refine h.of_perm ⟨fun l hm => ?_, hnum.nodup_iff.mpr h.nodup, fun n hn => ?_, h.building, h.clean⟩
    ⟨rfl, rfl, rfl, rfl⟩ ?_ fun rows hr => ⟨rows, ?_, List.Perm.refl _⟩
  · rcases List.mem_append.mp (hp.mem_iff.mp hm) with hm | hm
    · exact h.segments l hm
    · rw [List.mem_singleton.mp hm]
      exact hl
  · exact lt_of_lt_of_le (h.fresh n (hnum.mem_iff.mp hn)) hm
  · refine (List.Perm.append_right _ (List.Perm.append_right _ (hp.flatMap_right _))).trans ?_
    simp only [rows, liveRows, List.flatMap_append, List.flatMap_cons, List.flatMap_nil,
      List.append_nil, List.append_assoc]
    exact List.Perm.append_left _ (List.perm_append_comm_assoc _ _ _)
  · simp only [batches, List.map_cons, List.mem_append, List.mem_cons] at hr ⊢
    tauto

end World

/-! ## Another thread -/

namespace Building

/-- The building with one more build in the air. -/
def flown (b : Building) (f : Flight) (j : Job) : Building :=
  { b with flights := b.flights ++ [f], jobs := b.jobs ++ [j] }

variable {b : Building} {f : Flight} {j : Job} (hb : b.Ok) (hnew : f.number ∉ b.numbers)
include hb hnew

theorem flight?_flown (n : Nat) :
    (b.flown f j).flight? n = if n = f.number then some f else b.flight? n := by
  unfold flight? flown
  simp only [List.find?_append]
  by_cases hn : n = f.number
  · subst hn
    have hnone : b.flights.find? (fun g => decide (g.number = f.number)) = none := by
      rw [List.find?_eq_none]
      intro g hg heq
      exact hnew (of_decide_eq_true heq ▸ (hb.flights g hg).2)
    simp [hnone]
  · have hlast : [f].find? (fun g => decide (g.number = n)) = none := by
      simp [Ne.symm hn]
    rw [hlast, Option.or_none, if_neg hn]

theorem flight?_flown_old {n : Nat} (hn : n ∈ b.numbers) :
    (b.flown f j).flight? n = b.flight? n := by
  rw [flight?_flown hb hnew, if_neg]
  rintro rfl
  exact hnew hn

theorem flown_ok (hj : j.number = f.number) (hdig : ∀ e ∈ j.rows, e.digest ∈ f.paths) (hf : f.Ok) :
    (b.flown f j).Ok where
  jobs k hk := by
    rcases List.mem_append.mp hk with hk | hk
    · rw [flight?_flown_old hb hnew (List.mem_append_left _ (List.mem_map_of_mem hk))]
      exact hb.jobs k hk
    · rw [List.mem_singleton.mp hk, flight?_flown hb hnew, if_pos hj]
      exact ⟨f, rfl, hdig⟩
  landed n l hm := by
    have hn : n ∈ b.numbers := List.mem_append_right _ (List.mem_map.mpr ⟨_, hm, rfl⟩)
    rw [flight?_flown_old hb hnew hn]
    exact hb.landed n l hm
  failed n rows hm := by
    have hn : n ∈ b.numbers := List.mem_append_right _ (List.mem_map.mpr ⟨_, hm, rfl⟩)
    rw [flight?_flown_old hb hnew hn]
    exact hb.failed n rows hm
  flights g hg := by
    simp only [numbers, flown, List.map_append, List.mem_append, List.map_cons, List.map_nil,
      List.mem_singleton]
    rcases List.mem_append.mp hg with hg | hg
    · obtain ⟨h1, h2⟩ := hb.flights g hg
      simp only [numbers, List.mem_append] at h2
      exact ⟨h1, by tauto⟩
    · rw [List.mem_singleton.mp hg]
      exact ⟨hf, Or.inl (Or.inr hj.symm)⟩

/-- Nothing is recorded against a build that just took off. -/
theorem airRows_flown (hj : j.number = f.number) (hd : f.doomed = []) (hg : f.gone = .empty) :
    (b.flown f j).airRows.Perm (j.rows ++ b.airRows) := by
  have hall : (b.flown f j).jobRows j = j.rows.insertionSort storedLe := by
    unfold jobRows
    rw [flight?_flown hb hnew, if_pos hj, List.filter_eq_self]
    intro e _
    simp [survives, hd, hg, Live.isWanted, scanned, PrefixSet.empty]
  have hold : (b.flown f j).airRows = b.airRows ++ (b.flown f j).jobRows j := by
    unfold airRows
    show b.landed.flatMap _ ++ (b.jobs ++ [j]).flatMap _ = _
    rw [List.flatMap_append, ← List.append_assoc]
    congr 1
    · congr 1
      · refine List.flatMap_congr fun d hd => ?_
        have hold := flight?_flown_old (j := j) hb hnew
          (List.mem_append_right _ (List.mem_map_of_mem hd))
        cases d with
        | built n l =>
          simp only [landedRows]
          rw [show (b.flown f j).flight? n = b.flight? n from hold]
        | failed n rows =>
          simp only [landedRows]
          rw [show (b.flown f j).flight? n = b.flight? n from hold]
      · refine List.flatMap_congr fun k hk => ?_
        simp only [jobRows]
        rw [flight?_flown_old hb hnew (List.mem_append_left _ (List.mem_map_of_mem hk))]
    · simp
  rw [hold, hall]
  exact List.perm_append_comm.trans ((List.perm_insertionSort _ _).append_right _)

end Building

namespace World

variable {care : Care} {V : Set Entry}

/-- The batch is a job, and its flight knows its digests. -/
theorem takeOff_sound {w : World} {hands : List Hand} {number generation : Nat}
    {staged : List Entry} (h : w.Sound care V ((number, staged) :: hands))
    (hs : care.exactly → w.disk.fault.1 = false) :
    (w.takeOff number generation staged).Meets (fun w _ => w.Sound care V hands)
      fun w => w.Sound care V hands := by
  have hnot : number ∉ w.building.numbers := by
    have hp : (w.numbers ((number, staged) :: hands)).Perm
        (number :: (w.inner.segments.map (·.number) ++ w.building.numbers ++ hands.map (·.1))) :=
      List.perm_middle
    have hn := (List.nodup_cons.mp (hp.nodup_iff.mp h.nodup)).1
    simp only [List.mem_append, not_or] at hn
    exact hn.1.2
  unfold takeOff
  simp only
  split
  · rename_i hfail
    -- the rows are lost: only a run that is not followed exactly gets here
    refine (Search.Outcome.meets_err _ _ _).mpr ?_
    have hx : ¬ care.exactly := fun hx => by simp [hs hx] at hfail
    have hsub : (w.numbers hands).Sublist (w.numbers ((number, staged) :: hands)) :=
      List.Sublist.append_left (List.sublist_cons_self _ _) _
    have hflights : w.building.flights.filter (·.number ≠ number) = w.building.flights := by
      rw [List.filter_eq_self]
      intro f hf
      simp only [ne_eq, decide_not, Bool.not_eq_true', decide_eq_false_iff_not]
      exact fun heq => hnot (heq ▸ (h.building.flights f hf).2)
    rw [hflights]
    refine ⟨⟨h.segments, h.nodup.sublist hsub, fun n hn => h.fresh n (hsub.subset hn), h.building,
      h.clean⟩, fun ho => ?_, h.slots, fun ho rows hr => h.apart ho rows ?_, fun hx' => absurd hx' hx,
      fun hx' => absurd hx' hx⟩
    · refine (h.unique ho).sublist (List.Sublist.map _ (List.Sublist.append_left ?_ _))
      simp only [List.flatMap_cons]
      exact List.sublist_append_right _ _
    · simp only [batches, List.map_cons, List.mem_append, List.mem_cons] at hr ⊢
      tauto
  · refine (Search.Outcome.meets_ok _ _ _ _).mpr ?_
    let flight : Flight := ⟨number, staged.map Entry.digest, [], .empty⟩
    let job : Job := ⟨number, generation, staged⟩
    have hok : (w.building.flown flight job).Ok := Building.flown_ok h.building hnot rfl
      (fun e he => List.mem_map_of_mem he) ⟨by simp [flight], PrefixSet.clean_empty⟩
    have hair : (w.building.flown flight job).airRows.Perm (staged ++ w.building.airRows) :=
      Building.airRows_flown h.building hnot rfl rfl rfl
    have hnums : (w.inner.segments.map (·.number) ++ (w.building.flown flight job).numbers ++
        hands.map (·.1)).Perm (w.numbers ((number, staged) :: hands)) := by
      unfold numbers Building.numbers Building.flown
      simp only [List.map_append, List.map_cons, List.map_nil, List.append_assoc,
        List.singleton_append]
      refine List.Perm.append_left _ (List.Perm.append_left _ ?_)
      have hmiddle : (w.building.landed.map Landed.number ++ number :: hands.map (·.1)).Perm
          (number :: (w.building.landed.map Landed.number ++ hands.map (·.1))) := List.perm_middle
      exact hmiddle.symm
    show ({ w with disk := w.disk.fault.2, building := w.building.flown flight job } :
      World).Sound care V hands
    refine h.of_perm ⟨h.segments, hnums.nodup_iff.mpr h.nodup, fun n hn => h.fresh n (hnums.mem_iff.mp hn), hok,
        h.clean⟩ ⟨rfl, rfl, rfl, rfl⟩ ?_ fun rows hr => ⟨rows, ?_, List.Perm.refl _⟩
    · simp only [rows, List.flatMap_cons]
      refine ((hair.append_left _).append_right _).trans ?_
      rw [List.append_assoc, List.append_assoc, List.append_assoc]
      refine List.Perm.append_left _ ?_
      exact List.perm_append_comm_assoc _ _ _
    · simp only [batches, Building.flown, List.map_append, List.map_cons, List.map_nil,
        List.mem_append, List.mem_cons, List.not_mem_nil, or_false] at hr ⊢
      tauto

/-! ## Segments change places -/

/-- The rows of a fold's inputs are the rows it merges. -/
theorem mergeRows_perm (segs : List Live) : (mergeRows segs).Perm (segs.flatMap Live.entries) := by
  rw [List.flatMap_def]
  exact Search.mergeHeads_perm _ _

/-- Other segments hold the same rows: those there were, and new ones under new numbers. -/
theorem replace_sound {w w' : World} {hands : List Hand} (h : w.Sound care V hands)
    (hw : w.Waits w') (hb : w'.building = w.building)
    (hnext : w.inner.nextSegment ≤ w'.inner.nextSegment)
    (hok : ∀ l ∈ w'.inner.segments, l.Ok) (hnd : (w'.inner.segments.map (·.number)).Nodup)
    (hnum : ∀ l ∈ w'.inner.segments, l.number ∈ w.inner.segments.map (·.number) ∨
      (w.inner.nextSegment ≤ l.number ∧ l.number < w'.inner.nextSegment))
    (hrows : w'.liveRows.Perm w.liveRows) : w'.Sound care V hands := by
  have hold := h.nodup
  unfold numbers at hold
  rw [List.append_assoc] at hold
  refine h.of_perm ⟨hok, ?_, fun n hn => ?_, by rw [hb]; exact h.building,
    by rw [hw.hidden]; exact h.clean⟩ hw ?_ fun rows hr => ⟨rows, ?_, List.Perm.refl _⟩
  · unfold numbers
    rw [hb, List.append_assoc]
    refine List.nodup_append.mpr ⟨hnd, (List.nodup_append.mp hold).2.1, ?_⟩
    rintro n hn m hm rfl
    obtain ⟨l, hl, rfl⟩ := List.mem_map.mp hn
    rcases hnum l hl with hin | ⟨hge, -⟩
    · exact (List.nodup_append.mp hold).2.2 _ hin _ hm rfl
    · have := h.fresh l.number (by
        unfold numbers
        rw [List.append_assoc]
        exact List.mem_append_right _ hm)
      omega
  · unfold numbers at hn
    rw [hb, List.append_assoc] at hn
    rcases List.mem_append.mp hn with hn | hn
    · obtain ⟨l, hl, rfl⟩ := List.mem_map.mp hn
      rcases hnum l hl with hin | ⟨-, hlt⟩
      · exact lt_of_lt_of_le (h.fresh _ (List.mem_append_left _ (List.mem_append_left _ hin))) hnext
      · exact hlt
    · refine lt_of_lt_of_le (h.fresh n ?_) hnext
      unfold numbers
      rw [List.append_assoc]
      exact List.mem_append_right _ hn
  · unfold rows
    rw [hb]
    exact (hrows.append_right _).append_right _
  · unfold batches at hr ⊢
    rwa [hb] at hr

theorem foldTo_sound {w : World} {hands : List Hand} (h : w.Sound care V hands)
    (which : List Nat) (durable : Bool) :
    (w.foldTo which durable).world.Sound care V hands := by
  rcases w.foldTo_cases which durable with ⟨disk, m, dirty, hm, heq⟩ |
    ⟨disk, input, folded, w₁, rfl, -, -, hf, -, hs⟩
  · rw [heq]
    have hsame : w.Same { w with
        disk, inner := { w.inner with nextSegment := m, metaDirty := dirty } } :=
      ⟨rfl, rfl, rfl, rfl, rfl, rfl, rfl, rfl, rfl, hm⟩
    exact hsame.sound h
  · refine hs.sound (replace_sound h ⟨rfl, rfl, rfl, rfl⟩ rfl
      (le_trans (Nat.le_succ _) (le_max_left _ _)) (fun l hl => ?_) ?_ (fun l hl => ?_) ?_)
    all_goals
      have hp := sortSegments_perm ((w.inner.segments.filter fun l => !which.contains l.number) ++
        folded.toList)
    · rcases List.mem_append.mp (hp.mem_iff.mp hl) with hl | hl
      · exact h.segments l (List.mem_of_mem_filter hl)
      · rcases hf with ⟨rfl, -⟩ | rfl
        · cases hl
        · rw [List.mem_singleton.mp hl]
          exact Live.ofBytes_ok _ _ _
    · refine (hp.map _).nodup_iff.mpr ?_
      have hnd := (List.nodup_append.mp (List.nodup_append.mp h.nodup).1).1
      rw [List.map_append]
      refine List.nodup_append.mpr ⟨hnd.sublist (List.filter_sublist.map _), ?_, ?_⟩
      · rcases hf with ⟨rfl, -⟩ | rfl <;> simp
      · rintro n hn m hm rfl
        rcases hf with ⟨rfl, -⟩ | rfl
        · cases hm
        · obtain ⟨l, hl, rfl⟩ := List.mem_map.mp hn
          have hlt := h.fresh l.number (List.mem_append_left _ (List.mem_append_left _
            (List.mem_map_of_mem (List.mem_of_mem_filter hl))))
          have heq : l.number = w.inner.nextSegment := List.mem_singleton.mp hm
          omega
    · rcases List.mem_append.mp (hp.mem_iff.mp hl) with hl | hl
      · exact Or.inl (List.mem_map_of_mem (List.mem_of_mem_filter hl))
      · rcases hf with ⟨rfl, -⟩ | rfl
        · cases hl
        · rw [List.mem_singleton.mp hl]
          exact Or.inr ⟨le_refl _, lt_of_lt_of_le (Nat.lt_succ_self _) (le_max_right _ _)⟩
    · refine (hp.flatMap_right _).trans ?_
      have hmerged : (folded.toList.flatMap Live.entries).Perm
          ((w.inner.segments.filter fun l => which.contains l.number).flatMap Live.entries) := by
        rcases hf with ⟨rfl, hnil⟩ | rfl
        · have := mergeRows_perm (w.inner.segments.filter fun l => which.contains l.number)
          rwa [hnil] at this
        · simp only [Option.toList_some, List.flatMap_cons, List.flatMap_nil, List.append_nil,
            Live.entries_ofBytes]
          exact mergeRows_perm _
      rw [List.flatMap_append]
      refine (hmerged.append_left _).trans ?_
      rw [← List.flatMap_append]
      refine List.Perm.flatMap_right _ (List.perm_append_comm.trans ?_)
      exact List.filter_append_perm _ _

/-- The written copy holds what the one in memory holds. -/
theorem adoptWritten_sound {w : World} {hands : List Hand} (h : w.Sound care V hands)
    {number : Nat} {live written : Live} (hl : w.inner.segment? number = some live) (deaths : Nat)
    (hn : written.number = live.number) (hseg : written.seg = live.seg) :
    (w.adoptWritten number deaths written).Sound care V hands := by
  unfold adoptWritten
  rw [hl]
  obtain ⟨hmem, hnumber⟩ := Inner.mem_of_segment? hl
  have hnd := (List.nodup_append.mp (List.nodup_append.mp h.nodup).1).1
  -- the only segment of this number is the one found
  have hone : ∀ l ∈ w.inner.segments, l.number = number → l = live := fun l hl' heq =>
    List.inj_on_of_nodup_map hnd hl' hmem (heq.trans hnumber.symm)
  have hmap : (w.inner.segments.map fun l => if l.number = number then written.adoptAlive live
      else l).map (·.number) = w.inner.segments.map (·.number) := by
    rw [List.map_map]
    refine List.map_congr_left fun l hl' => ?_
    simp only [Function.comp]
    split
    · rename_i heq
      show written.number = l.number
      rw [hn, hone l hl' heq]
    · rfl
  refine replace_sound h ⟨rfl, rfl, rfl, rfl⟩ rfl (le_refl _) (fun l hm => ?_) ?_ (fun l hm => ?_) ?_
  · obtain ⟨l', hl', rfl⟩ := List.mem_map.mp hm
    split
    · rename_i heq
      obtain ⟨es, h1, h2⟩ := h.segments live hmem
      exact ⟨es, hseg.trans h1, h2⟩
    · exact h.segments l' hl'
  · show ((w.inner.segments.map _).map _).Nodup
    rw [hmap]
    exact hnd
  · refine Or.inl ?_
    rw [← hmap]
    exact List.mem_map_of_mem hm
  · show (List.flatMap Live.entries (w.inner.segments.map _)).Perm _
    rw [List.flatMap_map]
    refine List.Perm.of_eq (List.flatMap_congr fun l hl' => ?_)
    split
    · rename_i heq
      rw [hone l hl' heq]
      exact Live.entries_congr hseg rfl
    · rfl

theorem writeUnwritten_sound {w : World} {hands : List Hand} (h : w.Sound care V hands)
    (number : Nat) : (w.writeUnwritten number).world.Sound care V hands := by
  unfold writeUnwritten
  cases hl : w.inner.segment? number with
  | none => exact h
  | some live =>
    simp only
    split
    · exact h
    · have hs := same_disk w (Live.write w.disk number live.generation live.bytes).1
      cases hw : (Live.write w.disk number live.generation live.bytes).2 with
      | none => exact hs.sound h
      | some written =>
        simp only [Search.Outcome.ok]
        obtain ⟨hmem, hnumber⟩ := Inner.mem_of_segment? hl
        have hfull : live.bytes.Full := by
          obtain ⟨es, h1, -⟩ := h.segments live hmem
          intro d hd
          show live.seg.derived d ≠ none
          rw [h1]
          exact Live.build_full es d hd
        have heq := Live.write_eq _ _ _ _ hfull _ hw
        obtain ⟨hn, -⟩ := Live.write_stamp hw
        refine adoptWritten_sound (hs.sound h) hl _ (hn.trans hnumber.symm) ?_
        exact Live.assemble_seg heq

/-! ## The keeper -/

/-- What is asked of a run for its rows. -/
def soundGuards (care : Care) (hands : List Hand) : Guards where
  stage w e := Stages care w e hands
  collect w := Collects care w
  flush discretionary w := Flushes care w discretionary hands
  -- where no thread is to be had the batch is dropped
  spawn w p := care.exactly → p.staged.isSome → w.building.flights.length < MAX_BUILDING →
    w.disk.fault.1 = false

/-- A path appears once, and the index stands for what was applied to `table`. -/
structure Stands (care : Care) (table : Set Entry) (hands : List Hand) (cs : List Change)
    (w : World) (held : Option Held) : Prop where
  sound : w.Sound care (tableAfter table cs) (Held.hand held ++ hands)
  batch : ∀ p, held = some (.batch p) → Restores care w p hands
  written : ∀ live, held = some (.written live) → live.Ok

variable {table : Set Entry} {hands : List Hand} {cs : List Change} {w : World}

theorem Stands.free (h : w.Sound care (tableAfter table cs) hands) :
    Stands care table hands cs w none := ⟨h, by simp, by simp⟩

theorem Stands.hold {p : Pending} (h : w.Sound care (tableAfter table cs) (p.hand ++ hands))
    (hr : Restores care w p hands) : Stands care table hands cs w (some (.batch p)) :=
  ⟨h, fun q hq => by cases hq; exact hr, by simp⟩

theorem Stands.after {c : Change} (h : w.Sound care (c.onTable (tableAfter table cs)) hands) :
    Stands care table hands (cs ++ [c]) w none :=
  .free (by rw [tableAfter_append]; exact h)

/-- Every step of the write path keeps it. -/
theorem soundKeeper (care : Care) (table : Set Entry) (hands : List Hand) :
    Keeper (soundGuards care hands) (Stands care table hands)
      fun cs w => Stands care table hands cs w none where
  numbered {cs w} h := by
    have hs := h.sound
    have hnd := hs.nodup
    unfold numbers at hnd
    refine ⟨(List.nodup_append.mp (List.nodup_append.mp hnd).1).1, fun l hl => ?_, hs.jobs_nodup⟩
    exact hs.fresh _ (List.mem_append_left _ (List.mem_append_left _ (List.mem_map_of_mem hl)))
  stage h hg := .after (stage_sound h.sound hg)
  hide h := .after (hide_sound h.sound)
  rescan h := .after h.sound
  told {cs w} h := by
    have hs : w.Same w.told := ⟨rfl, rfl, rfl, rfl, rfl, rfl, rfl, rfl, rfl, le_refl _⟩
    exact .free (hs.sound h.sound)
  land h hj := .free (landJob_sound h.sound _ hj)
  collect h hg := (Search.Outcome.Meets.of_world (I := fun w => Stands care table hands _ w none)
    (.free (collect_sound h.sound hg)))
  flush h hg := (flushStaged_sound h.sound hg).mono (fun _ _ hw => .hold hw.1 hw.2)
    fun _ hw => .free hw
  commitAlive {cs w p} h := (commitAlive_sound h.sound (h.batch p rfl)).mono
    (fun _ _ hw => .hold hw.1 ⟨hw.2.clean, hw.2.distinct, hw.2.agree⟩) fun _ hw => .free hw
  commitBuild {cs w p} h := by
    have hr := h.batch _ rfl
    have hr' : Restores care w p hands := ⟨hr.clean, hr.distinct, hr.agree⟩
    have hs : w.Sound care (tableAfter table cs) (p.hand ++ hands) := h.sound
    refine (commitBuild_sound hs hr').mono (fun w live hw => ⟨hw.1, ?_, ?_⟩) fun _ hw => .free hw
    · cases live <;> simp
    · intro l hl
      cases live with
      | none => cases hl
      | some l' =>
        cases hl
        exact hw.2 l rfl
  install {cs w n live} h _ := by
    have hi := install_sound (h.written live rfl) h.sound (max w.inner.nextSegment n)
      w.inner.unwritten true (le_max_left _ _)
    refine (Search.Outcome.Meets.of_world (I := fun w => Stands care table hands _ w none) ?_)
    exact .free ((saveMeta_same _).sound hi)
  takeOff {cs w number generation staged p} h hp hg hf := by
    have hs : w.Sound care (tableAfter table cs) (p.hand ++ hands) := h.sound
    rw [hand_of_staged hp] at hs
    refine (takeOff_sound hs fun hx => hg hx (by simp [hp]) hf).mono (fun _ _ hw => .free hw)
      fun _ hw => .free hw
  oweAlive {cs w p} h := by
    have hr := h.batch _ rfl
    have hs : w.Same (w.oweAlive p) := ⟨rfl, rfl, rfl, rfl, rfl, rfl, rfl, rfl, rfl, le_refl _⟩
    have hr' := hr.same hs
    exact .hold (hs.sound h.sound) ⟨hr'.clean, hr'.distinct, hr'.agree⟩
  publishInstall {cs w p} h := by
    unfold publishInstall
    have hs : w.Sound care (tableAfter table cs) (p.hand ++ hands) := h.sound
    cases hp : p.bare.staged with
    | none =>
      have hh : p.hand = [] := by
        simp only [Pending.bare] at hp
        simp [Pending.hand, hp]
      rw [hh] at hs
      exact (Search.Outcome.meets_ok _ _ _ _).mpr (.free hs)
    | some s =>
      obtain ⟨number, generation, staged⟩ := s
      rw [hand_of_staged (p := p) hp] at hs
      obtain ⟨h1, h2⟩ := written_sound (g := generation) hs
      have hb : Live.fromBytes number generation (build staged) =
          some (.ofBytes number generation (build staged)) := Live.fromBytes_buildSorted _ _ _
      simp only [hb]
      refine (Search.Outcome.meets_ok _ _ _ _).mpr (.free ?_)
      exact install_sound h2 h1 (max w.inner.nextSegment (number + 1))
        (w.inner.unwritten ++ [number]) w.inner.metaDirty (le_max_left _ _)
  foldTo h _ := Search.Outcome.Meets.of_world (I := fun w => Stands care table hands _ w none)
    (.free (foldTo_sound h.sound _ _))
  writeUnwritten h := Search.Outcome.Meets.of_world
    (I := fun w => Stands care table hands _ w none) (.free (writeUnwritten_sound h.sound _))
  writeDirtyAlive h := Search.Outcome.Meets.of_world
    (I := fun w => Stands care table hands _ w none)
    (.free ((writeDirtyAlive_same _).sound h.sound))
  saveMeta h := Search.Outcome.Meets.of_world
    (I := fun w => Stands care table hands _ w none) (.free ((saveMeta_same _).sound h.sound))

end World

end Scour
