import Scour.Compact
import Scour.Restart
import Scour.Table

/-!
# What a commit leaves can be read back

A commit that returns leaves nothing in memory that is not in the directory (`Written`): no segment
without files, no bitmap newer than its file, no manifest that is behind.  So the index that is opened
from the directory holds the segments the old one held (`commit_reopens`).
-/

namespace Scour

namespace World

variable {Q : Segment → Prop} {cs : List Change} {w w' w'' : World} {which which' : List Nat}

/-- Nothing is owed to the directory. -/
structure Written (w : World) : Prop where
  unwritten : w.inner.unwritten = []
  dirtyAlive : w.inner.dirtyAlive = []
  metaDirty : w.inner.metaDirty = false

/-! ## Segments get their files -/

/-- No segment of these numbers is only in memory any more, and no other one is now. -/
def Clears (w : World) (which : List Nat) (w' : World) : Prop :=
  ∀ n ∈ w'.inner.unwritten, n ∈ w.inner.unwritten ∧ n ∉ which

theorem Clears.refl (w : World) : w.Clears [] w := fun _ hn => ⟨hn, List.not_mem_nil⟩

theorem Clears.trans (h : w.Clears which w') (h' : w'.Clears which' w'') :
    w.Clears (which ++ which') w'' := by
  intro n hn
  obtain ⟨hn, h2⟩ := h' n hn
  obtain ⟨hn, h1⟩ := h n hn
  exact ⟨hn, fun hm => (List.mem_append.mp hm).elim h1 h2⟩

theorem writeUnwritten_clears (h : w.Filed Q none []) (number : Nat) :
    (w.writeUnwritten number).Then fun w' _ => w.Clears [number] w' := by
  unfold writeUnwritten
  cases hl : w.inner.segment? number with
  | none =>
    refine (Search.Outcome.then_ok _ _ _).mpr fun n hn => ⟨hn, fun hm => ?_⟩
    obtain rfl := List.mem_singleton.mp hm
    obtain ⟨l, hl', heq⟩ := h.unwritten n hn
    exact absurd heq (by simpa using List.find?_eq_none.mp hl l hl')
  | some live =>
    simp only
    split
    · rename_i hun
      refine (Search.Outcome.then_ok _ _ _).mpr fun n hn => ⟨hn, fun hm => ?_⟩
      obtain rfl := List.mem_singleton.mp hm
      simp [hn] at hun
    · cases hwrite : (Live.write w.disk number live.generation live.bytes).2 with
      | none => exact Search.Outcome.then_err _ _
      | some written =>
        refine (Search.Outcome.then_ok _ _ _).mpr fun n hn => ?_
        unfold adoptWritten at hn
        rw [show ({ w with disk := (Live.write w.disk number live.generation live.bytes).1 } :
          World).inner.segment? number = some live from hl] at hn
        obtain ⟨hn, hne⟩ := List.mem_filter.mp hn
        exact ⟨hn, fun hm => of_decide_eq_true hne (List.mem_singleton.mp hm)⟩

/-- A fold that is published leaves none of its inputs behind, and none is only in memory for it. -/
theorem foldTo_clears (h : w.Filed Q none []) (hw : w.Ok []) (which : List Nat) :
    (w.foldTo which true).Then fun w' folded => w.Clears (if folded then which else []) w' := by
  have hseg : w.inner.nextSegment ∉ w.inner.segments.map (·.number) := fun hm =>
    lt_irrefl _ (hw.fresh _ (mem_numbers.mpr (Or.inl hm)))
  unfold foldTo
  split
  · exact (Search.Outcome.then_ok _ _ _).mpr (Clears.refl w)
  · simp only
    cases hb : (w.foldClaim true).1.foldBuild which with
    | none => exact (Search.Outcome.then_ok _ _ _).mpr (Clears.refl w)
    | some input =>
      simp only
      refine Search.Outcome.Then.bind fun folded hf => ?_
      obtain ⟨disk, hdisk⟩ : ∃ disk, ((w.foldClaim true).1.foldWrite w.inner.nextSegment input
          true).world = { (w.foldClaim true).1 with disk } := by
        unfold foldWrite
        split
        · exact ⟨w.disk, rfl⟩
        · exact ⟨(Live.write w.disk w.inner.nextSegment input.generation input.bytes).1, by
            simp only [if_true]
            cases (Live.write (w.foldClaim true).1.disk w.inner.nextSegment input.generation
              input.bytes).2 <;> rfl⟩
      show Search.Outcome.Then (foldPublish ((w.foldClaim true).1.foldWrite w.inner.nextSegment input
        true).world which w.inner.nextSegment input.snapshot folded true) _
      rw [hdisk]
      unfold foldPublish
      split
      · exact (Search.Outcome.then_ok _ _ _).mpr (Clears.refl w)
      · have hput : w.Clears which { (w.foldClaim true).1 with
            disk, inner := (w.foldClaim true).1.inner.putFolded which w.inner.nextSegment folded
              true } := by
          intro n hn
          have hn := (mem_unwritten_putFolded (w := (w.foldClaim true).1) hseg).mp hn
          obtain ⟨hn, hr⟩ := hn.resolve_right fun hd => (by cases hd.2.1)
          obtain ⟨l, hl, rfl⟩ := h.unwritten n hn
          exact ⟨hn, fun hm => hr ⟨List.mem_map_of_mem hl, hm⟩⟩
        simp only
        split
        · refine Search.Outcome.Then.bind fun _ _ => (Search.Outcome.then_ok _ _ _).mpr ?_
          intro n hn
          rw [saveMeta_unwritten] at hn
          exact hput n hn
        · exact (Search.Outcome.then_ok _ _ _).mpr hput

theorem writeGroup_clears (R : SegmentRule Q) (group : List Nat) : ∀ {w : World}, Kept Q cs w none →
    (w.writeGroup group).Then fun w' _ => w.Clears group w' := by
  induction group with
  | nil => exact fun {w} _ => (Search.Outcome.then_ok _ _ _).mpr (Clears.refl w)
  | cons n group ih =>
    intro w h
    refine Search.Outcome.Then.bind fun a ha => ?_
    have hone := writeUnwritten_clears h.filed n a ha
    have hkept : Kept Q cs (w.writeUnwritten n).world none :=
      ((filedKeeper R).writeUnwritten h).1 a ha
    exact fun b hb => hone.trans (ih hkept b hb)

theorem persistGroup_clears (R : SegmentRule Q) (group : List Nat) (h : Kept Q cs w none) :
    (w.persistGroup group).Then fun w' _ => w.Clears group w' := by
  unfold persistGroup
  split
  · refine Search.Outcome.Then.bind fun folded hf => ?_
    have hfold := foldTo_clears h.filed h.ok group folded hf
    have hkept : Kept Q cs (w.foldTo group true).world none :=
      ((filedKeeper R).foldAny h).1 folded hf
    cases folded with
    | true => exact (Search.Outcome.then_ok _ _ _).mpr hfold
    | false => exact fun b hb => Clears.trans hfold (writeGroup_clears R group hkept b hb)
  · exact writeGroup_clears R group h

theorem kept_persistGroup (R : SegmentRule Q) (group : List Nat) (h : Kept Q cs w none) :
    (w.persistGroup group).Meets (fun w _ => Kept Q cs w none) fun w => Kept Q cs w none := by
  unfold persistGroup
  split
  · refine ((filedKeeper R).foldAny h).bind fun w folded hw => ?_
    split
    · exact (Search.Outcome.meets_ok _ _ _ _).mpr hw
    · exact (filedKeeper R).toKeeper.writeGroup group hw
  · exact (filedKeeper R).toKeeper.writeGroup group h

theorem kept_persistGroups (R : SegmentRule Q) (groups : List (List Nat)) : ∀ {w : World},
    Kept Q cs w none →
      (w.persistGroups groups).Meets (fun w _ => Kept Q cs w none) fun w => Kept Q cs w none := by
  induction groups with
  | nil => exact fun h => (Search.Outcome.meets_ok _ _ _ _).mpr h
  | cons group groups ih => exact fun h => (kept_persistGroup R group h).bind fun _ _ hw => ih hw

theorem persistGroups_clears (R : SegmentRule Q) (groups : List (List Nat)) : ∀ {w : World},
    Kept Q cs w none → (w.persistGroups groups).Then fun w' _ => w.Clears groups.flatten w' := by
  induction groups with
  | nil => exact fun {w} h => (Search.Outcome.then_ok _ _ _).mpr (Clears.refl w)
  | cons group groups ih =>
    intro w h
    refine Search.Outcome.Then.bind fun a ha => ?_
    have hone := persistGroup_clears R group h a ha
    have hkept := (kept_persistGroup R group h).1 a ha
    exact fun b hb => hone.trans (ih hkept b hb)

/-- Every segment that is only in memory is in one of the groups. -/
theorem mem_unwrittenGroups (h : w.Filed Q none []) {n : Nat} (hn : n ∈ w.inner.unwritten) :
    n ∈ w.inner.unwrittenGroups.flatten := by
  obtain ⟨l, hl, rfl⟩ := h.unwritten n hn
  have hgroup : ∃ g ∈ w.inner.groups, l.number ∈ g := by
    unfold Inner.groups
    cases w.inner.opened with
    | none => exact ⟨_, List.mem_singleton_self _, List.mem_map_of_mem hl⟩
    | some o =>
      simp only [List.mem_insertionSort]
      refine ⟨_, List.mem_map_of_mem (List.mem_dedup.mpr (List.mem_map_of_mem hl)), ?_⟩
      exact List.mem_map_of_mem (List.mem_filter.mpr ⟨hl, decide_eq_true rfl⟩)
  obtain ⟨g, hg, hin⟩ := hgroup
  have hin : l.number ∈ g.filter w.inner.unwritten.contains :=
    List.mem_filter.mpr ⟨hin, by simpa using hn⟩
  unfold Inner.unwrittenGroups
  refine List.mem_flatten.mpr ⟨_, List.mem_filter.mpr ⟨List.mem_map_of_mem hg, ?_⟩, hin⟩
  rw [Bool.not_eq_true', List.isEmpty_eq_false_iff]
  exact List.ne_nil_of_mem hin

/-! ## The end of a persist -/

theorem writeDirtyAlive_clean (w : World) : w.writeDirtyAlive.Then fun w' _ =>
    w'.inner.dirtyAlive = [] ∧ w'.inner.unwritten = w.inner.unwritten := by
  unfold writeDirtyAlive Inner.takeDirtyAlive
  simp only
  split
  · exact (Search.Outcome.then_ok _ _ _).mpr ⟨rfl, rfl⟩
  · split
    · exact (Search.Outcome.then_ok _ _ _).mpr ⟨rfl, rfl⟩
    · exact Search.Outcome.then_err _ _

theorem saveMeta_clean (w : World) : w.saveMeta.Then fun w' _ =>
    w'.inner.metaDirty = false ∧ w'.inner.dirtyAlive = w.inner.dirtyAlive ∧
      w'.inner.unwritten = w.inner.unwritten := by
  unfold saveMeta
  simp only
  split
  · exact Search.Outcome.then_err _ _
  · exact (Search.Outcome.then_ok _ _ _).mpr ⟨rfl, rfl, rfl⟩

/-- A persist that returns leaves nothing owed. -/
theorem persistUnwritten_written (R : SegmentRule Q) (h : Kept Q cs w none) :
    w.persistUnwritten.Then fun w' _ => w'.Written ∧ Kept Q cs w' none := by
  refine Search.Outcome.Then.bind fun a ha => ?_
  have hclears := persistGroups_clears R _ h a ha
  have hkept := (kept_persistGroups R _ h).1 a ha
  have hnone : (w.persistGroups w.inner.unwrittenGroups).world.inner.unwritten = [] := by
    refine List.eq_nil_iff_forall_not_mem.mpr fun n hn => ?_
    obtain ⟨hn, hm⟩ := hclears n hn
    exact hm (mem_unwrittenGroups h.filed hn)
  refine Search.Outcome.Then.bind fun b hb => ?_
  have hclean := writeDirtyAlive_clean _ b hb
  have hkept := ((filedKeeper R).writeDirtyAlive hkept).1 b hb
  beta_reduce
  split
  · intro c hc
    obtain ⟨h1, h2, h3⟩ := saveMeta_clean _ c hc
    exact ⟨⟨h3.trans (hclean.2.trans hnone), h2.trans hclean.1, h1⟩,
      ((filedKeeper R).saveMeta hkept).1 c hc⟩
  · rename_i hmeta
    exact (Search.Outcome.then_ok _ _ _).mpr
      ⟨⟨hclean.2.trans hnone, hclean.1, by simpa using hmeta⟩, hkept⟩

/-- A commit that returns leaves nothing owed. -/
theorem commit_written (R : SegmentRule Q) (h : Kept Q cs w none) :
    w.commit.Then fun w' _ => w'.Written ∧ Kept Q cs w' none := by
  have K := filedKeeper R
  have hg : Guards.free.commits w := Guards.free_call w .commit
  have hprep : w.commitPrepare.Meets (fun w p => Kept Q cs w (some (.batch p)))
      fun w => Kept Q cs w none :=
    (K.toKeeper.settle h hg.1).bind_then hg.2 fun _ _ hw hf => K.toKeeper.flushPrepare hw hf
  refine Search.Outcome.Then.bind fun p hp => Search.Outcome.Then.bind fun a ha => ?_
  exact persistUnwritten_written R ((K.toKeeper.commitWrite (hprep.1 p hp)).1 a ha)

/-! ## Reading it back -/

theorem entries_reopened (l : Live) : (reopened l).entries = l.entries := rfl

/-- What the directory holds is what the index holds. -/
theorem reopen_written (h : Kept Q cs w none) (hw : w.Written) (faults : List Bool) :
    (opened w.disk.image faults).inner.segments.Perm (w.inner.segments.map reopened) := by
  have hall : w.inner.manifest.segments =
      w.inner.segments.map fun l => (l.number, l.generation) := by
    show List.map _ (List.filter _ _) = _
    rw [hw.unwritten]
    exact congrArg (List.map _) (List.filter_eq_self.mpr fun _ _ => rfl)
  have hperm := h.filed.manifest hw.metaDirty
  rw [hall] at hperm
  show (List.filterMap _ _).Perm _
  refine (hperm.filterMap _).trans (List.Perm.of_eq ?_)
  rw [List.filterMap_map]
  refine (List.filterMap_congr fun l hl => ?_).trans (congrFun List.filterMap_eq_map' _)
  have hholds : w.disk.image.Holds l.number l.bytes := by
    refine (h.filed.files l hl ?_).2.resolve_right ?_
    · rw [hw.unwritten]
      exact List.not_mem_nil
    · rw [hw.dirtyAlive]
      exact fun hm => hm.elim (fun hm => absurd hm List.not_mem_nil) fun hm =>
        absurd hm List.not_mem_nil
  obtain ⟨es, hseg, hlen⟩ := h.ok.segments l hl
  unfold Live.bytes at hholds
  rw [hseg] at hholds
  show Live.open? w.disk.image l.number l.generation = _
  rw [Image.open?_of_holds hlen hholds, ← hseg]
  rfl

/-- The index that is opened holds the rows the old one held. -/
theorem liveRows_opened (h : Kept Q cs w none) (hw : w.Written) (faults : List Bool) :
    (opened w.disk.image faults).liveRows.Perm w.liveRows := by
  refine ((reopen_written h hw faults).flatMap_right Live.entries).trans (List.Perm.of_eq ?_)
  rw [List.flatMap_map]
  exact List.flatMap_congr fun l _ => entries_reopened l

theorem Lived.commit (h : Lived w) : Lived w.commit.world := h.ran [.commit]

theorem lived_commit (h : Lived w) (hc : w.commit.val = some ()) :
    ∃ cs, w.commit.world.Written ∧ Kept InOrder cs w.commit.world none := by
  obtain ⟨cs, hk⟩ := lived_kept inOrder_rule h
  exact ⟨cs, commit_written inOrder_rule hk () hc⟩

/-- **What a commit leaves is read back.**  The process stops after a commit has returned, whatever
happened before it: the index that is opened from the directory has the same segments with the same
live rows, and nothing waiting. -/
theorem commit_reopens (h : Lived w) (hc : w.commit.val = some ()) (faults : List Bool) :
    ∃ w', openOrCreate (.of w.commit.world.disk.image faults) = some w' ∧
      w'.inner.segments.Perm (w.commit.world.inner.segments.map reopened) ∧
      w'.liveRows.Perm w.commit.world.liveRows ∧ w'.Idle ∧ Lived w' := by
  obtain ⟨cs, hw, hk⟩ := lived_commit h hc
  have hopen := openOrCreate_of_opens hk.filed.opens faults
  exact ⟨_, hopen, reopen_written hk hw faults, liveRows_opened hk hw faults, ⟨rfl, rfl, rfl, rfl⟩,
    .restarted faults h.commit hk.filed.current hopen⟩

/-- A directory of two files goes, but one of them that was seen again meanwhile. -/
theorem commit_reopens_moved :
    let w := (empty []).run [.apply [.upsert (.file "/a/x"), .upsert (.file "/a/y")], .publish,
      .apply [.removeSubtree (.of "/a"), .upsert (.file "/b/x")]]
    ∃ w', openOrCreate (.of w.commit.world.disk.image []) = some w' ∧
      w'.inner.segments.Perm (w.commit.world.inner.segments.map reopened) ∧
      w'.liveRows.Perm w.commit.world.liveRows ∧ w'.Idle ∧ Lived w' :=
  commit_reopens (.ran _ (.created [])) (by decide +kernel) []

/-! ## A table over several sessions -/

/-- A process that writes, commits and stops, and the next one that opens what it left. -/
def session (w : World) (calls : List Call) : Option World :=
  openOrCreate (.of (w.run calls).commit.world.disk.image [])

/-- One session after another. -/
def sessions : World → List (List Call) → Option World
  | w, [] => some w
  | w, calls :: rest => (w.session calls).bind fun w => w.sessions rest

/-- What is asked of several sessions: each writes, and each is one the write path gets right. -/
def sessionsGuards : World → List (List Call) → Prop
  | _, [] => True
  | w, calls :: rest => (∀ c ∈ calls, c.writes = true) ∧ tableGuards.run w (calls ++ [.commit]) ∧
      ∀ w' ∈ w.session calls, w'.sessionsGuards rest

instance decidableSessions : ∀ (w : World) (runs : List (List Call)),
    Decidable (w.sessionsGuards runs)
  | _, [] => .isTrue trivial
  | w, calls :: rest =>
      have := fun w' => decidableSessions w' rest
      inferInstanceAs (Decidable ((∀ c ∈ calls, c.writes = true) ∧
        tableGuards.run w (calls ++ [.commit]) ∧ ∀ w' ∈ w.session calls, w'.sessionsGuards rest))

/-- What a session leaves is the table of its changes. -/
theorem commit_table {w : World} (h : w.Sound .fully w.table []) (hf : w.Unfailing)
    {calls : List Call} (hc : ∀ c ∈ calls, c.writes = true)
    (hg : tableGuards.run w (calls ++ [.commit])) :
    (w.run calls).commit.val = some () ∧ (w.run calls).commit.world.Idle ∧
      (w.run calls).commit.world.Sound .fully
        (tableAfter w.table (calls.flatMap Call.changes)) [] := by
  obtain ⟨hg, hcommit, -⟩ := (Guards.run_append _ _ _).mp hg
  have h0 : Stands .fully w.table [] [] w none := .free h
  have hrun := (tableKeeper w.table).runWrites (fun _ _ => id) calls hc ⟨h0, hf⟩ hg
  obtain ⟨⟨⟩, hv, hw, -⟩ := ((tableKeeper w.table).commit hrun hcommit).returns
  exact ⟨hv, (w.run calls).commit_idle () hv, hw.sound⟩

theorem sweepOrphans_faults (d : Disk) (m : Manifest) : (sweepOrphans d m).faults = d.faults := by
  unfold sweepOrphans
  generalize d.image.files.map (·.1) = files
  induction files generalizing d with
  | nil => rfl
  | cons f files ih =>
    rw [List.foldl_cons, ih]
    split <;> rfl

/-- An index that is opened stands for the rows in its segments. -/
theorem sound_opened {img : Image} (h : img.Opens Q) (faults : List Bool)
    (hkeys : ((opened img faults).liveRows.map Entry.key).Nodup) :
    (opened img faults).Sound .fully (opened img faults).table [] where
  toOk := (kept_opened h faults).ok
  unique _ := by
    have hrows : (opened img faults).rows = (opened img faults).liveRows := by
      unfold rows
      simp [Building.airRows, opened, failedRows]
    rw [hrows, List.flatMap_nil, List.append_nil]
    exact hkeys
  slots _ := Slots.nil _
  apart _ _ h := absurd h List.not_mem_nil
  closed _ := rfl
  view _ := rfl

theorem Sound.keys_nodup {V : Set Entry} (h : w.Sound .fully V []) :
    (w.liveRows.map Entry.key).Nodup := by
  have hu := h.unique trivial
  unfold rows at hu
  rw [List.map_append, List.map_append] at hu
  exact (List.nodup_append.mp (List.nodup_append.mp hu).1).1

/-- One session leaves an index that stands for the table, in order for the next. -/
theorem session_table {w : World} (hl : Lived w) (h : w.Sound .fully w.table []) (hf : w.Unfailing)
    {calls : List Call} (hc : ∀ c ∈ calls, c.writes = true)
    (hg : tableGuards.run w (calls ++ [.commit])) :
    ∃ w', w.session calls = some w' ∧ Lived w' ∧ w'.Sound .fully w'.table [] ∧ w'.Unfailing ∧ w'.Idle ∧
      w'.table = tableAfter w.table (calls.flatMap Call.changes) := by
  obtain ⟨hv, hidle, hsound⟩ := commit_table h hf hc hg
  obtain ⟨cs, hwritten, hk⟩ := lived_commit (hl.ran calls) hv
  have hopens := hk.filed.opens
  have hopen := openOrCreate_of_opens hopens []
  have hperm := liveRows_opened hk hwritten []
  have hidle' : (opened (w.run calls).commit.world.disk.image []).Idle := ⟨rfl, rfl, rfl, rfl⟩
  refine ⟨_, hopen, .restarted [] (hl.ran calls).commit hk.filed.current hopen,
    sound_opened hopens [] ((hperm.map _).nodup_iff.mpr hsound.keys_nodup), ?_, hidle', ?_⟩
  · exact ⟨sweepOrphans_faults _ _, rfl⟩
  · ext e
    rw [mem_table_of_idle hidle', hperm.mem_iff, ← mem_table_of_idle hidle]
    exact iff_of_eq (congrArg (e ∈ ·) (hsound.view trivial))

/-- Any number of sessions leave an index that stands for the table, in order for the next. -/
theorem sessions_stand (runs : List (List Call)) : ∀ {w : World}, Lived w →
    w.Sound .fully w.table [] → w.Unfailing → w.Idle → w.sessionsGuards runs →
      ∃ w', w.sessions runs = some w' ∧ Lived w' ∧ w'.Sound .fully w'.table [] ∧ w'.Idle ∧
        w'.table = tableAfter w.table (runs.flatten.flatMap Call.changes) := by
  induction runs with
  | nil => exact fun {w} hl h _ hidle _ => ⟨w, rfl, hl, h, hidle, rfl⟩
  | cons calls runs ih =>
    intro w hl h hf _ hg
    obtain ⟨hc, hg, hrest⟩ := hg
    obtain ⟨w', hone, hl', h', hf', hidle', htable⟩ := session_table hl h hf hc hg
    obtain ⟨w'', hruns, hl'', h'', hidle'', htable'⟩ := ih hl' h' hf' hidle' (hrest w' hone)
    refine ⟨w'', ?_, hl'', h'', hidle'', ?_⟩
    · unfold sessions
      rw [hone]
      exact hruns
    · rw [htable', htable, List.flatten_cons, List.flatMap_append, tableAfter_append]

/-- **The index is the table of all that was written, over any number of sessions**, the process
stopping after each commit and the index opened again from the directory. -/
theorem sessions_table (runs : List (List Call)) {w : World} (hl : Lived w)
    (h : w.Sound .fully w.table []) (hf : w.Unfailing) (hidle : w.Idle)
    (hg : w.sessionsGuards runs) :
    ∃ w', w.sessions runs = some w' ∧ (w'.liveRows.map Entry.key).Nodup ∧
      ∀ e, e ∈ w'.liveRows ↔ e ∈ tableAfter w.table (runs.flatten.flatMap Call.changes) := by
  obtain ⟨w', hruns, -, hs, hidle', htable⟩ := sessions_stand runs hl h hf hidle hg
  refine ⟨w', hruns, hs.keys_nodup, fun e => ?_⟩
  rw [← htable, mem_table_of_idle hidle']

/-- A directory is written in one session, and goes in the next but for a file that is seen again. -/
theorem sessions_table_moved :
    let runs : List (List Call) := [[.apply [.upsert (.file "/a/x"), .upsert (.file "/a/y")]],
      [.apply [.upsert (.file "/c")], .publish,
        .apply [.removeSubtree (.of "/a"), .upsert (.file "/b/x")]]]
    ∃ w', (empty []).sessions runs = some w' ∧ (w'.liveRows.map Entry.key).Nodup ∧
      ∀ e, e ∈ w'.liveRows ↔ e ∈ tableAfter (empty []).table (runs.flatten.flatMap Call.changes) :=
  sessions_table _ (.created []) (empty_tabled []) ⟨rfl, rfl⟩ ⟨rfl, rfl, rfl, rfl⟩
    (by decide +kernel)

end World

end Scour
