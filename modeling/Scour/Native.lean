import Scour.Fold

/-!
# The operations of the index

`apply`, `commit`, `publish`, `beginGeneration`, `sweep`, `abandonGeneration`, `forget`, `maintain`
and `openOrCreate`, each as its steps.  `commit` is cut where it lets go of the lock.
-/

namespace Scour

/-- What a batch did. -/
structure ApplyReport where
  upserted : Nat
  subtreesRemoved : Nat
  unchanged : Nat
deriving DecidableEq

def ApplyReport.default : ApplyReport := ⟨0, 0, 0⟩

namespace World

/-! ## Changes -/

/-- An upsert reaches the buffer. -/
def stage (w : World) (e : Entry) : World :=
  let inner := w.inner
  let inner := if inner.sources.contains e.source then inner
    else { inner with sources := inner.sources ++ [e.source] }
  -- a file that was removed and has come back must stop being hidden
  let inner := if inner.hiddenPrefixes.isEmpty then inner
    else { inner with hiddenPrefixes := inner.hiddenPrefixes.forget e.path.bytes }
  { w with inner := inner.put e }

/-- A removal is pending. -/
def hide (w : World) (path : Path) : World :=
  { w with inner := { w.inner with
    hiddenPrefixes := w.inner.hiddenPrefixes.extend [path.bytes] } }

/-- One change of a batch. -/
def applyChange (w : World) (report : ApplyReport) : Change → Out ApplyReport
  | .upsert e =>
      let w := w.stage e
      let report := { report with upserted := report.upserted + 1 }
      if MAX_STAGED ≤ w.inner.staged.length then
        (w.flushMaybeElsewhere true).bind fun w _ => .ok w report
      else .ok w report
  | .removeSubtree path =>
      .ok (w.hide path) { report with subtreesRemoved := report.subtreesRemoved + 1 }
  -- walking the subtree again is the engine's job
  | .rescan _ => .ok w report

def applyFrom (w : World) (report : ApplyReport) : List Change → Out ApplyReport
  | [] => .ok w report
  | c :: rest => (w.applyChange report c).bind fun w report => w.applyFrom report rest

/-- The spared rows have been told of. -/
def told (w : World) : World := { w with inner := { w.inner with spared := 0 } }

def apply (w : World) (changes : List Change) : Out ApplyReport :=
  (w.applyFrom .default changes).bind fun w report =>
    let spared := w.inner.spared
    .ok w.told { report with upserted := report.upserted - spared, unchanged := spared }

/-! ## Commit and publish -/

/-- The first step of a commit, under the lock. -/
def commitPrepare (w : World) : Out Pending := w.settle.bind fun w _ => w.flushPrepare false true

/-- The bitmaps, with no lock held. -/
def commitAlive (w : World) (pending : Pending) : Out Unit :=
  let (disk, ok) := writeAlive w.disk pending.alive
  let w := { w with disk }
  if ok then .ok w () else .err (w.restore pending)

/-- The segment, with no lock held; nothing where nothing was staged. -/
def commitBuild (w : World) (pending : Pending) : Out (Option Live) :=
  match pending.staged with
  | none => .ok w none
  | some (number, generation, staged) =>
      let (disk, live) := Live.write w.disk number generation (build staged)
      let w := { w with disk }
      match live with
      | none => .err (w.restore pending)
      | some live => .ok w (some live)

/-- The last step of a commit, under the lock again. -/
def commitInstall (w : World) (live : Live) : Out Unit :=
  let inner := { w.inner with nextSegment := max w.inner.nextSegment (live.number + 1) }
  ({ w with inner }.installWritten live).saveMeta

/-- What a commit does with what its first step lifted out. -/
def commitWrite (w : World) (pending : Pending) : Out Unit :=
  (w.commitAlive pending).bind fun w _ =>
    (w.commitBuild pending).bind fun w live =>
      match live with
      | none => .ok w ()
      | some live => w.commitInstall live

/-- Make everything applied so far durable and visible to new readers. -/
def commit (w : World) : Out Unit :=
  w.commitPrepare.bind fun w pending =>
    (w.commitWrite pending).bind fun w _ => w.persistUnwritten

/-- Make everything applied so far visible to new readers. -/
def publish (w : World) : Out Unit :=
  -- a large batch goes to disk as a commit would
  if PUBLISH_MAX_STAGED < w.inner.staged.length then w.commit
  else
    w.publishNow.bind fun w _ =>
      let held := ((w.inner.segments.filter fun l => w.inner.unwritten.contains l.number).map
        Live.rows).sum
      if UNWRITTEN_MAX_ROWS < held then w.persistUnwritten else .ok w ()

/-! ## Generations -/

/-- No generation is open and nothing is marked. -/
def dropMarks (w : World) : World :=
  { w with inner := { w.inner with opened := none, seen := fun _ => none } }

/-- A new generation is open. -/
def openNext (w : World) : World :=
  let g := w.inner.generation + 1
  { w with inner := { w.inner with generation := g, opened := some g, metaDirty := true } }

/-- Start a reconciliation pass and return its number. -/
def beginGeneration (w : World) : Out Nat :=
  w.settle.bind fun w _ =>
    -- closed before the flush, or the flush spares rows into marks that are thrown away
    w.dropMarks.publishLocked.bind fun w _ => .ok w.openNext (w.inner.generation + 1)

/-- Close a scan's compaction cohort before ordinary changes resume. -/
def closeGeneration (w : World) (generation : Nat) : World :=
  if w.inner.opened = some generation then
    { w with inner := { w.inner with
        opened := none, generation := w.inner.generation + 1, metaDirty := true } }
  else w

/-- The marks are worthless without the sweep that would have read them. -/
def unmarked (w : World) : World := { w with inner := { w.inner with seen := fun _ => none } }

/-- Close a generation that ended without a sweep. -/
def abandonGeneration (w : World) (generation : Nat) : Out Unit :=
  .ok (w.closeGeneration generation).unmarked ()

/-- A root of a sweep: empty, or a path. -/
abbrev Root := { p : Str // p = [] ∨ isPath p = true }

/-- Does one of the roots name the whole tree? -/
def wholeTree (under : List Root) : Bool :=
  under.isEmpty || under.any fun p => p.1.isEmpty || p.1 == [slash]

/-- The parents and names of the swept directories' own rows. -/
def ownsOf (seg : Segment) (under : List Root) : List (Nat × Str) :=
  under.filterMap fun p => do
    let (parent, name) ← rsplitOnce (trimEnd p.1)
    let parent := if parent.isEmpty then [slash] else parent
    let pd ← seg.dirs.exact parent
    pure (pd, name)

/-- The rows of one segment a sweep takes. -/
def sweepVictims (l : Live) (source : SourceId) (under : List Root) (seen : Option (List Bool))
    (spare : PrefixSet) : List Nat :=
  let seg := l.seg
  let whole := wholeTree under
  let scopes := under.map fun p => seg.dirs.subtree p.1
  let owns := if whole then [] else ownsOf seg under
  if !whole && scopes.all DirScope.isEmpty && owns.isEmpty then []
  else
    let spared (row : Nat) : Bool := seen.any fun bits => bits.getD row false
    let inScope (row : Nat) : Bool :=
      let d := seg.dirId row
      scopes.any (fun s => s.contains d) || owns.any fun o => o.1 == d && seg.names[row]? == some o.2
    let blockMatters (block : Nat) : Bool :=
      whole || match seg.blockRange .dirId block with
        | some (lo, hi) =>
            if 0 ≤ lo then
              scopes.any (fun s => s.intersects lo.toNat hi.toNat) ||
                owns.any fun o => lo.toNat ≤ o.1 && o.1 ≤ hi.toNat
            else true
        | none => true
    Segment.scanBlocks l.rows (fun block => !blockMatters block) fun row =>
      l.isAlive row && !spared row && (whole || inScope row) && seg.sourceOf row == source &&
        !(!spare.isEmpty && spare.covers (seg.path row ((seg.names[row]?).getD [])))

/-- The loop of a sweep over the segments. -/
def sweepSegments (segments : List Live) (source : SourceId) (under : List Root)
    (generation : Nat) (seen : Nat → Option (List Bool)) (spare : PrefixSet) : List (Live × Nat) :=
  segments.map fun l =>
    if generation ≤ l.generation then (l, 0)
    else l.killAll (sweepVictims l source under (seen l.number) spare)

/-- The part of a sweep that judges, once what was staged is in. -/
def sweepJudge (w : World) (source : SourceId) (under : List Root) (generation : Nat)
    (spare : PrefixSet) : Out Nat :=
  let w := w.closeGeneration generation
  let seen := w.inner.seen
  let judged := sweepSegments w.inner.segments source under generation seen spare
  let dirty := (judged.filter fun p => 0 < p.2).map fun p => p.1.number
  let inner : Inner := { w.inner with
    seen := fun _ => none
    segments := judged.map (·.1)
    dirtyAlive := w.inner.dirtyAlive ++ dirty }
  .ok { w with inner := inner.forgetEmpty.1 } (judged.map (·.2)).sum

/-- What a sweep does before it judges. -/
def sweepSettle (w : World) : Out Unit :=
  w.settle.bind fun w _ => w.publishNow.bind fun w _ => w.publishLocked

/-- Remove everything this source has under `under` that is not stamped with `generation`. -/
def sweep (w : World) (source : SourceId) (under : List Root) (generation : Nat)
    (spare : PrefixSet) : Out Nat :=
  w.sweepSettle.bind fun w _ => w.sweepJudge source under generation spare

/-! ## Forgetting a source -/

/-- Every row of one source dies; returns how many did. -/
def forgetKill (w : World) (source : SourceId) : World × Nat :=
  let killed : List (Live × Nat) := w.inner.segments.map fun l =>
    l.killAll ((List.range l.rows).filter fun row =>
      l.isAlive row && l.seg.sourceOf row == source)
  let dirty := (killed.filter fun p => 0 < p.2).map fun p => p.1.number
  ({ w with inner := { w.inner with
      segments := killed.map (·.1), dirtyAlive := w.inner.dirtyAlive ++ dirty } },
    (killed.map (·.2)).sum)

/-- Segments nothing is alive in leave the list. -/
def emptied (w : World) : World := { w with inner := w.inner.forgetEmpty.1 }

/-- Remove everything one source ever put here. -/
def forget (w : World) (source : SourceId) : Out Nat :=
  w.settle.bind fun w _ =>
    w.flush.bind fun w _ =>
      let (w, gone) := w.forgetKill source
      if gone = 0 then .ok w 0
      else
        w.writeDirtyAlive.bind fun w _ => w.emptied.saveMeta.bind fun w _ => .ok w gone

/-! ## Maintenance -/

def TIER_RATIO : Nat := 4

/-- One round of `size_tiers`: the tiers so far, newest first, and the rows in the last. -/
def tierStep (acc : List (List Nat) × Nat) (m : Nat × Nat) : List (List Nat) × Nat :=
  match acc.1 with
  | tier :: tiers =>
      if m.2 ≤ TIER_RATIO * acc.2 then ((tier ++ [m.1]) :: tiers, acc.2 + m.2)
      else ([m.1] :: tier :: tiers, m.2)
  | [] => ([[m.1]], m.2)

/-- Split segments, given by number and rows, into size tiers, smallest first. -/
def sizeTiers (sizes : List (Nat × Nat)) : List (List Nat) :=
  ((sizes.insertionSort fun a b => a.2 < b.2 ∨ (a.2 = b.2 ∧ a.1 ≤ b.1)).foldl tierStep
    ([], 0)).1.reverse

/-- One candidate segment, as `headOf` sees it. -/
structure Member where
  number : Nat
  rows : Nat
  dead : Nat

/-- `max_by_key`: the last of the largest. -/
def biggest : List Member → Option Member
  | [] => none
  | m :: rest =>
      match biggest rest with
      | none => some m
      | some b => if b.rows < m.rows then some m else some b

/-- Which of a group of segments to fold together next, or nothing. -/
def headOf (members : List Member) : Option (List Nat) :=
  match biggest members with
  | none => none
  | some big =>
      if big.rows < big.dead * 4 then some (members.map (·.number))
      else
        let rest := members.filter fun m => m.number ≠ big.number
        match (sizeTiers (rest.map fun m => (m.number, m.rows))).find? fun t => 2 ≤ t.length with
        | some tier => some tier
        | none => (rest.find? fun m => m.rows < m.dead * 4).map fun m => [m.number]

/-- The next group of segments worth folding, or nothing. -/
def nextHead (w : World) : Option (List Nat) :=
  match (w.inner.groups.map fun g => g.filter fun n => !w.inner.unwritten.contains n).find? fun g =>
      3 ≤ g.length with
  | none => none
  | some group =>
      headOf (group.map fun number =>
        match w.inner.segment? number with
        | some l => ⟨number, l.rows, l.deadRows⟩
        | none => ⟨number, 0, 0⟩)

/-- The loop of a compaction, `fuel` bounding its rounds. -/
def compactLoop (w : World) : Nat → Out Unit
  | 0 => .ok w ()
  | fuel + 1 =>
      match w.nextHead with
      | none => .ok w ()
      | some head => (w.foldTo head true).bind fun w folded =>
          if folded then w.compactLoop fuel else .ok w ()

/-- `fold_to` for each group, whatever it answers. -/
def foldGroups (w : World) (durable : Bool) : List (List Nat) → Out Unit
  | [] => .ok w ()
  | group :: rest => (w.foldTo group durable).bind fun w _ => w.foldGroups durable rest

/-- `fold` for each group, until one is refused. -/
def rebuildGroups (w : World) : List (List Nat) → Out Unit
  | [] => .ok w ()
  | group :: rest => (w.foldTo group true).bind fun w folded =>
      if folded then w.rebuildGroups rest else .ok w ()

/-- The work of a rebuild, decided once. -/
def rebuildWork (w : World) : List (List Nat) :=
  if w.inner.opened.isNone && 1 < w.inner.segments.length then
    [w.inner.segments.map (·.number)]
  else
    w.inner.groups.filter fun g => 1 < g.length ||
      w.inner.segments.any fun l => g.head? == some l.number && 0 < l.deadRows

inductive Maintenance where
  | flush | idle | compact | rebuild
deriving DecidableEq

def maintain (w : World) (level : Maintenance) : Out Unit :=
  w.settle.bind fun w _ =>
    w.flush.bind fun w _ =>
      match level with
      | .flush => w.persistUnwritten
      -- the rest of an idle pass gives memory back and changes nothing
      | .idle => w.persistUnwritten
      | .compact =>
          (w.foldGroups false (w.inner.unwrittenGroups.filter fun g => 1 < g.length)).bind
            fun w _ => w.compactLoop (2 * w.inner.segments.length + 1)
      | .rebuild =>
          (w.rebuildGroups w.rebuildWork).bind fun w _ => w.persistUnwritten

/-! ## Opening -/

/-- Remove segment files the manifest does not name. -/
def sweepOrphans (d : Disk) (m : Manifest) : Disk :=
  (d.image.files.map (·.1)).foldl (fun d f =>
    -- only what is already behind the manifest's next number
    if !(m.segments.map (·.1)).contains f.1 && f.1 < m.nextSegment then
      d.step (d.image.removeFile f.1 f.2)
    else d) d

/-- `Live::open` for every segment the manifest names. -/
def openAll (img : Image) : List (Nat × Nat) → Option (List Live)
  | [] => some []
  | (number, generation) :: rest => do
      let live ← Live.open? img number generation
      let lives ← openAll img rest
      pure (live :: lives)

def openInner (m : Manifest) (segments : List Live) : Inner where
  segments
  metaDirty := false
  dirtyAlive := []
  pendingErase := []
  staged := []
  seen := fun _ => none
  spared := 0
  sources := []
  stagedAt := fun _ => none
  hiddenPrefixes := .empty
  generation := m.generation
  opened := none
  nextSegment := m.nextSegment
  unwritten := []

/-- Open the index in a directory, creating an empty one if there is none. -/
def openOrCreate (d : Disk) : Option World :=
  -- only a missing manifest means a new index
  let m := d.image.manifest.getD .default
  if m.format ≠ FORMAT then none
  else
    (openAll d.image m.segments).map fun segments =>
      { inner := openInner m segments
        building := ⟨[], [], []⟩
        buildFailed := 0
        disk := sweepOrphans d m }

/-- An index just created. -/
def empty (faults : List Bool) : World where
  inner := openInner .default []
  building := ⟨[], [], []⟩
  buildFailed := 0
  disk := .of .empty faults

theorem openOrCreate_empty (faults : List Bool) :
    openOrCreate (.of .empty faults) = some (.empty faults) := rfl

end World

end Scour
