import Scour.Disk
import Scour.Doomed
import Scour.Lib.Outcome

/-!
# `NativeIndex`: what it holds, and the pieces its operations share

`Inner` is what the write lock guards, `Building` what the builder threads share with it, `World`
both and the directory.  A call returns `Out`: the world it leaves and its value, `none` for an
`Err`; an error keeps what was done before it.  A hash set is the list of its members, a hash map
the function it stands for.

A segment built on another thread is a `Job` until the thread has written it; `land` is the thread
finishing, at whatever moment that is.
-/

namespace Scour

def MAX_STAGED : Nat := 100000

def PUBLISH_MAX_STAGED : Nat := 50000

def UNWRITTEN_MAX_ROWS : Nat := 200000

def MAX_BUILDING : Nat := 4

/-- What a flush left for the caller to write: the only copy of those rows. -/
structure Pending where
  /-- The new segment's number, generation and rows. -/
  staged : Option (Nat × Nat × List Entry)
  /-- Live bits to replace, by segment number. -/
  alive : List (Nat × List Bool)
  /-- The removals this flush was going to make durable. -/
  prefixes : PrefixSet

def Pending.default : Pending := ⟨none, [], .empty⟩

structure Inner where
  segments : List Live
  /-- The in-memory segment list or generation is newer than the manifest. -/
  metaDirty : Bool
  /-- Segments whose in-memory live bitmap is newer than the file on disk. -/
  dirtyAlive : List Nat
  /-- Segment files to erase after the manifest stops naming them. -/
  pendingErase : List Nat
  /-- Upserts not yet written. -/
  staged : List Entry
  /-- Rows a walk found exactly as they already were, by segment number. -/
  seen : Nat → Option (List Bool)
  /-- How many rows have been spared since the last time somebody was told. -/
  spared : Nat
  /-- Every source this index has been handed a row for. -/
  sources : List SourceId
  /-- Where each staged path sits. -/
  stagedAt : UInt64 → Option Nat
  /-- Paths whose removal has taken effect for searches but not yet for the files. -/
  hiddenPrefixes : PrefixSet
  generation : Nat
  /-- A generation that has been handed out and not yet reconciled. -/
  opened : Option Nat
  nextSegment : Nat
  /-- Segments that exist only in memory. -/
  unwritten : List Nat

/-- A segment being built on another thread. -/
structure Flight where
  number : Nat
  /-- The path digests this segment will hold. -/
  paths : List UInt64
  /-- What to kill in it the moment it lands. -/
  doomed : List Live.Wanted
  /-- Subtrees removed while it was in the air. -/
  gone : PrefixSet

/-- What the thread of a flight works on. -/
structure Job where
  number : Nat
  generation : Nat
  rows : List Entry

/-- A build that has finished. -/
inductive Landed where
  | built (number : Nat) (live : Live)
  | failed (number : Nat) (rows : List Entry)

structure Building where
  /-- Handed to a thread and not yet finished. -/
  flights : List Flight
  /-- Finished, waiting for someone holding the write lock to install them. -/
  landed : List Landed
  /-- The threads still running. -/
  jobs : List Job

structure World where
  inner : Inner
  building : Building
  /-- Builds that failed. -/
  buildFailed : Nat
  disk : Disk

/-- What a call leaves and returns: no value is an `Err`. -/
abbrev Out (α : Type) := Search.Outcome World α

/-! ## The staging buffer -/

namespace Inner

/-- Where each entry of a buffer sits: the last one under a digest. -/
def slotsOf (staged : List Entry) : UInt64 → Option Nat :=
  staged.zipIdx.foldl (fun slots (e, i) => fun d => if d = e.digest then some i else slots d)
    fun _ => none

/-- Put an entry in the buffer, over the one its path's slot leads to. -/
def put (inner : Inner) (e : Entry) : Inner :=
  let d := e.digest
  let fresh : Inner :=
    { inner with
      stagedAt := fun x => if x = d then some inner.staged.length else inner.stagedAt x
      staged := inner.staged ++ [e] }
  match inner.stagedAt d with
  | none => fresh
  | some i =>
      if (inner.staged[i]?).any fun s => s.path = e.path then
        { inner with staged := inner.staged.set i e }
      else fresh

/-- Lift the staged entries out, leaving the index consistent without them. -/
def takeStaged (inner : Inner) (durable : Bool) : Inner × Option (Nat × Nat × List Entry) :=
  if inner.staged.isEmpty then (inner, none)
  else
    let number := inner.nextSegment
    ({ inner with
        nextSegment := inner.nextSegment + 1
        metaDirty := inner.metaDirty || durable
        staged := []
        stagedAt := fun _ => none },
      some (number, inner.generation, inner.staged))

/-! ## Segments -/

def segment? (inner : Inner) (number : Nat) : Option Live :=
  inner.segments.find? (·.number = number)

/-- `sort_by_key(|s| s.number)`. -/
def sortSegments (segments : List Live) : List Live :=
  segments.insertionSort fun a b => a.number ≤ b.number

/-- Put a segment in the list. -/
def install (inner : Inner) (live : Live) : Inner :=
  { inner with segments := sortSegments (inner.segments ++ [live]) }

/-- Lift every bitmap that is newer than its file out for one durable write. -/
def takeDirtyAlive (inner : Inner) : Inner × List (Nat × List Bool) :=
  -- a segment only in memory has no bitmap file to replace
  ({ inner with dirtyAlive := [] },
    (inner.segments.filter fun l =>
      inner.dirtyAlive.contains l.number && !inner.unwritten.contains l.number).map
        fun l => (l.number, l.alive))

/-- Forget segments nothing is left alive in; returns their numbers. -/
def forgetEmpty (inner : Inner) : Inner × List Nat :=
  let empty (l : Live) : Bool := 0 < l.rows && l.liveRows == 0
  let gone := (inner.segments.filter empty).map (·.number)
  -- one that was only in memory has no files and no line in the manifest
  let written := gone.filter fun n => !inner.unwritten.contains n
  ({ inner with
      segments := inner.segments.filter fun l => !empty l
      unwritten := inner.unwritten.filter fun n => !gone.contains n
      metaDirty := inner.metaDirty || !written.isEmpty
      pendingErase := inner.pendingErase ++ written }, gone)

def manifest (inner : Inner) : Manifest where
  format := FORMAT
  generation := inner.generation
  nextSegment := inner.nextSegment
  segments := (inner.segments.filter fun l => !inner.unwritten.contains l.number).map
    fun l => (l.number, l.generation)

/-- Put back what a failed publication was carrying. -/
def restore (inner : Inner) (pending : Pending) : Inner :=
  let dirty := (pending.alive.map (·.1)).filter fun n => (inner.segments.any (·.number = n))
  let inner := { inner with dirtyAlive := inner.dirtyAlive ++ dirty }
  let hidden := pending.prefixes.extend inner.hiddenPrefixes.paths
  -- an upsert that arrived while a commit was writing is newer than the removal being restored
  let inner := { inner with
    hiddenPrefixes := inner.staged.foldl (fun h e => h.forget e.path.bytes) hidden }
  match pending.staged with
  | none => inner
  | some (_, _, staged) =>
      let newer := inner.staged
      -- behind whatever arrived meanwhile: a path appears once
      newer.foldl put { inner with staged := staged, stagedAt := slotsOf staged }

end Inner

/-! ## The manifest and the bitmaps -/

namespace World

def saveMeta (w : World) : Out Unit :=
  let (disk, saved) := w.disk.writeManifest w.inner.manifest
  let w := { w with disk }
  if !saved then .err { w with inner := { w.inner with metaDirty := true } }
  else
    .ok { w with
      inner := { w.inner with metaDirty := false, pendingErase := [] }
      disk := w.inner.pendingErase.foldl Disk.erase w.disk } ()

/-- `Pending::write_alive`: up to the first that fails. -/
def writeAlive (disk : Disk) : List (Nat × List Bool) → Disk × Bool
  | [] => (disk, true)
  | (number, bits) :: rest =>
      let (disk, ok) := disk.writeAlive number bits
      if ok then writeAlive disk rest else (disk, false)

/-- Persist dirty bitmaps while the caller holds the write lock. -/
def writeDirtyAlive (w : World) : Out Unit :=
  let (inner, alive) := w.inner.takeDirtyAlive
  let w := { w with inner }
  if alive.isEmpty then .ok w ()
  else
    let (disk, ok) := writeAlive w.disk alive
    let w := { w with disk }
    if ok then .ok w ()
    else
      let dirty := (alive.map (·.1)).filter fun n => w.inner.segments.any (·.number = n)
      .err { w with inner := { w.inner with dirtyAlive := w.inner.dirtyAlive ++ dirty } }

def restore (w : World) (pending : Pending) : World :=
  { w with inner := w.inner.restore pending }

/-! ## Builds on other threads -/

/-- The thread of a job finishes: its files are written, or its rows come back. -/
def landJob (w : World) (job : Job) : World :=
  let (disk, live) := Live.write w.disk job.number job.generation (build job.rows)
  let done : Landed := match live with
    | some live => .built job.number live
    | none => .failed job.number job.rows
  { w with
    disk
    building := { w.building with
      jobs := w.building.jobs.filter (·.number ≠ job.number)
      landed := w.building.landed ++ [done] } }

/-- Some thread finishes. -/
def land (w : World) (number : Nat) : World :=
  match w.building.jobs.find? (·.number = number) with
  | none => w
  | some job => w.landJob job

/-- Whatever was removed while a segment was in the air, done to it as it lands. -/
def arrive (flight : Option Flight) (live : Live) : Live :=
  let doomed := (flight.map (·.doomed)).getD []
  let gone := (flight.map (·.gone)).getD .empty
  let live := if doomed.isEmpty then live
    else (live.killPaths (doomed.insertionSort fun a b => a.1 ≤ b.1)).1
  if gone.isEmpty then live else (live.killUnder gone).1

/-- The end of `collect`: the list is sorted and recorded when something was added. -/
def collected (w : World) (added failure : Bool) : Out Unit :=
  let report (w : World) : Out Unit := if failure then .err w else .ok w ()
  if added then
    let w := { w with inner := { w.inner with segments := Inner.sortSegments w.inner.segments } }
    w.saveMeta.bind fun w _ => report w
  else report w

/-- The loop of `collect` over what has landed. -/
def collectFrom (w : World) (added failure : Bool) : List Landed → Out Unit
  | [] => w.collected added failure
  | .built number live :: rest =>
      let flight := w.building.flights.find? (·.number = number)
      let late := flight.any fun f => !f.doomed.isEmpty || !f.gone.isEmpty
      let live := arrive flight live
      let (disk, ok) := if late then w.disk.writeAlive number live.alive else (w.disk, true)
      let w := { w with disk }
      if !ok then
        .err { w with
          building := { w.building with landed := w.building.landed ++ .built number live :: rest }
          inner := if added then
            { w.inner with segments := Inner.sortSegments w.inner.segments } else w.inner }
      else
        collectFrom { w with
          building := { w.building with flights := w.building.flights.filter (·.number ≠ number) }
          inner := { w.inner with
            nextSegment := max w.inner.nextSegment (number + 1)
            segments := w.inner.segments ++ [live]
            metaDirty := true } } true failure rest
  | .failed number rows :: rest =>
      let w := { w with
        building := { w.building with flights := w.building.flights.filter (·.number ≠ number) }
        buildFailed := w.buildFailed + 1 }
      collectFrom (w.restore ⟨some (number, w.inner.generation, rows), [], .empty⟩) added true rest

/-- Put every finished build in the list. -/
def collect (w : World) : Out Unit :=
  let done := w.building.landed
  if done.isEmpty then .ok w ()
  else collectFrom { w with building := { w.building with landed := [] } } false false done

/-- Wait until nothing is being built, then put the results in the list. -/
def settle (w : World) : Out Unit :=
  (w.building.jobs.foldl landJob w).collect

end World

end Scour
