import Scour.Flush
import Scour.Lib.KWayMerge

/-!
# Folding, and writing down what is only in memory

A fold is three steps under the lock with building in between: `foldClaim` takes a number,
`foldBuild` merges the live rows of its inputs and stamps their death counts, `foldPublish` puts the
result in their place unless an input lost a row since.  `persistUnwritten` writes every segment
published in memory, then the live bits and the manifest.
-/

namespace Scour

namespace Inner

/-- Segments grouped by generation while a scan is open, all together outside one.  A hash map's
order is not fixed; here the generations come as the list has them. -/
def groups (inner : Inner) : List (List Nat) :=
  match inner.opened with
  | none => [inner.segments.map (·.number)]
  | some _ =>
      let generations := (inner.segments.map (·.generation)).dedup
      let byGeneration := generations.map fun g =>
        (inner.segments.filter (·.generation = g)).map (·.number)
      byGeneration.insertionSort fun a b => b.length ≤ a.length

/-- The published segments in groups a fold may take together. -/
def unwrittenGroups (inner : Inner) : List (List Nat) :=
  (inner.groups.map fun g => g.filter inner.unwritten.contains).filter fun g => !g.isEmpty

/-- The merged segment takes the place of its inputs. -/
def putFolded (inner : Inner) (which : List Nat) (number : Nat) (folded : Option Live)
    (durable : Bool) : Inner :=
  let old := (inner.segments.filter fun l => which.contains l.number).map (·.number)
  let kept := inner.segments.filter fun l => !which.contains l.number
  let unwritten := if !durable && folded.isSome then inner.unwritten ++ [number]
    else inner.unwritten
  -- what was only in memory had no files to erase and no line to drop
  let written := old.filter fun n => !unwritten.contains n
  { inner with
    nextSegment := max inner.nextSegment (number + 1)
    segments := sortSegments (kept ++ folded.toList)
    unwritten := unwritten.filter fun n => !old.contains n
    metaDirty := inner.metaDirty || durable || !written.isEmpty
    pendingErase := inner.pendingErase ++ written }

end Inner

/-- The merged stored order. -/
def mergeRows (segs : List Live) : List Entry :=
  Search.mergeHeads (fun a b => storedLe a b) (segs.map Live.entries)

/-- What a fold takes from its inputs under the read lock. -/
structure FoldInput where
  generation : Nat
  /-- The inputs' numbers and death counts. -/
  snapshot : List (Nat × Nat)
  bytes : SegmentBytes

namespace World

/-- The number is claimed before anything is built. -/
def foldClaim (w : World) (durable : Bool) : World × Nat :=
  ({ w with inner := { w.inner with
      nextSegment := w.inner.nextSegment + 1
      metaDirty := w.inner.metaDirty || durable } }, w.inner.nextSegment)

/-- The inputs merged, or nothing where there is nothing worth rewriting. -/
def foldBuild (w : World) (which : List Nat) : Option FoldInput :=
  let segs := w.inner.segments.filter fun l => which.contains l.number
  if segs.length < 2 && segs.all (fun l => l.deadRows == 0) then none
  else
    some
      { generation := (segs.map (·.generation)).foldl max 0
        snapshot := segs.map fun l => (l.number, l.deaths)
        bytes := buildSorted (mergeRows segs) }

/-- The merged segment, written or kept in memory; none where no row is left. -/
def foldWrite (w : World) (number : Nat) (input : FoldInput) (durable : Bool) :
    Out (Option Live) :=
  if input.bytes.seg.names.isEmpty || input.bytes.alive.isEmpty then .ok w none
  else if durable then
    let (disk, live) := Live.write w.disk number input.generation input.bytes
    let w := { w with disk }
    match live with
    | none => .err w
    | some live => .ok w (some live)
  else
    match Live.fromBytes number input.generation input.bytes with
    | none => .err w
    | some live => .ok w (some live)

/-- Are the inputs as they were when they were merged? -/
def foldCurrent (w : World) (which : List Nat) (snapshot : List (Nat × Nat)) : Bool :=
  snapshot.length == which.length && snapshot.all fun s =>
    (w.inner.segment? s.1).any fun l => l.deaths == s.2

/-- Put the merged segment in the place of its inputs. -/
def foldPublish (w : World) (which : List Nat) (number : Nat) (snapshot : List (Nat × Nat))
    (folded : Option Live) (durable : Bool) : Out Bool :=
  if !w.foldCurrent which snapshot then
    -- publishing would bring a removed or replaced row back
    .ok (if durable then { w with disk := w.disk.erase number } else w) false
  else
    let w := { w with inner := w.inner.putFolded which number folded durable }
    if w.inner.metaDirty then w.saveMeta.bind fun w _ => .ok w true else .ok w true

/-- Is one of these segments marked by a walk? -/
def marked (w : World) (which : List Nat) : Bool := which.any fun n => (w.inner.seen n).isSome

/-- Fold these segments into one, dropping rows that are no longer live; says whether it did. -/
def foldTo (w : World) (which : List Nat) (durable : Bool) : Out Bool :=
  if w.marked which then .ok w false
  else
    let (w, number) := w.foldClaim durable
    match w.foldBuild which with
    | none => .ok w false
    | some input =>
        (w.foldWrite number input durable).bind fun w folded =>
          w.foldPublish which number input.snapshot folded durable

/-! ## Writing down what is only in memory -/

/-- The second half of `writeUnwritten`: the written copy takes the place of the one in memory. -/
def adoptWritten (w : World) (number deaths : Nat) (written : Live) : World :=
  match w.inner.segment? number with
  -- folded or emptied while it was being written
  | none => { w with disk := w.disk.erase number }
  | some live =>
      let written := written.adoptAlive live
      { w with inner := { w.inner with
          dirtyAlive := if live.deaths ≠ deaths then w.inner.dirtyAlive ++ [number]
            else w.inner.dirtyAlive
          segments := w.inner.segments.map fun l => if l.number = number then written else l
          unwritten := w.inner.unwritten.filter (· ≠ number)
          metaDirty := true } }

/-- Put one in-memory segment on disk under its own number. -/
def writeUnwritten (w : World) (number : Nat) : Out Unit :=
  match w.inner.segment? number with
  | none => .ok w ()
  | some live =>
      if !w.inner.unwritten.contains number then .ok w ()
      else
        let (disk, written) := Live.write w.disk number live.generation live.bytes
        let w := { w with disk }
        match written with
        | none => .err w
        | some written => .ok (w.adoptWritten number live.deaths written) ()

/-- `write_unwritten` for each number of a group. -/
def writeGroup (w : World) : List Nat → Out Unit
  | [] => .ok w ()
  | number :: rest => (w.writeUnwritten number).bind fun w _ => w.writeGroup rest

/-- One group: folded where a fold is allowed, each as it is where not. -/
def persistGroup (w : World) (group : List Nat) : Out Unit :=
  if 1 < group.length then
    (w.foldTo group true).bind fun w folded => if folded then .ok w () else w.writeGroup group
  else w.writeGroup group

def persistGroups (w : World) : List (List Nat) → Out Unit
  | [] => .ok w ()
  | group :: rest => (w.persistGroup group).bind fun w _ => w.persistGroups rest

/-- The end of a persist: the live bits, then the manifest. -/
def persistMeta (w : World) : Out Unit :=
  w.writeDirtyAlive.bind fun w _ => if w.inner.metaDirty then w.saveMeta else .ok w ()

/-- Write down what publishing kept in memory: every sync the index owes, at once. -/
def persistUnwritten (w : World) : Out Unit :=
  (w.persistGroups w.inner.unwrittenGroups).bind fun w _ => w.persistMeta

end World

end Scour
