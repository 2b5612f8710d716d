import Scour.Index

/-!
# The flush

`flushPrepare` is everything a flush does except building and writing the segment: removals first,
then what the walk found unchanged, then the old rows of what is being written again.  Its steps
are functions of their own here, in the order it takes them.
-/

namespace Scour

/-- `mark |= bits`, the shorter one extended. -/
def orBits : List Bool → List Bool → List Bool
  | [], b => b
  | a, [] => a
  | x :: a, y :: b => (x || y) :: orBits a b

namespace Inner

/-! ## What the index already holds -/

/-- One segment's share of `spareUnchanged`: entries to drop, marks, what is decided. -/
def spareIn (staged : List Entry) (keys : List (UInt32 × Nat))
    (acc : List Bool × List Nat × List (Nat × List Bool)) (live : Live) :
    List Bool × List Nat × List (Nat × List Bool) :=
  let (decided, drop, marks) := acc
  let (decided, hits) := live.sparePaths keys staged decided
  if hits.isEmpty then (decided, drop, marks)
  else
    let bits := hits.foldl (fun bits hit => bits.set hit.2 true) (List.replicate live.rows false)
    (decided, drop ++ hits.map (·.1), marks ++ [(live.number, bits)])

/-- Take out of the batch every entry the index already holds, exactly as it is. -/
def spareUnchanged (inner : Inner) : Inner :=
  -- only inside a generation: outside one nothing needs the mark
  if inner.opened.isNone || inner.staged.isEmpty || inner.segments.isEmpty then inner
  else
    let keys := (inner.staged.zipIdx.map fun (e, i) => (keyOf e.source e.path.bytes, i)).insertionSort
      idLe
    let (_, drop, marks) := inner.segments.foldl (spareIn inner.staged keys)
      (List.replicate inner.staged.length false, [], [])
    if drop.isEmpty then inner
    else
      let staged := (inner.staged.zipIdx.filter fun p => !drop.contains p.2).map (·.1)
      { inner with
        seen := marks.foldl (fun seen (number, bits) => fun n =>
          if n = number then some (orBits ((seen n).getD []) bits) else seen n) inner.seen
        staged
        -- rebuilt: a stale one would have a later upsert overwrite an unrelated entry
        stagedAt := slotsOf staged
        spared := inner.spared + drop.length }

/-! ## What leaves with the flush -/

/-- The staged rows, the bitmaps and the removals lifted out, and the segments left empty forgotten;
returns their numbers. -/
def liftOut (inner : Inner) (discretionary durable : Bool) (touched : List Nat) :
    Inner × Pending × List Nat :=
  let (inner, staged) :=
    -- a buffer that emptied itself has nothing to flush
    if discretionary && inner.staged.length < MAX_STAGED then (inner, none)
    else inner.takeStaged durable
  let inner := { inner with dirtyAlive := inner.dirtyAlive ++ touched }
  let (inner, alive) := inner.takeDirtyAlive
  let prefixes := inner.hiddenPrefixes
  let inner := { inner with hiddenPrefixes := .empty }
  let (inner, gone) := inner.forgetEmpty
  (inner, ⟨staged, alive, prefixes⟩, gone)

end Inner

/-! ## Removals and replacements -/

/-- A flight carries the removals and applies them the moment it lands. -/
def Flight.bury (prefixes : PrefixSet) (f : Flight) : Flight :=
  { f with gone := f.gone.extend prefixes.paths }

/-- A path written again while a segment holding it is still being written. -/
def Flight.condemn (wanted : List Live.Wanted) (f : Flight) : Flight :=
  { f with doomed :=
      f.doomed ++ wanted.filter fun x => f.paths.contains (pathDigest x.2.1 x.2.2) }

/-- Its bitmaps are taken care of: `alive.clear()`. -/
def Pending.bare (p : Pending) : Pending := { p with alive := [] }

namespace World

/-- The pending removals, done to every segment, to every flight and to what is staged.  Returns
the numbers of the segments that lost a row. -/
def killHidden (w : World) : World × List Nat :=
  let prefixes := w.inner.hiddenPrefixes
  if prefixes.isEmpty then (w, [])
  else
    let killed := w.inner.segments.map fun l => l.killHidden prefixes w.inner.sources
    ({ w with
        inner := { w.inner with
          segments := killed.map (·.1)
          staged := w.inner.staged.filter fun e => !prefixes.covers e.path.bytes }
        building := { w.building with
          flights := w.building.flights.map (Flight.bury prefixes) } },
      (killed.filter fun p => 0 < p.2).map (·.1.number))

/-- The identities staged, sorted by key. -/
def wantedOf (staged : List Entry) : List Live.Wanted :=
  (staged.map fun e => (keyOf e.source e.path.bytes, e.source, e.path.bytes)).insertionSort
    fun a b => a.1 ≤ b.1

/-- The old row of everything being upserted again, in every segment and every flight. -/
def killReplaced (w : World) : World × List Nat :=
  let wanted := wantedOf w.inner.staged
  let killed := w.inner.segments.map fun l => l.killPaths wanted
  ({ w with
      inner := { w.inner with segments := killed.map (·.1) }
      building := { w.building with
        flights := w.building.flights.map (Flight.condemn wanted) } },
    (killed.filter fun p => 0 < p.2).map (·.1.number))

/-! ## The flush -/

/-- The end of `flushPrepare`, once the rows are killed in memory. -/
def flushTake (w : World) (discretionary durable : Bool) (touched : List Nat) : Out Pending :=
  let (inner, pending, gone) := w.inner.liftOut discretionary durable touched
  let w := { w with inner }
  let saved : Out Unit := if durable && inner.metaDirty then w.saveMeta else .ok w ()
  match saved.val with
  | none => .err (saved.world.restore pending)
  -- a segment swept empty is both touched and gone
  | some () => .ok saved.world
      { pending with alive := pending.alive.filter fun p => !gone.contains p.1 }

/-- A flush once the finished builds are in. -/
def flushStaged (w : World) (discretionary durable : Bool) : Out Pending :=
  if w.inner.staged.isEmpty && w.inner.hiddenPrefixes.isEmpty && w.inner.dirtyAlive.isEmpty then
    if durable && w.inner.metaDirty then w.saveMeta.bind fun w _ => .ok w .default
    else .ok w .default
  else
    let (w, touched) := w.killHidden
    let w := { w with inner := w.inner.spareUnchanged }
    let (w, touched') := w.killReplaced
    w.flushTake discretionary durable (touched ++ touched')

/-- Everything a flush does except building and writing the segment. -/
def flushPrepare (w : World) (discretionary durable : Bool) : Out Pending :=
  w.collect.bind fun w _ => w.flushStaged discretionary durable

/-- A written segment takes its place in the list. -/
def installWritten (w : World) (live : Live) : World :=
  { w with inner := { (w.inner.install live) with metaDirty := true } }

/-- Hand the rows to another thread. -/
def takeOff (w : World) (number generation : Nat) (staged : List Entry) : Out Unit :=
  let flight : Flight := ⟨number, staged.map Entry.digest, [], .empty⟩
  let (failed, disk) := w.disk.fault
  let w := { w with disk }
  -- no thread to be had
  if failed then
    .err { w with building := { w.building with
      flights := w.building.flights.filter (·.number ≠ number) } }
  else
    .ok { w with building := { w.building with
      flights := w.building.flights ++ [flight]
      jobs := w.building.jobs ++ [⟨number, generation, staged⟩] } } ()

/-- Turn everything staged and hidden into files.  `elsewhere` says this flush happens because a
buffer filled up. -/
def flushMaybeElsewhere (w : World) (elsewhere : Bool) : Out Unit :=
  (w.flushPrepare elsewhere true).bind fun w pending =>
    let (disk, ok) := writeAlive w.disk pending.alive
    let w := { w with disk }
    if !ok then .err (w.restore pending)
    else
      match pending.staged with
      | none => .ok w ()
      | some (number, generation, staged) =>
          -- past `MAX_BUILDING` the caller builds it itself
          if !elsewhere || MAX_BUILDING ≤ w.building.flights.length then
            let (disk, live) := Live.write w.disk number generation (build staged)
            let w := { w with disk }
            match live with
            | none => .err (w.restore pending)
            | some live => (w.installWritten live).saveMeta
          else w.takeOff number generation staged

def flush (w : World) : Out Unit := w.flushMaybeElsewhere false

/-! ## Publishing -/

/-- Killed in memory: the bitmaps are written with the next persist. -/
def oweAlive (w : World) (pending : Pending) : World :=
  { w with inner := { w.inner with
    dirtyAlive := w.inner.dirtyAlive ++ pending.alive.map (·.1) } }

/-- The first half of a publish: the rows lifted out, the bitmaps left for the next persist. -/
def publishPrepare (w : World) : Out Pending :=
  (w.flushPrepare false false).bind fun w pending =>
    .ok (w.oweAlive pending) pending.bare

/-- The second half: the rows become a segment in memory. -/
def publishInstall (w : World) (pending : Pending) : Out Unit :=
  match pending.staged with
  | none => .ok w ()
  | some (number, generation, staged) =>
      match Live.fromBytes number generation (build staged) with
      | none => .err (w.restore pending)
      | some live =>
          let inner := { w.inner with nextSegment := max w.inner.nextSegment (number + 1) }
          let inner := inner.install live
          .ok { w with inner := { inner with unwritten := inner.unwritten ++ [number] } } ()

/-- A publish by a caller already holding the lock. -/
def publishLocked (w : World) : Out Unit := w.publishPrepare.bind publishInstall

/-- A commit that stops short of the disk. -/
def publishNow (w : World) : Out Unit := w.settle.bind fun w _ => w.publishLocked

end World

end Scour
