import Scour.Lib.SetBits
import Scour.Lib.Tally
import Scour.Usage

/-!
# What a folder weighs

`Prefix` is one segment's totals by directory number, built from its rows once and then corrected by
a list of the deaths since, and `Cache` holds one for each segment.  Sums wrap at 64 bits.

`World` is an index the cache is asked about while rows die and segments come and go, and `step` one
of these.
-/

namespace Scour

namespace Sizes

/-! ## The sums of one segment -/

/-- A row's share of what its blocks hold: `disk / links`. -/
def diskShare (v : View) (row : Nat) : UInt64 :=
  (max (v.numOf .disk row) 0).toUInt64 / (max (v.numOf .links row) 1).toUInt64

/-- `u64::saturating_sub`. -/
def saturatingSub (a b : UInt64) : UInt64 := if b ≤ a then a - b else 0

/-- One segment's totals, by directory number. -/
structure Prefix where
  /-- What the directories before each number hold, with one more at the end. -/
  disk : List UInt64
  files : List UInt32
  /-- What each directory row has under it, in row order. -/
  byRow : List (Nat × Int64)
  /-- Where each of those rows' subtree lies: its own number, then the run below. -/
  scopes : List (Nat × Nat × Nat)
  /-- The live bits as of the last look. -/
  seen : Str
  /-- Files dead since the build, by directory number, with what each held. -/
  gone : List (Nat × UInt64)
  goneDisk : List UInt64
  deaths : Nat
  rowsDeaths : Nat
  rowsReady : Bool

/-- A row counts when it is live and no directory. -/
def counted (v : View) (row : Nat) : Bool := v.isAlive row && v.seg.num .isDir row == 0

/-- Add one row to the directory it sits in. -/
def charge (v : View) (acc : List UInt64 × List UInt32) (row : Nat) : List UInt64 × List UInt32 :=
  if !v.isAlive row then acc
  else if v.seg.num .isDir row ≠ 0 then acc
  else if v.seg.dirs.paths.length ≤ v.seg.dirId row then acc
  else
    (acc.1.modify (v.seg.dirId row) (· + diskShare v row), acc.2.modify (v.seg.dirId row) (· + 1))

def rebuild (v : View) (deaths : Nat) : Prefix :=
  let n := v.seg.dirs.paths.length
  let own := (List.range v.rows).foldl (charge v)
    (List.replicate (n + 1) 0, List.replicate (n + 1) 0)
  -- shifted by one: what is before each place
  { disk := Search.sumsBefore 0 own.1
    files := Search.sumsBefore 0 own.2
    byRow := []
    scopes := []
    seen := v.alive
    gone := []
    goneDisk := [0]
    deaths
    rowsDeaths := deaths
    rowsReady := false }

/-! ## Deaths -/

/-- The rows live in `was` and dead in `now`: by words, then by the bytes after the last. -/
def died (was now : Str) : List Nat :=
  let words := min (was.length / 8) (now.length / 8)
  let tail := was.length / 8 * 8
  ((List.range words).flatMap fun at_ =>
    (Search.setBits 64 (leWord ((was.drop (at_ * 8)).take 8) &&&
      ~~~ leWord ((now.drop (at_ * 8)).take 8)).toNat).map (at_ * 64 + ·)) ++
  (((was.zip now).zipIdx).drop tail).flatMap fun p =>
    (Search.setBits 8 (p.1.1 &&& ~~~ p.1.2).toNat).map (p.2 * 8 + ·)

/-- A dead row's share, when it had one: files only, as the build counts. -/
def noteDeath (v : View) (n : Nat) (gone : List (Nat × UInt64)) (row : Nat) : List (Nat × UInt64) :=
  if v.rows ≤ row ∨ v.seg.num .isDir row ≠ 0 then gone
  else if n ≤ v.seg.dirId row then gone
  else gone ++ [(v.seg.dirId row, diskShare v row)]

/-- The sums of the list so far, from the first to the last. -/
def runs : UInt64 → List (Nat × UInt64) → List UInt64
  | run, [] => [run]
  | run, g :: rest => run :: runs (run + g.2) rest

/-- Catch up with the rows that died since the last look. -/
def Prefix.refresh (p : Prefix) (v : View) (deaths : Nat) : Prefix :=
  if deaths = p.deaths then p
  else if v.alive.length ≠ p.seen.length then rebuild v deaths
  else
    let gone := (died p.seen v.alive).foldl (noteDeath v (p.disk.length - 1)) p.gone
    -- past this the list costs more to consult than a build would
    if max (v.rows / 64) 1024 < gone.length then rebuild v deaths
    else if gone.length ≠ p.gone.length then
      let gone := gone.insertionSort fun a b => a.1 ≤ b.1
      { p with seen := v.alive, gone, goneDisk := runs 0 gone, deaths }
    else { p with seen := v.alive, deaths }

/-! ## Lookup -/

/-- What died since the build within directories `a..b`: bytes and files. -/
def Prefix.goneIn (p : Prefix) (a b : Nat) : UInt64 × Nat :=
  let i := Search.partitionPoint p.gone.length fun k => (p.gone[k]?).any (·.1 < a)
  let j := Search.partitionPoint p.gone.length fun k => (p.gone[k]?).any (·.1 < b)
  (p.goneDisk.getD j 0 - p.goneDisk.getD i 0, j - i)

/-- One run of directories, added to a total. -/
def Prefix.addRun (p : Prefix) (total : UInt64) (a b : Nat) : UInt64 :=
  let total := match p.disk[a]?, p.disk[b]? with
    | some x, some y => total + saturatingSub y x
    | _, _ => total
  saturatingSub total (p.goneIn a b).1

/-- And their files. -/
def Prefix.addFiles (p : Prefix) (total : UInt64) (a b : Nat) : UInt64 :=
  let total := match p.files[a]?, p.files[b]? with
    | some x, some y => total + (if x ≤ y then y - x else 0).toUInt64
    | _, _ => total
  saturatingSub total (UInt64.ofNat (p.goneIn a b).2)

/-- `u32::MAX`: a directory that has no number of its own. -/
def NO_NUMBER : Nat := 4294967295

/-- The total a directory row's scope holds now: the build's, less the dead. -/
def Prefix.scopeTotal (p : Prefix) (bounds : Nat × Nat × Nat) : Int64 :=
  let total := if bounds.1 ≠ NO_NUMBER then p.addRun 0 bounds.1 (bounds.1 + 1) else 0
  (p.addRun total bounds.2.1 bounds.2.2).toInt64

/-- This segment's share of one subtree: bytes on disk, and files. -/
def Prefix.subtree (p : Prefix) (v : View) (path : Str) : UInt64 × UInt64 :=
  let scope := v.seg.dirs.subtree path
  let disk := match scope.own with
    | some own => p.addRun 0 own (own + 1)
    | none => 0
  let files := match scope.own with
    | some own => p.addFiles 0 own (own + 1)
    | none => 0
  (p.addRun disk scope.below.1 scope.below.2, p.addFiles files scope.below.1 scope.below.2)

/-! ## The totals of the directory rows -/

/-- Small decode working set: a slot a number. -/
abbrev ParentPaths := List (Nat × Str)

def ParentPaths.default : ParentPaths := List.replicate 512 (NO_NUMBER, [])

/-- The path of a directory, and the slots with it. -/
def ParentPaths.get (slots : ParentPaths) (dirs : DirTable) (id : Nat) : Str × ParentPaths :=
  match slots[id % slots.length]? with
  | some (held, path) =>
    if held ≠ id then
      ((dirs.get id).getD [], slots.set (id % slots.length) (id, (dirs.get id).getD []))
    else (path, slots)
  | none => ([], slots)

/-- The bounds of the scope of a directory. -/
def bounds (dirs : DirTable) (path : Str) : Nat × Nat × Nat :=
  let scope := dirs.subtree path
  (scope.own.getD NO_NUMBER, scope.below.1, scope.below.2)

/-- One row of the table: nothing for a dead row, a file and a row without a name. -/
def buildRow (p : Prefix) (v : View) (acc : ParentPaths × List (Nat × Int64) × List (Nat × Nat × Nat))
    (row : Nat) : ParentPaths × List (Nat × Int64) × List (Nat × Nat × Nat) :=
  if !v.isAlive row || v.seg.num .isDir row == 0 then acc
  else match v.seg.names[row]? with
    | none => acc
    | some name =>
      let parent := acc.1.get v.seg.dirs (v.seg.dirId row)
      let b := bounds v.seg.dirs (joinPath parent.1 name)
      (parent.2, acc.2.1 ++ [(row, p.scopeTotal b)], acc.2.2 ++ [b])

/-- What each directory row has under it, for an order by size. -/
def Prefix.buildRows (p : Prefix) (v : View) : Prefix :=
  let built := (List.range v.rows).foldl (buildRow p v) (ParentPaths.default, [], [])
  { p with byRow := built.2.1, scopes := built.2.2, rowsReady := true, rowsDeaths := p.deaths }

/-- Bring the rows' totals up to the last look. -/
def Prefix.refreshRows (p : Prefix) : Prefix :=
  if !p.rowsReady || p.rowsDeaths == p.deaths then p
  else
    { p with
      byRow := (p.byRow.zip p.scopes).map fun e => (e.1.1, p.scopeTotal e.2)
      rowsDeaths := p.deaths }

/-! ## The cache -/

/-- An opened segment: what was written, its live bits and its death count. -/
structure Held where
  number : Nat
  deaths : Nat
  entries : List Entry
  alive : Str

def Held.view (P : Platform) (l : Held) : View := View.opened P (l.entries, l.alive)

/-- The prefix sums for every segment, by number. -/
abbrev Cache := List (Nat × Prefix)

namespace Cache

def get? (c : Cache) (number : Nat) : Option Prefix := (c.find? (·.1 == number)).map (·.2)

def insert (c : Cache) (number : Nat) (p : Prefix) : Cache :=
  (number, p) :: c.filter (·.1 != number)

/-- Bring one segment's sums up to date. -/
def entry (P : Platform) (c : Cache) (l : Held) : Prefix :=
  match c.get? l.number with
  | some p => p.refresh (l.view P) l.deaths
  | none => rebuild (l.view P) l.deaths

/-- What one segment adds to the answers. -/
def addSegment (P : Platform) (paths : List Str) (acc : Cache × List (UInt64 × UInt64)) (l : Held) :
    Cache × List (UInt64 × UInt64) :=
  let p := acc.1.entry P l
  (acc.1.insert l.number p,
    (acc.2.zip paths).map fun o =>
      (o.1.1 + (p.subtree (l.view P) o.2).1, o.1.2 + (p.subtree (l.view P) o.2).2))

/-- Bring the cache up to date, then answer for each path: bytes on disk and file count. -/
def subtrees (P : Platform) (c : Cache) (segments : List Held) (paths : List Str) :
    Cache × List (UInt64 × UInt64) :=
  segments.foldl (addSegment P paths)
    (c.filter fun e => segments.any (·.number == e.1), paths.map fun _ => (0, 0))

/-- Bring the rows' totals of one segment up to date. -/
def freshen (P : Platform) (c : Cache) (l : Held) : Cache :=
  match c.get? l.number with
  | none => c
  | some p =>
    let p := p.refresh (l.view P) l.deaths
    c.insert l.number (if p.rowsReady then p.refreshRows else p.buildRows (l.view P))

/-- Bring every table already built up to date.  Never builds one. -/
def freshRows (P : Platform) (c : Cache) (segments : List Held) : Cache :=
  segments.foldl (freshen P) c

/-- What each directory row has under it. -/
def rowsOf (c : Cache) (number : Nat) : Option (List (Nat × Int64)) := (c.get? number).map (·.byRow)

end Cache

/-! ## The index around it -/

/-- Clear a row's live bit; says how many rows died. -/
def kill (l : Held) (row : Nat) : Held :=
  if l.entries.length ≤ row then l
  else
    { l with
      alive := l.alive.modify (row / 8) (· &&& ~~~ (1 <<< UInt8.ofNat (row % 8)))
      deaths := l.deaths + (match l.alive[row / 8]? with
        | some byte => (byte &&& (1 <<< UInt8.ofNat (row % 8)) != 0).toNat
        | none => 0) }

structure World where
  segments : List Held
  cache : Cache
  /-- The numbers given out: none is given twice. -/
  used : List Nat

inductive Act where
  | kill (number row : Nat)
  | open_ (number : Nat) (entries : List Entry) (alive : Str)
  | retire (number : Nat)
  | subtrees (paths : List Str)
  | freshRows

variable (P : Platform)

def step (w : World) : Act → Option World
  | .kill number row =>
    some { w with segments := w.segments.map fun l => if l.number = number then kill l row else l }
  | .open_ number entries alive =>
    -- a file counts its rows in 32 bits, and a bitmap of the wrong length is refused
    if number ∉ w.used ∧ entries.length < 2 ^ 32 ∧ alive.length = (entries.length + 7) / 8 then
      some
        { w with
          segments := w.segments ++ [⟨number, 0, entries, alive⟩]
          used := number :: w.used }
    else none
  | .retire number => some { w with segments := w.segments.filter (·.number != number) }
  | .subtrees paths => some { w with cache := (w.cache.subtrees P w.segments paths).1 }
  | .freshRows => some { w with cache := w.cache.freshRows P w.segments }

end Sizes

end Scour
