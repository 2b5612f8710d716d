import Scour.Lib.Classes
import Scour.SizesBuilt

/-!
# The same file, several times over

Candidates are grouped by size, then by their first and last bytes, then compared in full, as long
as a budget of bytes to read lasts.

`Disk` is the files as they are read, `findNamed` the report.  Beside what the code keeps, a run
keeps the steps that read and the parts it puts the candidates into.
-/

namespace Scour.Dupes

open Search (Class entries)
open Sizes (saturatingSub)

/-! ## The file system -/

/-- A regular file. -/
structure File where
  dev : UInt64
  ino : UInt64
  bytes : Str
  /-- Whether it can be opened. -/
  opens : Bool
  /-- The bytes that cannot be read. -/
  bad : Nat → Bool
  fits : bytes.length < 2 ^ 63

def File.identity (f : File) : UInt64 × UInt64 := (f.dev, f.ino)

/-- The files that paths name. -/
structure Disk where
  file : Str → Option File
  one : ∀ {p q f g}, file p = some f → file q = some g → f.identity = g.identity → f = g

/-- Up to `n` bytes from `start` on: all there are, unless one of them cannot be read. -/
def File.read (f : File) (start n : Nat) : Option Str :=
  if (List.range' start (min n (f.bytes.length - start))).any f.bad then none
  else some ((f.bytes.drop start).take n)

namespace Disk

variable (d : Disk)

/-- `File::open`. -/
def open_ (p : Str) : Option File := (d.file p).filter fun f => f.opens

/-- Which file a name is. -/
def identity (p : Str) : Option (UInt64 × UInt64) := (d.file p).map File.identity

end Disk

/-! ## The code -/

/-- How much of each end is read in stage two. -/
def EDGE : Nat := 4 * 1024

/-- How much is moved per read while comparing. -/
def CHUNK : Nat := 64 * 1024

structure Options where
  minSize : UInt64
  readBudget : UInt64
  top : Nat

inductive Certainty where
  /-- Same size, nothing read. -/
  | size
  /-- Same size and the same ends. -/
  | edges
  /-- Read end to end and compared. -/
  | content
deriving DecidableEq

structure Group where
  size : UInt64
  paths : List Str
  certainty : Certainty
deriving DecidableEq

/-- What deleting all but one would give back. -/
def Group.waste (g : Group) : UInt64 := g.size * (UInt64.ofNat g.paths.length - 1)

structure Report where
  groups : List Group
  candidates : Nat
  waste : UInt64
  proven : UInt64
  read : UInt64
  unconfirmed : Nat

/-- A path, its size and its number of names. -/
structure Candidate where
  path : Str
  size : UInt64
  links : UInt64

/-- `u64::saturating_add`. -/
def saturatingAdd (a b : UInt64) : UInt64 := if a ≤ a + b then a + b else UInt64.ofNat (2 ^ 64 - 1)

namespace Fnv

def new : UInt64 := 0xcbf29ce484222325

def write (h : UInt64) (bytes : Str) : UInt64 :=
  bytes.foldl (fun h b => (h ^^^ b.toUInt64) * 0x100000001b3) h

end Fnv

/-- `u64::to_le_bytes`. -/
def toLeBytes (n : UInt64) : Str := (List.range 8).map fun i => (n.toNat / 256 ^ i).toUInt8

/-- One number from the first and last four kilobytes, and how much was read. -/
def edges (d : Disk) (path : Str) (size : UInt64) : Option (UInt64 × UInt64) :=
  match d.open_ path with
  | none => none
  | some f =>
      let h := Fnv.write Fnv.new (toLeBytes size)
      match f.read 0 EDGE with
      | none => none
      | some head =>
          let h := Fnv.write h head
          if EDGE * 2 < size.toNat then
            -- the end is sought from behind, and a shorter file has none
            if f.bytes.length < EDGE then none
            else match f.read (f.bytes.length - EDGE) EDGE with
              | none => none
              | some tail =>
                  some (Fnv.write h tail, UInt64.ofNat head.length + UInt64.ofNat tail.length)
          else some (h, UInt64.ofNat head.length)

/-- The bytes that `edges` takes from the file, also where it fails. -/
def edgesTook (d : Disk) (path : Str) (size : UInt64) : Nat :=
  match d.open_ path with
  | none => 0
  | some f =>
      match f.read 0 EDGE with
      | none => 0
      | some head =>
          if EDGE * 2 < size.toNat ∧ EDGE ≤ f.bytes.length then
            head.length + ((f.read (f.bytes.length - EDGE) EDGE).map List.length).getD 0
          else head.length

/-- The loop of `identical`, from one place in both files on. -/
def identicalFrom (a b : File) : Nat → Nat → Option Bool
  | 0, _ => none
  | fuel + 1, at_ =>
      match a.read at_ CHUNK with
      | none => none
      | some ba =>
          match b.read at_ CHUNK with
          | none => none
          | some bb =>
              if ba ≠ bb then some false
              else if ba.length = 0 then some true
              else identicalFrom a b fuel (at_ + ba.length)

/-- The bytes the loop takes from both files. -/
def identicalFromTook (a b : File) : Nat → Nat → Nat
  | 0, _ => 0
  | fuel + 1, at_ =>
      match a.read at_ CHUNK with
      | none => 0
      | some ba =>
          match b.read at_ CHUNK with
          | none => ba.length
          | some bb =>
              ba.length + bb.length +
                if ba ≠ bb ∨ ba.length = 0 then 0 else identicalFromTook a b fuel (at_ + ba.length)

/-- Byte for byte, stopping at the first difference. -/
def identical (d : Disk) (a b : Str) : Option Bool :=
  if a = b then some true
  else match d.open_ a, d.open_ b with
    | some fa, some fb => identicalFrom fa fb (fa.bytes.length + 1) 0
    | _, _ => none

def identicalTook (d : Disk) (a b : Str) : Nat :=
  if a = b then 0
  else match d.open_ a, d.open_ b with
    | some fa, some fb => identicalFromTook fa fb (fa.bytes.length + 1) 0
    | _, _ => 0

/-- A step that reads: what the code counts for it, and what it takes from the files. -/
structure Step where
  counted : UInt64
  took : Nat

/-- What has been read, and beside it the steps that read it. -/
structure Meter where
  read : UInt64
  steps : List Step

def Meter.add (m : Meter) (counted : UInt64) (took : Nat) : Meter :=
  ⟨m.read + counted, m.steps ++ [⟨counted, took⟩]⟩

def Meter.compare (m : Meter) (d : Disk) (first path : Str) (counted : UInt64) : Meter :=
  m.add counted (identicalTook d first path)

/-- A path held against one member of each class: the classes with it, or nothing where the budget
does not pay for the next comparison. -/
def place (d : Disk) (size budget : UInt64) (path : Str) :
    List (Class Str) → Meter → Option (List (Class Str)) × Meter
  | [], m => (some [⟨path, []⟩], m)
  | c :: rest, m =>
      if budget < saturatingAdd m.read (size * 2) then (none, m)
      else match identical d c.first path with
        | some true => (some (c.push path :: rest), m.compare d c.first path (size * 2))
        | some false =>
            -- parted early; a whole file's worth over-estimates
            let (classes, m) := place d size budget path rest (m.compare d c.first path size)
            (classes.map (c :: ·), m)
        -- unreadable: no class, and no new one either
        | none => (some (c :: rest), m.compare d c.first path 0)

/-- The loop of `partition`. -/
def partitionFrom (d : Disk) (size budget : UInt64) :
    List Str → List (Class Str) → Meter → List (Class Str) × List Str × Meter
  | [], classes, m => (classes, [], m)
  | path :: rest, classes, m =>
      match place d size budget path classes m with
      | (none, m) => (classes, path :: rest, m)
      | (some classes, m) => partitionFrom d size budget rest classes m

/-- These, sorted into classes that are identical byte for byte, what was not reached, and how much
was read. -/
def partition (d : Disk) (paths : List Str) (size budget : UInt64) :
    List (Class Str) × List Str × Meter :=
  partitionFrom d size budget paths [] ⟨0, []⟩

/-- The order in which a hash map gives what it has. -/
structure Hasher where
  order : ∀ {α : Type}, List (UInt64 × α) → List (UInt64 × α)
  perm : ∀ {α : Type} (m : List (UInt64 × α)), (order m).Perm m

/-- The loop that leaves one name of each file that has several. -/
def unlinked (d : Disk) : List (UInt64 × UInt64) → List (Str × UInt64) → List Str
  | _, [] => []
  | files, (p, links) :: named =>
      if links < 2 then p :: unlinked d files named
      else match d.identity p with
        | none => p :: unlinked d files named
        | some id =>
            if id ∈ files then unlinked d files named else p :: unlinked d (id :: files) named

/-- Names with their link counts, in order. -/
def namedLe (a b : Str × UInt64) : Prop := a.1 < b.1 ∨ a.1 = b.1 ∧ a.2 ≤ b.2

instance : DecidableRel namedLe := fun _ _ => inferInstanceAs (Decidable (_ ∨ _))

/-- The largest possible saving first, then by size, then by path. -/
def pendingLe (a b : UInt64 × List Str) : Prop :=
  let wa := a.1 * (UInt64.ofNat a.2.length - 1)
  let wb := b.1 * (UInt64.ofNat b.2.length - 1)
  wb < wa ∨ wa = wb ∧ (b.1 < a.1 ∨ a.1 = b.1 ∧ a.2.head?.getD [] ≤ b.2.head?.getD [])

instance : DecidableRel pendingLe := fun _ _ => inferInstanceAs (Decidable (_ ∨ _))

/-- Stage one: the paths of each size, without a byte read. -/
def pending (d : Disk) (h : Hasher) (files : List Candidate) (minSize : UInt64) :
    List (UInt64 × List Str) :=
  let bySize := entries ((files.filter fun c => ¬ c.size < minSize).map
    fun c => (c.size, (c.path, c.links)))
  (((((h.order bySize).filter fun e => 1 < e.2.length).map
    fun e => (e.1, unlinked d [] (e.2.insertionSort namedLe))).filter
      fun e => 1 < e.2.length)).insertionSort pendingLe

/-- Where stage two stands with the paths of one size. -/
structure Ends where
  files : List (UInt64 × UInt64)
  marks : List (UInt64 × Str)
  meter : Meter

/-- The ends of one file, which is dropped where they cannot be read. -/
def Ends.look (d : Disk) (size : UInt64) (e : Ends) (p : Str) : Ends :=
  let took := edgesTook d p size
  match edges d p size with
  | none => { e with meter := e.meter.add 0 took }
  | some (mark, n) => { e with marks := e.marks ++ [(mark, p)], meter := e.meter.add n took }

/-- One path in stage two: the first name stands for the file. -/
def Ends.next (d : Disk) (size : UInt64) (e : Ends) (p : Str) : Ends :=
  match d.identity p with
  | none => e.look d size p
  | some id => if id ∈ e.files then e else { e with files := id :: e.files }.look d size p

/-- What becomes of some of the candidates: kept beside what the code keeps. -/
inductive Part where
  /-- The budget does not pay for their ends. -/
  | unread (size : UInt64) (paths : List Str)
  /-- Of one size and with the same ends: the classes of those reached, and the rest. -/
  | parted (size : UInt64) (classes : List (Class Str)) (done left : List Str)

/-- Where a run stands. -/
structure Run where
  out : List Group
  unconfirmed : Nat
  meter : Meter
  parts : List Part

/-- Stage three, for files of one size with the same ends. -/
def Run.bucket (d : Disk) (budget size : UInt64) (r : Run) (same : List Str) : Run :=
  if same.length < 2 then r
  else
    let same := same.insertionSort (· ≤ ·)
    let (classes, left, m) := partition d same size (saturatingSub budget r.meter.read)
    let sure := (classes.filter fun c => 1 < c.members.length).map
      fun c => ⟨size, c.members, .content⟩
    let meter := ⟨r.meter.read + m.read, r.meter.steps ++ m.steps⟩
    let parts := r.parts ++ [.parted size classes (same.take (same.length - left.length)) left]
    -- what the budget did not reach still shares a size and its ends
    if 1 < left.length then
      ⟨r.out ++ sure ++ [⟨size, left, .edges⟩], r.unconfirmed + 1, meter, parts⟩
    else ⟨r.out ++ sure, r.unconfirmed, meter, parts⟩

/-- The files of one size. -/
def Run.group (d : Disk) (h : Hasher) (budget : UInt64) (r : Run) (e : UInt64 × List Str) : Run :=
  let size := e.1
  let paths := e.2.insertionSort (· ≤ ·)
  let ends := UInt64.ofNat paths.length * min size (UInt64.ofNat (2 * EDGE))
  if budget < saturatingAdd r.meter.read ends then
    ⟨r.out ++ [⟨size, paths, .size⟩], r.unconfirmed + 1, r.meter,
      r.parts ++ [.unread size paths]⟩
  else
    let looked := paths.foldl (Ends.next d size) ⟨[], [], r.meter⟩
    ((h.order (entries looked.marks)).map (·.2)).foldl (Run.bucket d budget size)
      { r with meter := looked.meter }

def run (d : Disk) (h : Hasher) (files : List Candidate) (o : Options) : Run :=
  (pending d h files o.minSize).foldl (Run.group d h o.readBudget) ⟨[], 0, ⟨0, []⟩, []⟩

/-- The largest saving first, then by size, then by path. -/
def groupLe (a b : Group) : Prop :=
  b.waste < a.waste ∨ a.waste = b.waste ∧
    (b.size < a.size ∨ a.size = b.size ∧ a.paths.head?.getD [] ≤ b.paths.head?.getD [])

instance : DecidableRel groupLe := fun _ _ => inferInstanceAs (Decidable (_ ∨ _))

/-- All groups, before the list is cut. -/
def groups (d : Disk) (h : Hasher) (files : List Candidate) (o : Options) : List Group :=
  (run d h files o).out.insertionSort groupLe

/-- Find them: told how many names each file has. -/
def findNamed (d : Disk) (h : Hasher) (files : List Candidate) (o : Options) : Report where
  groups := (groups d h files o).take o.top
  candidates := (files.filter fun c => ¬ c.size < o.minSize).length
  waste := ((groups d h files o).map Group.waste).sum
  proven := (((groups d h files o).filter fun g => g.certainty = .content).map Group.waste).sum
  read := (run d h files o).meter.read
  unconfirmed := (run d h files o).unconfirmed

end Scour.Dupes
