import Mathlib.Data.Nat.Size
import Scour.Lib.Packed
import Scour.Segment

/-!
# The numbers, in columns

Fourteen values an entry, one column at a time in blocks of `BLOCK` rows, each packed against its own
minimum.  `ColumnWriter` makes the file as rows arrive, `ColumnBlocks` reads it in place.
-/

namespace Scour.Columns

open Search

/-- The columns, in the order of the file. -/
inductive Field where
  | dirId | size | mtime | ctime | atime | mode | uid | gid | disk | items | kind | isDir | source
  | links
deriving DecidableEq

namespace Field

def all : List Field :=
  [.dirId, .size, .mtime, .ctime, .atime, .mode, .uid, .gid, .disk, .items, .kind, .isDir, .source,
    .links]

def index : Field → ℕ
  | .dirId => 0 | .size => 1 | .mtime => 2 | .ctime => 3 | .atime => 4 | .mode => 5 | .uid => 6
  | .gid => 7 | .disk => 8 | .items => 9 | .kind => 10 | .isDir => 11 | .links => 13 | .source => 12

end Field

abbrev Row := Field → Int64

/-! ## Writing -/

/-- `iter().min()` of what follows a first value. -/
def minOf (v : Int64) (vs : List Int64) : Int64 := vs.foldl (fun a b => if b < a then b else a) v

def maxOf (v : Int64) (vs : List Int64) : Int64 := vs.foldl (fun a b => if a < b then b else a) v

/-- `v.wrapping_sub(min) as u64` -/
def above (min v : Int64) : ℕ := (v - min).toUInt64.toNat

/-- The smallest value, and how many bits hold every value once it is subtracted. -/
def widthFor (vals : List Int64) : Int64 × ℕ :=
  match vals with
  | [] => (0, 0)
  | v :: vs => (minOf v vs, (((v :: vs).map (above (minOf v vs))).foldl max 0).size)

def i64Le (v : Int64) : Str := toLe 8 v.toUInt64.toNat

/-- Eight bytes of minimum, eight of maximum, one of width, and the values. -/
def encodeBlock (vals : List Int64) : Str :=
  let (min, bits) := widthFor vals
  let max := match vals with
    | [] => min
    | v :: vs => maxOf v vs
  i64Le min ++ i64Le max ++ UInt8.ofNat bits :: pack bits (vals.map (above min))

structure ColumnWriter where
  /-- The block being filled. -/
  pending : List Row
  /-- Encoded blocks and their offsets, of each column. -/
  blocks : Field → Str
  offsets : Field → List UInt32
  rows : ℕ

namespace ColumnWriter

def new : ColumnWriter := ⟨[], fun _ => [], fun _ => [], 0⟩

/-- The pending rows go into every column. -/
def sealBlock (w : ColumnWriter) : ColumnWriter :=
  if w.pending = [] then w
  else
    { w with
      pending := []
      blocks := fun c => w.blocks c ++ encodeBlock (w.pending.map (· c))
      offsets := fun c => w.offsets c ++ [UInt32.ofNat (w.blocks c).length] }

def push (w : ColumnWriter) (row : Row) : ColumnWriter :=
  let w := { w with pending := w.pending ++ [row], rows := w.rows + 1 }
  if w.pending.length = BLOCK then w.sealBlock else w

def bodyLen (w : ColumnWriter) (c : Field) : ℕ := 4 + (w.offsets c).length * 4 + (w.blocks c).length

/-- Where each column's section starts. -/
def table (w : ColumnWriter) : List Field → ℕ → Str
  | [], _ => []
  | c :: cs, at_ => toLe 8 at_ ++ table w cs (at_ + w.bodyLen c)

/-- The number of blocks, the offset of each, and the blocks. -/
def body (w : ColumnWriter) (c : Field) : Str :=
  toLe 4 (w.offsets c).length ++ (w.offsets c).flatMap (fun o => toLe 4 o.toNat) ++ w.blocks c

def finish (w : ColumnWriter) : Str :=
  let w := w.sealBlock
  let header := 8 + Field.all.length * 8
  toLe 4 w.rows ++ toLe 4 Field.all.length ++ w.table Field.all header ++ Field.all.flatMap w.body

end ColumnWriter

/-- The file of a sequence of rows. -/
def write (rows : List Row) : Str := (rows.foldl ColumnWriter.push .new).finish

/-! ## Reading -/

structure ColumnBlocks where
  rows : ℕ
  offsets : Str
  bytes : Str

namespace ColumnBlocks

def open_ (bytes : Str) : Option ColumnBlocks := do
  if bytes.length < 8 then none
  let rows := fromLe (← slice bytes 0 4)
  let cols := fromLe (← slice bytes 4 8)
  if cols ≠ Field.all.length ∨ bytes.length < 8 + cols * 8 then none
  some ⟨rows, ← slice bytes 8 (8 + cols * 8), bytes⟩

def i64FromLe (s : Str) : Int64 := (UInt64.ofNat (fromLe s)).toInt64

/-- Where a block of a column starts. -/
def blockAt (b : ColumnBlocks) (field : Field) (block : ℕ) : Option ℕ := do
  let at_ := field.index * 8
  let section_ := fromLe (← slice b.offsets at_ (at_ + 8))
  let n := fromLe (← slice b.bytes section_ (section_ + 4))
  if n ≤ block then none
  let idx := section_ + 4 + block * 4
  let start := fromLe (← slice b.bytes idx (idx + 4))
  some (section_ + 4 + n * 4 + start)

/-- One value. -/
def get (b : ColumnBlocks) (field : Field) (row : ℕ) : Option Int64 := do
  if b.rows ≤ row then none
  let at_ ← b.blockAt field (row / BLOCK)
  let min := i64FromLe (← slice b.bytes at_ (at_ + 8))
  let bits ← b.bytes[at_ + 16]?
  if b.bytes.length < at_ + 17 then none
  let raw ← unpackOne (b.bytes.drop (at_ + 17)) bits.toNat (row % BLOCK)
  some (min + (UInt64.ofNat raw).toInt64)

/-- The range of values a block holds. -/
def blockRange (b : ColumnBlocks) (field : Field) (block : ℕ) : Option (Int64 × Int64) := do
  let at_ ← b.blockAt field block
  let min := i64FromLe (← slice b.bytes at_ (at_ + 8))
  let max := i64FromLe (← slice b.bytes (at_ + 8) (at_ + 16))
  some (min, max)

end ColumnBlocks

end Scour.Columns
