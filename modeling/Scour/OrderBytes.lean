import Scour.DirBytes
import Scour.Lib.Places
import Scour.StoredOrders

/-!
# The order files, as bytes

Each order file is built from what a segment holds in memory: the names of all rows behind one
another, each with a NUL, and the directory table.  A file is a count, a row number for each
position, and in a grouped order a bit for each position as well.
-/

namespace Scour

open Search (toLe fromLe slice)

namespace OrderBytes

/-! ## Names in an arena -/

/-- Where each name begins, and where the last one read ends; an arena that is short leaves off. -/
def offsetsLoop (names : Str) : ℕ → ℕ → List UInt32 × ℕ
  | 0, cursor => ([], cursor)
  | rows + 1, cursor =>
    match (names.drop cursor).idxOf? 0 with
    | some n =>
        let (more, end_) := offsetsLoop names rows (cursor + (n + 1))
        (UInt32.ofNat cursor :: more, end_)
    | none => ([UInt32.ofNat cursor], cursor)

/-- `name_offsets`: one more than there are names. -/
def nameOffsets (rows : ℕ) (names : Str) : List UInt32 :=
  let (at_, cursor) := offsetsLoop names rows 0
  at_ ++ List.replicate (rows - at_.length) (UInt32.ofNat cursor) ++ [UInt32.ofNat cursor]

/-- `slice.get(a..b).unwrap_or_default()` -/
def part (s : Str) (a b : ℕ) : Str := (slice s a b).getD []

/-- The name of a row, without its NUL. -/
def nameOf (at_ : List UInt32) (names : Str) (row : ℕ) : Str :=
  part names (at_.getD row 0).toNat ((at_.getD (row + 1) 0).toNat - 1)

/-! ## The path order -/

end OrderBytes

/-- The rows of a table, flattened with their separators, until one cannot be read.
`String::truncate` panics inside a character. -/
def RawTable.prefixLoop (r : RawTable) : ℕ → ℕ → Str → Str × List UInt32 → Option (Str × List UInt32)
  | 0, _, _, out => some out
  | n + 1, at_, path, out =>
    match r.nextRow at_ with
    | none => some out
    | some (next, shared, bytes) =>
        if !isCharBoundary path shared && shared ≤ path.length then none
        else match fromUtf8 bytes with
          | none => some out
          | some _ =>
              let path := path.take shared ++ bytes
              r.prefixLoop n next path
                (out.1 ++ path ++ (if path ≠ [] ∧ path ≠ [slash] then [slash] else []),
                  out.2 ++ [UInt32.ofNat out.1.length])

/-- What every row's name is appended to, and where each begins. -/
def RawTable.joinPrefixes (r : RawTable) : Option (Str × List UInt32) :=
  (r.prefixLoop r.count ((r.restartAt 0).getD 0) [] ([], [])).map fun (out, offsets) =>
    (out, offsets ++ List.replicate (r.count - offsets.length) (UInt32.ofNat out.length) ++
      [UInt32.ofNat out.length])

namespace OrderBytes

/-- What a row's name is appended to. -/
def headOf (heads : Str) (at_ : List UInt32) (dir : ℕ) : Str :=
  match at_[dir]?, at_[dir + 1]? with
  | some a, some b => part heads a.toNat b.toNat
  | _, _ => []

/-- `order::build` -/
def pathOrder (table : RawTable) (dirOf : List ℕ) (names : Str) : Option Str :=
  table.joinPrefixes.map fun (heads, headAt) =>
    let rows := dirOf.length
    let nameAt := nameOffsets rows names
    let head (row : ℕ) : Str := headOf heads headAt (dirOf.getD row 0)
    let name (row : ℕ) : Str := nameOf nameAt names row
    let order := (List.range (rows % 2 ^ 32)).insertionSort fun a b =>
      joinedLt (head a) (name a) (head b) (name b) ∨
        (¬ joinedLt (head b) (name b) (head a) (name a) ∧ a ≤ b)
    toLe 4 rows ++ order.flatMap (toLe 4)

/-! ## The grouped orders -/

/-- The text a row is sorted by: a clear bit in `eligible` gives an empty one. -/
def valueOf (names : Str) (at_ : List UInt32) (key : Str → Str) (eligible : Option Str) (row : ℕ) :
    Str :=
  if eligible.all (bitAt · row) then key (nameOf at_ names row) else []

/-- `build_keyed`, for rows that 32 bits count. -/
def keyedOrder (rows : ℕ) (names : Str) (key : Str → Str) (eligible : Option Str) : Str :=
  let o := GroupedOrder.build rows (valueOf names (nameOffsets rows names) key eligible)
  toLe 4 rows ++ o.order.flatMap (toLe 4) ++ o.groups

/-- `name_order::build_reusing` -/
def nameOrder (rows : ℕ) (folded : Str) : Str := keyedOrder rows folded id none

/-- The bits of the rows whose spelling has an extension, as far as the arena goes. -/
def eligibleLoop (names : Str) : ℕ → ℕ → ℕ → Str → Str
  | 0, _, _, bits => bits
  | n + 1, row, cursor, bits =>
    if names.length < cursor then bits
    else match (names.drop cursor).idxOf? 0 with
      | none => bits
      | some end_ =>
          eligibleLoop names n (row + 1) (cursor + end_ + 1)
            (if extensionIsEligible ((names.drop cursor).take end_) then markBit bits row else bits)

def eligibleRows (rows : ℕ) (names : Str) : Str :=
  eligibleLoop names rows 0 0 (List.replicate ((rows + 7) / 8) 0)

/-- `extension_order::build` -/
def extensionOrder (rows : ℕ) (spelled folded : Str) : Str :=
  keyedOrder rows folded extension (some (eligibleRows rows spelled))

/-! ## Reading -/

/-- The row numbers of a file. -/
def words (bytes : Str) (n : ℕ) : List ℕ :=
  (List.range n).map fun i => fromLe ((bytes.drop (i * 4)).take 4)

end OrderBytes

open OrderBytes

/-- A path order is refused where its length is not exact. -/
def PathOrder.open_ (bytes : Str) : Option PathOrder := do
  let rows := fromLe (← slice bytes 0 4)
  if bytes.length ≠ 4 + rows * 4 then none
  some ⟨words (bytes.drop 4) rows⟩

/-- A grouped order also where its first position begins no group. -/
def GroupedOrder.open_ (bytes : Str) : Option GroupedOrder := do
  let rows := fromLe (← slice bytes 0 4)
  let end_ := 4 + rows * 4 + (rows + 7) / 8
  if bytes.length ≠ end_ then none
  let groups := bytes.drop (4 + rows * 4)
  if 0 < rows ∧ groups.head?.all (· &&& 1 = 0) then none
  some ⟨words (bytes.drop 4) rows, groups⟩

end Scour
