import Mathlib.Data.Prod.Lex
import Scour.DirBytes
import Scour.Ladder
import Scour.Reach

/-!
# The walk of one segment behind a search

`walk_segment` as a search with several segments to merge asks for it: the rows that may be on the
page, each with what it sorts by, and how many match.  `SegmentWalk` is what a walk is given and
what it decides before it starts; `visit` is the closure a row is handed to, in its three modes.

There are four ways over the rows: a stored order of names, extensions or paths read position by
position, the blocks of a numeric order best first (`bestFirst`), and the rows as they lie, forward
or backwards.

`select_nth_unstable` leaves what is before and behind the position it selects in any order; here
both are sorted.
-/

namespace Scour

/-! ## What rows are sorted by -/

inductive SortKey where
  | relevance | name | path | size | modified | created | accessed | ext | kind | mode | uid | gid
  | disk
deriving DecidableEq

/-- What a row sorts by, without its row being built. -/
inductive SortValue where
  | num (n : Int)
  /-- The first sixteen bytes as a number. -/
  | head (n : Nat)
  | text (t : Str)
deriving DecidableEq

namespace SortValue

/-- The derived order: by the variant, then by what it holds. -/
def rank : SortValue → Nat ×ₗ Int ×ₗ Nat ×ₗ Str
  | num n => toLex (0, toLex (n, toLex (0, [])))
  | head n => toLex (1, toLex (0, toLex (n, [])))
  | text t => toLex (2, toLex (0, toLex (0, t)))

theorem rank_injective : Function.Injective rank := by
  intro a b h
  cases a <;> cases b <;> simp_all [rank]

instance : LinearOrder SortValue := LinearOrder.lift' rank rank_injective

end SortValue

/-- The first sixteen bytes, big-endian, padded with zeroes. -/
def head (bytes : Str) : Nat :=
  (bytes.take 16 ++ List.replicate (16 - bytes.length) 0).foldl
    (fun v (b : UInt8) => v * 256 + b.toNat) 0

/-- Is this key exact, or only the beginning of one? -/
def keyIsExact (key : SortKey) : Bool := key ≠ .name ∧ key ≠ .ext

/-- A column of numbers: one the segment stores, or the kinds. -/
inductive Column where
  | stored (f : Field)
  | kind
deriving DecidableEq

namespace View

def column (v : View) (c : Column) (row : Nat) : Int :=
  match c with
  | .stored f => v.seg.num f row
  | .kind => v.kind row

/-- The least and the greatest value of one block of a column. -/
def columnRange (v : View) (c : Column) (block : Nat) : Option (Int × Int) :=
  match c with
  | .stored f => v.seg.blockRange f block
  | .kind => v.kindRange block

/-- The distance recorded for a directory, nothing where the table does not hold it. -/
def steps (v : View) (id : Nat) : UInt8 := ((v.seg.dirs.get id).map stepsOf).getD 0

end View

/-- The column a numeric order reads, when there is one. -/
def sortField : SortKey → Option Column
  | .size => some (.stored .size)
  | .modified => some (.stored .mtime)
  | .created => some (.stored .ctime)
  | .accessed => some (.stored .atime)
  | .disk => some (.stored .disk)
  | .mode => some (.stored .mode)
  | .uid => some (.stored .uid)
  | .gid => some (.stored .gid)
  | .kind => some .kind
  | .name | .ext | .path | .relevance => none

/-- What each directory row has under it, by row, sorted. -/
abbrev Folders := List (Nat × Int64)

/-- `binary_search_by_key`: the total listed for a row. -/
def Folders.find (folders : Folders) (row : Nat) : Option Int64 :=
  let i := Search.partitionPoint folders.length fun i => (folders[i]?).any (·.1 < row)
  (folders[i]?).bind fun f => if f.1 = row then some f.2 else none

/-- What a row is sorted by where a folder sorts by what is under it. -/
def folderSize (v : View) (folders : Folders) (row : Nat) : Int :=
  let own := v.seg.num .size row
  if v.seg.num .isDir row = 0 ∨ folders.isEmpty then own
  else ((folders.find row).map Int64.toInt).getD own

/-- `sort_value`; `name` is the row's folded name. -/
def sortValue (v : View) (row : Nat) (name : Str) (key : SortKey) (terms : List Str)
    (folders : Folders) : SortValue :=
  match key with
  | .path => .text (joinPath (v.seg.dirOf row) (v.seg.names.getD row []))
  | .relevance => .num (Ladder.relevance name terms (v.steps (v.seg.dirId row)))
  | .name => .head (head name)
  | .ext => .head (head (foldedExtension (v.seg.names.getD row []) name))
  | .size => .num (folderSize v folders row)
  | .modified => .num (v.seg.num .mtime row)
  | .created => .num (v.seg.num .ctime row)
  | .accessed => .num (v.seg.num .atime row)
  | .kind => .num (v.kind row)
  | .mode => .num (v.seg.num .mode row)
  | .uid => .num (v.seg.num .uid row)
  | .gid => .num (v.seg.num .gid row)
  | .disk => .num (v.seg.num .disk row)

/-! ## The stored orders -/

/-- The rows of a segment in path order. -/
structure PathOrder where
  order : List Nat

/-- The rows of a segment in the order of a text, and a bit for each position where a group of one
text begins. -/
structure GroupedOrder where
  order : List Nat
  groups : Str

/-- `PathOrder::at`: a row the segment does not hold is no row. -/
def rowAt (order : List Nat) (i : Nat) : Option Nat := (order[i]?).filter (· < order.length)

/-- `7 - leading_zeros`: the highest bit set. -/
def highBit (byte : UInt8) : Nat := byte.toNat.log2

/-- The start of the group containing position `i`, by scanning the boundary bytes. -/
def GroupedOrder.groupAtOrBefore (o : GroupedOrder) (i : Nat) : Option Nat :=
  if o.order.length ≤ i then none
  else
    let byte := i / 8
    let bit := i % 8
    let mask : UInt8 := if bit = 7 then 255 else (1 <<< UInt8.ofNat (bit + 1)) - 1
    let here := o.groups.getD byte 0 &&& mask
    if here ≠ 0 then some (byte * 8 + highBit here)
    else
      ((List.range byte).reverse.find? fun at_ => o.groups.getD at_ 0 != 0).map fun at_ =>
        at_ * 8 + highBit (o.groups.getD at_ 0)

/-- The positions of a descending walk: the groups from the end, each group forwards. -/
def GroupedOrder.downFrom (o : GroupedOrder) : Nat → Nat → List Nat
  | 0, _ => []
  | _ + 1, 0 => []
  | fuel + 1, stop + 1 =>
      match o.groupAtOrBefore stop with
      | none => []
      | some start => List.range' start (stop + 1 - start) ++ o.downFrom fuel start

/-- The order files a segment may have. -/
structure Orders where
  porder : Option PathOrder
  norder : Option GroupedOrder
  eorder : Option GroupedOrder

/-! ## The page -/

/-- What a search asks for, and what it is allowed to spend. -/
structure Wanted where
  sort : SortKey
  descending : Bool
  offset : Nat
  limit : Nat
  /-- Stop counting matches here. -/
  countCap : Nat

/-- A row that may be on the page, under what it sorts by. -/
abbrev Keyed := SortValue × Nat

/-- Whether a key comes strictly before another in the direction asked for. -/
def keyLt (desc : Bool) (a b : SortValue) : Prop := if desc then b < a else a < b

instance (desc : Bool) : DecidableRel (keyLt desc) := fun a b => by unfold keyLt; infer_instance

/-- The order a page is chosen in: the sort value, then the row. -/
def pageLe (desc : Bool) (a b : Keyed) : Prop := keyLt desc a.1 b.1 ∨ (a.1 = b.1 ∧ a.2 ≤ b.2)

instance (desc : Bool) : DecidableRel (pageLe desc) := fun a b => by unfold pageLe; infer_instance

/-- The rows that can still reach the page, given only their sort values.  Where the key is
abbreviated, the whole group that ties with the last of the page comes too. -/
def narrow (keyed : List Keyed) (need : Nat) (desc exact : Bool) : List Keyed :=
  if need = 0 then []
  else if keyed.length < need then keyed
  else
    let sorted := keyed.insertionSort (pageLe desc)
    if exact then sorted.take need
    else
      match sorted[need - 1]? with
      | none => sorted
      | some boundary => sorted.take need ++ (sorted.drop need).filter fun k => k.1 == boundary.1

/-- Can this row no longer reach the page, given the worst row the page holds? -/
def outOfPage (bar : Option Keyed) (key : SortValue) (row : Nat) (desc exact : Bool) : Bool :=
  match bar with
  -- no page yet, so nothing to be out of
  | none => false
  | some (held, at_) =>
      if keyLt desc key held then false
      else if keyLt desc held key then true
      else exact && at_ < row

/-- A sort value as the block order reads it: smaller is better. -/
def zoneKey (value : Int) (desc : Bool) : Int := if desc then -value - 1 else value

/-- What each block could contribute.  `folders` is what is left of the table from the last block
on. -/
def zoneReaches (v : View) (c : Column) (desc rollups : Bool) : List Nat → Folders → List (Int × Nat)
  | [], _ => []
  | block :: blocks, folders =>
      -- a block the header cannot describe reaches everything
      let (lo, hi) := (v.columnRange c block).getD (-2 ^ 63, 2 ^ 63 - 1)
      let start := block * BLOCK
      let folders := if rollups then folders.dropWhile (·.1 < start) else folders
      let inside := if rollups then folders.takeWhile (·.1 < start + BLOCK) else []
      let reach := inside.foldl
        (fun reach f => if desc then max reach f.2.toInt else min reach f.2.toInt)
        (if desc then hi else lo)
      (zoneKey reach desc, block) :: zoneReaches v c desc rollups blocks folders

/-- Reach first, block number to break it. -/
def reachLe (a b : Int × Nat) : Prop := a.1 < b.1 ∨ (a.1 = b.1 ∧ a.2 ≤ b.2)

instance : DecidableRel reachLe := fun a b => by unfold reachLe; infer_instance

/-- The candidate blocks in the order a numeric sort wants them, best first. -/
def zoneOrder (v : View) (c : Column) (desc : Bool) (blocks : List Nat) (folders : Folders) :
    List (Int × Nat) :=
  let rollups := c = .stored .size ∧ folders ≠ []
  (zoneReaches v c desc rollups blocks folders).insertionSort reachLe

/-- Is a block, and every later one, out of the reach of the page? -/
def outOfReach (worst : Option (Int × Nat)) (reach : Int) (block : Nat) : Bool :=
  match worst with
  | none => false
  | some (held, row) => held < reach ∨ (held = reach ∧ row < block * BLOCK)

/-- Adjacent blocks as row ranges. -/
def runsFrom (rows start last : Nat) : List Nat → List (Nat × Nat)
  | [] => [(start * BLOCK, min ((last + 1) * BLOCK) rows)]
  | block :: blocks =>
      if block = last + 1 then runsFrom rows start block blocks
      else (start * BLOCK, min ((last + 1) * BLOCK) rows) :: runsFrom rows block block blocks

def runsOf (rows : Nat) : List Nat → List (Nat × Nat)
  | [] => []
  | block :: blocks => runsFrom rows block block blocks

/-! ## The walk -/

/-- What `walk_segment` is given. -/
structure SegmentWalk (P : Platform) where
  seg : View
  orders : Orders
  plan : Plan P
  want : Wanted
  /-- A veto over rows that match but must not be shown. -/
  conceals : Option (Nat → Str → Bool)
  folders : Folders
  /-- With a number, a stored order is streamed even though the query reads names, for at most that
  many positions. -/
  named : Option Nat

/-- What the walk holds between two rows. -/
structure Walked where
  counted : Nat
  /-- The rows kept by an order that needs no selection, -/
  kept : List Nat
  /-- and by one that does. -/
  keyed : List Keyed
  /-- The worst row the page holds, as of the last trim. -/
  bar : Option Keyed
  trimAt : Nat
  /-- The same for the block order, where smaller is better. -/
  worst : Option (Int × Nat)
  /-- No unopened block can reach the page. -/
  closed : Bool
  /-- The date the page of a backwards walk ends on. -/
  edge : Option Int
  /-- `visit` has said stop. -/
  done : Bool

/-- A candidate row, ordered but not built. -/
structure Ranked where
  key : SortValue
  /-- What breaks a tie on the key. -/
  mtime : Int
  row : Nat
deriving DecidableEq

structure Found where
  ranked : List Ranked
  total : Nat
  capped : Bool
  earlyExit : Bool
deriving DecidableEq

namespace SegmentWalk

variable {P : Platform} (w : SegmentWalk P)

def need : Nat := w.want.offset + w.want.limit

/-- Are the names read by the query or by the veto? -/
def readsNames : Bool := w.conceals.isSome || w.plan.needsName

/-- The terms relevance scores against. -/
def scoreTerms : List Str :=
  if w.want.sort = .relevance then
    w.plan.clauses.filterMap fun c =>
      match c.alts with
      | [(false, .nameHas n)] => if n.isEmpty then none else some n
      | _ => none
  else []

/-- Is the row layout already the order asked for? -/
def storedForward : Bool :=
  (w.want.sort == .modified && w.want.descending) ||
    (w.want.sort == .relevance && w.scoreTerms.isEmpty)

def blocks : List Nat := blocksWorthOpening w.seg w.plan

/-- What every stored text order has to meet: a page, no names to read unless asked to, an order of
all the rows, and filters that did not narrow much. -/
def streams (sort : SortKey) (rows : Option Nat) : Bool :=
  w.want.sort == sort && 0 < w.need && (!w.plan.needsName || w.named.isSome) &&
    rows == some w.seg.rows && (w.seg.rows + (BLOCK - 1)) / BLOCK ≤ w.blocks.length * 2

def pathStream : Bool := w.streams .path (w.orders.porder.map (·.order.length))

def nameStream : Bool := w.streams .name (w.orders.norder.map (·.order.length))

def extensionStream : Bool := w.streams .ext (w.orders.eorder.map (·.order.length))

def textStream : Bool := w.nameStream || w.extensionStream

def positionStream : Bool := w.pathStream || w.textStream

/-- Does the sort read names, besides the query? -/
def sortReadsName : Bool :=
  !w.storedForward && !w.positionStream && (w.want.sort == .name || w.want.sort == .ext ||
    w.want.sort == .path)

def byRow : Bool := !w.plan.needsName && !w.conceals.isSome && !w.sortReadsName

/-- Oldest first is the same walk backwards. -/
def backwards : Bool := w.want.sort == .modified && !w.want.descending && w.byRow

def storedOrder : Bool := w.storedForward || w.backwards || w.positionStream

def exact : Bool := keyIsExact w.want.sort

/-- A number the rows are not stored in can still stop early. -/
def bounded : Bool := !w.storedOrder && 0 < w.need && (sortField w.want.sort).isSome

def sortValue (row : Nat) (name : Str) : SortValue :=
  Scour.sortValue w.seg row name w.want.sort w.scoreTerms w.folders

def start : Walked where
  counted := 0
  kept := []
  keyed := []
  bar := none
  trimAt := w.need
  worst := none
  closed := false
  edge := none
  done := false

/-- A matching row of the backwards walk.  Dates come in order and the rows of one date reversed, so
the walk runs to the end of the date the page ends on. -/
def visitBackwards (s : Walked) (row : Nat) : Walked :=
  let when_ := w.seg.mtime row
  if s.kept.length < w.need then
    { s with kept := s.kept ++ [row]
             edge := if s.kept.length + 1 = w.need then some when_ else s.edge }
  else if s.edge = some when_ then { s with kept := s.kept ++ [row] }
  else if w.want.countCap ≤ s.counted then { s with done := true }
  else s

/-- A matching row of an order that arrives sorted. -/
def visitStored (s : Walked) (row : Nat) : Walked :=
  let s := if s.kept.length < w.need then { s with kept := s.kept ++ [row] } else s
  -- enough rows for the page, and enough counted for the total to be honest
  if w.need ≤ s.kept.length ∧ w.want.countCap ≤ s.counted then { s with done := true } else s

/-- Keep a candidate, and cut back to a page's worth of them now and then. -/
def keep (s : Walked) (entry : Keyed) : Walked :=
  let keyed := s.keyed ++ [entry]
  if keyed.length < s.trimAt then { s with keyed := keyed }
  else
    let keyed := narrow keyed w.need w.want.descending w.exact
    let s := { s with keyed := keyed, trimAt := keyed.length * 2 }
    match keyed[w.need - 1]? with
    | none => s
    | some (key, at_) =>
        if w.bounded then
          match key with
          | .num v => { s with worst := some (zoneKey v w.want.descending, at_) }
          | _ => s
        else { s with bar := some (key, at_) }

/-- A matching row of any other order. -/
def visitKeyed (s : Walked) (row : Nat) (name : Str) : Walked :=
  if w.need = 0 then s
  else
    let key := w.sortValue row name
    if outOfPage s.bar key row w.want.descending w.exact then s else w.keep s (key, row)

/-- A row the query and the veto let through, once it is counted. -/
def take (s : Walked) (row : Nat) (name : Str) : Walked :=
  if w.backwards then w.visitBackwards s row
  else if w.storedOrder then w.visitStored s row
  else if !s.closed then w.visitKeyed s row name
  -- the page can no longer change and the total is believed
  else if w.want.countCap ≤ s.counted then { s with done := true }
  else s

/-- Does a row match, and may it be shown? -/
def shows (row : Nat) (name : Str) : Bool :=
  w.seg.isAlive row && w.plan.accepts w.seg row name &&
    !(w.conceals.any fun veto => veto row name)

/-- The closure every row is handed to. -/
def visit (s : Walked) (row : Nat) (name : Str) : Walked :=
  if w.shows row name then w.take { s with counted := s.counted + 1 } row name else s

/-- Rows one after the other, until `visit` says stop. -/
def visitAll (name : Nat → Str) : Walked → List Nat → Walked
  | s, [] => s
  | s, row :: rows =>
      let s := w.visit s row (name row)
      if s.done then s else visitAll name s rows

/-- `walk`: the rows of a range.  The folded names are read unless nothing asks for one. -/
def walkRange (s : Walked) (from_ stop : Nat) (rev : Bool) : Walked :=
  let rows := List.range' from_ (stop - from_)
  w.visitAll (fun row => if w.byRow then [] else w.seg.foldedName row) s
    (if rev then rows.reverse else rows)

/-- Ranges one after the other, until `visit` says stop. -/
def walkRuns (rev : Bool) : Walked → List (Nat × Nat) → Walked
  | s, [] => s
  | s, (from_, stop) :: runs =>
      let s := w.walkRange s from_ stop rev
      if s.done then s else walkRuns rev s runs

/-- Positions of a stored order one after the other; nothing when the tries run out. -/
def stream : Walked → Option Nat → List (Option Nat) → Option Walked
  | s, _, [] => some s
  | s, tries, row :: rows =>
      if tries = some 0 then none
      else
        let tries := tries.map (· - 1)
        match row with
        | none => stream s tries rows
        | some row =>
            let s := w.visit s row (if w.readsNames then w.seg.foldedName row else [])
            if s.done then some s else stream s tries rows

/-- The rows of a grouped order as a streamed walk reads them. -/
def groupedRows (o : GroupedOrder) : List (Option Nat) :=
  if w.want.descending then (o.downFrom o.order.length o.order.length).map (rowAt o.order)
  else (List.range o.order.length).map (rowAt o.order)

/-- The rows of the path order as a streamed walk reads them. -/
def pathRows (o : PathOrder) : List (Option Nat) :=
  let rows := (List.range o.order.length).map (rowAt o.order)
  if w.want.descending then rows.reverse else rows

def walkBlock (s : Walked) (block : Nat) : Walked :=
  w.walkRange s (block * BLOCK) (min ((block + 1) * BLOCK) w.seg.rows) false

/-- The blocks in the order of what they could contribute, until one is out of reach.  What is left
of them is handed back. -/
def walkOrdered : Walked → List (Int × Nat) → Walked × List Nat
  | s, [] => (s, [])
  | s, (reach, block) :: order =>
      if outOfReach s.worst reach block then (s, block :: order.map (·.2))
      else
        let s := w.walkBlock s block
        if s.done then (s, order.map (·.2)) else walkOrdered s order

/-- The blocks as they come until there is a page for one to be out of reach of, then in order. -/
def walkBest (c : Column) : Walked → List Nat → Walked × List Nat
  | s, [] => (s, [])
  | s, block :: blocks =>
      if s.worst.isSome then
        w.walkOrdered s (zoneOrder w.seg c w.want.descending (block :: blocks) w.folders)
      else
        let s := w.walkBlock s block
        if s.done then (s, blocks) else walkBest c s blocks

/-- Best block first, and what is left for the count alone.  Says whether a block was left
unopened. -/
def bestFirst (c : Column) : Walked × Bool :=
  let (s, left) := w.walkBest c w.start w.blocks
  if !s.done && s.counted < w.want.countCap then
    (w.walkRuns false { s with closed := true }
      (runsOf w.seg.rows (left.insertionSort (· ≤ ·))), false)
  else (s, !left.isEmpty)

/-- The rows as they lie, or from the far end. -/
def asTheyLie : Walked :=
  let runs := runsOf w.seg.rows w.blocks
  w.walkRuns w.backwards w.start (if w.backwards then runs.reverse else runs)

/-- The loops of `walk_segment`: the rows walked, and whether a block was left unopened. -/
def walkRows : Option (Walked × Bool) :=
  let grouped := (w.orders.norder.filter fun _ => w.nameStream).or
    (w.orders.eorder.filter fun _ => w.extensionStream)
  match grouped with
  | some o => (w.stream w.start w.named (w.groupedRows o)).map fun s => (s, false)
  | none =>
      match w.orders.porder.filter fun _ => w.pathStream with
      | some o => (w.stream w.start w.named (w.pathRows o)).map fun s => (s, false)
      | none =>
          match (sortField w.want.sort).filter fun _ => w.bounded with
          | some c => some (w.bestFirst c)
          | none => some (w.asTheyLie, false)

/-- The candidates, each with what it sorts by. -/
def ranked (s : Walked) : List Keyed :=
  if w.storedOrder then
    s.kept.map fun row =>
      (w.sortValue row (if w.textStream then w.seg.foldedName row else []), row)
  else narrow s.keyed w.need w.want.descending w.exact

/-- `walk_segment`, answering a caller with other segments to merge this one with. -/
def found : Option Found :=
  w.walkRows.map fun (s, skipped) =>
    { ranked := (w.ranked s).map fun (key, row) => ⟨key, w.seg.mtime row, row⟩
      total := min s.counted w.want.countCap
      capped := w.want.countCap ≤ s.counted
      earlyExit := s.done || skipped }

end SegmentWalk

/-- Positions a name-reading stream may look at per row the page and the count need. -/
def NAMED_STREAM_TRIES : Nat := 16

/-- The most of a segment such a stream may read before giving up, as a share. -/
def NAMED_STREAM_SHARE : Nat := 32

/-- The walk, a stored text order tried first where it can pay. -/
def runWith {P : Platform} (seg : View) (orders : Orders) (plan : Plan P) (want : Wanted)
    (conceals : Option (Nat → Str → Bool)) (folders : Folders) : Option Found :=
  let need := want.offset + want.limit
  let budget := max need want.countCap * NAMED_STREAM_TRIES
  let walk (named : Option Nat) : Option Found :=
    SegmentWalk.found ⟨seg, orders, plan, want, conceals, folders, named⟩
  if plan.needsName ∧ 0 < need ∧ (want.sort = .name ∨ want.sort = .path ∨ want.sort = .ext) ∧
      budget ≤ seg.rows / NAMED_STREAM_SHARE then
    (walk (some budget)).orElse fun _ => walk none
  else walk none

end Scour
