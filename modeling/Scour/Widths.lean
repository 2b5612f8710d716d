import Mathlib.Algebra.Order.BigOperators.Group.List
import Mathlib.Algebra.Order.Ring.Nat
import Scour.Path

/-!
# How wide the columns are

`layOut` gives every column on screen a width, so that the widths add up to the room there is, and
`fitTo` moves room from a column that is wider than its text to one that is cutting it.  The numbers
are the source's `u32`: `u32` and `minus` are its checked sums, products and differences, and `none` is
an overflow.  A loop gets as many rounds as there are pixels to move, and one.

The source's index lists are in ascending order, so a loop over one is a loop over the cells of the
row that a test picks, with the last of them told by there being no other behind it.
-/

namespace Scour.Widths

/-- What a column asks for; what is drawn in it is left out. -/
structure Column where
  id : Str
  width : ℕ
  min : ℕ
  /-- Its share of the stretching room, in percent, in a narrow window and in a wide one. -/
  near : ℕ
  far : ℕ
  max : ℕ
deriving DecidableEq

def COLUMNS : List Column :=
  [⟨str "name", 240, 110, 52, 30, 520⟩,
   ⟨str "kind", 110, 68, 0, 0, 0⟩,
   ⟨str "path", 320, 120, 48, 70, 0⟩,
   ⟨str "mtime", 120, 100, 0, 0, 0⟩,
   ⟨str "size", 90, 68, 0, 0, 0⟩,
   ⟨str "ext", 80, 56, 0, 0, 0⟩,
   ⟨str "ctime", 120, 100, 0, 0, 0⟩,
   ⟨str "atime", 120, 100, 0, 0, 0⟩,
   ⟨str "perm", 108, 92, 0, 0, 0⟩,
   ⟨str "user", 100, 72, 0, 0, 0⟩,
   ⟨str "group", 100, 72, 0, 0, 0⟩,
   ⟨str "disk", 90, 68, 0, 0, 0⟩]

/-- What a window shows before anybody has chosen. -/
def DEFAULT_COLUMNS : List Str := [str "name", str "kind", str "path", str "mtime", str "size"]

def column (id : Str) : Option Column := COLUMNS.find? (·.id = id)

def NARROW : ℕ := 700

def WIDE : ℕ := 1900

/-- A sum or a product of `u32`. -/
def u32 (n : ℕ) : Option ℕ := if n < 2 ^ 32 then some n else none

/-- A difference of `u32`. -/
def minus (a b : ℕ) : Option ℕ := if b ≤ a then some (a - b) else none

/-- `a * b / c` -/
def fair (a b c : ℕ) : Option ℕ := (u32 (a * b)).map (· / c)

/-- A column of the row: the width it was dragged to, and the width it has. -/
structure Cell where
  col : Column
  set : Option ℕ
  w : ℕ
deriving DecidableEq

def total (cells : List Cell) : ℕ := (cells.map Cell.w).sum

/-- A stretching column nobody dragged. -/
def isFree (c : Cell) : Bool := 0 < c.col.near && c.set.isNone

/-- A stretching column that was dragged. -/
def isDragged (c : Cell) : Bool := 0 < c.col.near && c.set.isSome

def every (_ : Cell) : Bool := true

/-! ## Sharing what the others left -/

/-- `share_at` -/
def shareAt (c : Column) (avail : ℕ) : Option ℕ :=
  (if avail ≤ NARROW then some 0
    else if WIDE ≤ avail then some 1000
    else fair (avail - NARROW) 1000 (WIDE - NARROW)).bind fun t =>
  (u32 (c.near * 10 * (1000 - t) + c.far * 10 * t)).map (· / 1000)

/-- Between its floor and its ceiling. -/
def Column.clamp (c : Column) (want : ℕ) : ℕ :=
  let w := Max.max want c.min
  if 0 < c.max then Max.max (Min.min w c.max) c.min else w

/-- The shares of all free columns. -/
def weightOf (avail : ℕ) : List Cell → Option ℕ
  | [] => some 0
  | c :: cells =>
    if isFree c then do
      let share ← shareAt c.col avail
      let rest ← weightOf avail cells
      u32 (share + rest)
    else weightOf avail cells

/-- The budget, handed to the free columns. -/
def handOut (avail budget weight : ℕ) : ℕ → List Cell → Option (List Cell)
  | _, [] => some []
  | handed, c :: cells =>
    if isFree c then do
      let want ←
        (if cells.any isFree then (shareAt c.col avail).bind fun share => fair budget share weight
        -- the last takes what the others left
        else some (budget - handed))
      let handed ← u32 (handed + want)
      let rest ← handOut avail budget weight handed cells
      return { c with w := c.col.clamp want } :: rest
    else do
      let rest ← handOut avail budget weight handed cells
      return c :: rest

/-! ## Handing out what is spare -/

/-- A free column below its ceiling. -/
def isOpen (c : Cell) : Bool := isFree c && (c.col.max = 0 || c.w < c.col.max)

def parts (c : Cell) : ℕ := Max.max c.col.far 1

/-- One round, and how much of it was taken. -/
def shareRound (left weight : ℕ) : ℕ → List Cell → Option (List Cell × ℕ)
  | spent, [] => some ([], spent)
  | spent, c :: cells =>
    if isOpen c then do
      let share ← (if cells.any isOpen then fair left (parts c) weight else minus left spent)
      let want ← u32 (c.w + share)
      let w := if 0 < c.col.max then Min.min want c.col.max else want
      let grown ← minus w c.w
      let spent ← u32 (spent + grown)
      let (rest, spent) ← shareRound left weight spent cells
      return ({ c with w } :: rest, spent)
    else do
      let (rest, spent) ← shareRound left weight spent cells
      return (c :: rest, spent)

/-- The last of the stretching columns takes the rest. -/
def giveLast (left : ℕ) : List Cell → Option (List Cell)
  | [] => some []
  | c :: cells =>
    if 0 < c.col.near ∧ cells.any (0 < ·.col.near) = false then do
      let w ← u32 (c.w + left)
      return { c with w } :: cells
    else do
      let rest ← giveLast left cells
      return c :: rest

/-- `share_out` -/
def shareOut : ℕ → List Cell → ℕ → Option (List Cell)
  | 0, _, _ => none
  | fuel + 1, cells, left =>
    (u32 (((cells.filter isOpen).map parts).sum)).bind fun weight =>
    if left = 0 then some cells
    else if weight = 0 then giveLast left cells
    else
      (shareRound left weight 0 cells).bind fun (cells, spent) =>
      if spent = 0 then some cells else (minus left spent).bind fun left => shareOut fuel cells left

/-! ## Taking back what is over -/

/-- A column the room is taken from, above its floor. -/
def above (p : Cell → Bool) (c : Cell) : Bool := p c && c.col.min < c.w

def roomOf (p : Cell → Bool) (cells : List Cell) : ℕ :=
  ((cells.filter (above p)).map fun c => c.w - c.col.min).sum

/-- One round, and how much was taken. -/
def takeRound (p : Cell → Bool) (take room : ℕ) : ℕ → List Cell → Option (List Cell × ℕ)
  | taken, [] => some ([], taken)
  | taken, c :: cells =>
    if above p c then do
      let want ← (if cells.any (above p) then fair take (c.w - c.col.min) room else minus take taken)
      let share := Min.min want (c.w - c.col.min)
      let taken ← u32 (taken + share)
      let (rest, taken) ← takeRound p take room taken cells
      return ({ c with w := c.w - share } :: rest, taken)
    else do
      let (rest, taken) ← takeRound p take room taken cells
      return (c :: rest, taken)

/-- `take_back`; the second is what could not be taken. -/
def takeBack (p : Cell → Bool) : ℕ → List Cell → ℕ → Option (List Cell × ℕ)
  | 0, _, _ => none
  | fuel + 1, cells, left =>
    (u32 (roomOf p cells)).bind fun room =>
    if left = 0 ∨ room = 0 then some (cells, left)
    else
      (takeRound p (Min.min left room) room 0 cells).bind fun (cells, taken) =>
      if taken = 0 then some (cells, left)
      else (minus left taken).bind fun left => takeBack p fuel cells left

/-- Where the widest is; of several, the last. -/
def widestOf : List ℕ → ℕ
  | [] => 0
  | x :: ws => if ws.any (x ≤ ·) then widestOf ws + 1 else 0

/-- `squash`: everything in proportion, by products of 64 bits. -/
def squash (ws : List ℕ) (avail : ℕ) : List ℕ :=
  let sum := ws.sum
  if sum ≤ avail ∨ sum = 0 ∨ avail < ws.length then ws
  else
    let small := ws.map fun x => Max.max (x * avail / sum) 1
    let widest := widestOf ws
    -- the widest takes the rounding
    let spent := (small.eraseIdx widest).sum
    small.set widest (Max.max (avail - spent) 1)

/-! ## The layout -/

/-- What a column was dragged to; 0 counts as not dragged. -/
def dragOf (chosen : Str → Option ℕ) (c : Column) : Option ℕ := (chosen c.id).filter (0 < ·)

/-- What each column asks for. -/
def asked (chosen : Str → Option ℕ) (cols : List Column) : List Cell :=
  cols.map fun c =>
    { col := c, set := dragOf chosen c, w := Max.max ((dragOf chosen c).getD c.width) c.min }

/-- The widths of the columns as they are, with all the room. -/
def arrange (cells : List Cell) (avail : ℕ) : Option (List ℕ) := do
  let sum ← u32 (total cells)
  if sum < avail then
    let cells ← shareOut (avail - sum + 1) cells (avail - sum)
    return cells.map Cell.w
  else if avail < sum then
    let excess := sum - avail
    let (cells, excess) ← takeBack isFree (excess + 1) cells excess
    let (cells, excess) ← takeBack isDragged (excess + 1) cells excess
    let (cells, _) ← takeBack every (excess + 1) cells excess
    return squash (cells.map Cell.w) avail
  else return cells.map Cell.w

/-- `lay_out` -/
def layOut (ids : List Str) (chosen : Str → Option ℕ) (avail : ℕ) : Option (List ℕ) :=
  let cols := ids.filterMap column
  if cols = [] then some []
  else do
    let cells := asked chosen cols
    let taken ← u32 (total (cells.filter fun c => !isFree c))
    let weight ← weightOf avail cells
    let cells ← handOut avail (avail - taken) weight 0 cells
    arrange cells avail

def floorWidth (ids : List Str) : ℕ := ((ids.filterMap column).map (·.min)).sum

example : layOut DEFAULT_COLUMNS (fun _ => none) 900 = some [280, 110, 300, 120, 90] := by decide

/-! ## Fitting to what the rows hold -/

section
variable (chosen need : Str → Option ℕ)

/-- What a column can spare, and what it is short of. -/
def measured (c : Column) (w : ℕ) : ℕ × ℕ :=
  if c.near = 0 ∨ (dragOf chosen c).isSome then (0, 0)
  else
    match need c.id with
    | none => (0, 0)
    | some n =>
      let keep := Max.max n c.min
      if keep < w then (w - keep, 0)
      else if w < n then (0, if 0 < c.max then Min.min (n - w) (c.max - w) else n - w)
      else (0, 0)

/-- What rounding left over goes to whoever has room for it. -/
def handRest (moved : ℕ) : ℕ → List (ℕ × ℕ) → List ℕ
  | _, [] => []
  | handed, (amount, out) :: rest =>
    let more := Min.min (moved - handed) (amount - out)
    (out + more) :: handRest moved (handed + more) rest

/-- Each side in proportion. -/
def shift (moved : ℕ) (amounts : List ℕ) (total : ℕ) : List ℕ :=
  let out := amounts.map fun a => moved * a / total
  handRest moved out.sum (amounts.zip out)

/-- `fit_to`; a sum past 32 bits wraps, as in a release build. -/
def fitTo (ids : List Str) (ws : List ℕ) : List ℕ :=
  let cols := ids.filterMap column
  if cols.length ≠ ws.length then ws
  else
    let spare := (cols.zip ws).map fun (c, w) => (measured chosen need c w).1
    let short := (cols.zip ws).map fun (c, w) => (measured chosen need c w).2
    let have_ := spare.sum % 2 ^ 32
    let want := short.sum % 2 ^ 32
    let moved := Min.min have_ want
    if moved = 0 then ws
    else
      let give := shift moved spare have_
      let take := shift moved short want
      (ws.zip (give.zip take)).map fun (w, give, take) => w - give + take

end

end Scour.Widths
