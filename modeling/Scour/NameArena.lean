import Scour.FoldBuffer
import Scour.Kept
import Scour.OrdersSorted

/-!
# The name arena

`NameWriter` puts every name behind the one before it, each with a NUL, spelled in one arena and
folded in the other, and notes where every `BLOCK`-th name begins, in 32 bits.  `NameArena` is an
arena as it is opened: `get` jumps to a block and scans from there, `walkRange` goes on from name to
name, and `Reader` remembers where the last name it read begins.

A reader reads what `get` reads, in whatever order it is asked and whatever the bytes are
(`readAll_eq`).  A walk yields what `get` reads as long as the blocks it passes begin below byte
2^32 (`names_read_alike`).
-/

namespace Scour

open Search (toLe fromLe slice At at_flatMap fromLe_toLe length_toLe)
open OrderBytes (arena startIn)

/-! ## Writing -/

/-- Two arenas of one row numbering, and where their blocks begin. -/
structure NameWriter where
  bytes : Str
  blocks : List UInt32
  rows : ℕ
  folded : Str
  foldedBlocks : List UInt32

/-- Bytes copied over others. -/
def overwrite (s : Str) (i : ℕ) (x : Str) : Str := s.take i ++ x ++ s.drop (i + x.length)

namespace NameWriter

def new : NameWriter := ⟨[], [], 0, [], []⟩

/-- The fold is handed to the trigram writer as well. -/
def pushAndFold (T : CaseTable) (w : NameWriter) (name : List Char) : NameWriter × Str :=
  let begins := w.rows % BLOCK = 0
  let fold := Folded.foldBytes T (utf8 name)
  ({ bytes := w.bytes ++ utf8 name ++ [0]
     blocks := if begins then w.blocks ++ [UInt32.ofNat w.bytes.length] else w.blocks
     rows := w.rows + 1
     folded := w.folded ++ fold ++ [0]
     foldedBlocks := if begins then w.foldedBlocks ++ [UInt32.ofNat w.folded.length]
       else w.foldedBlocks }, fold)

def push (T : CaseTable) (w : NameWriter) (name : List Char) : NameWriter := (w.pushAndFold T name).1

def pack (rows : ℕ) (blocks : List UInt32) (bytes : Str) : Str :=
  toLe 4 rows ++ toLe 4 blocks.length ++ blocks.flatMap (fun b => toLe 4 b.toNat) ++ bytes

/-- Every offset into its slot. -/
def fillSlots : List UInt32 → ℕ → Str → Str
  | [], _, bytes => bytes
  | b :: blocks, at_, bytes => fillSlots blocks (at_ + 4) (overwrite bytes at_ (toLe 4 b.toNat))

/-- The same without a second buffer: room for the header, and the payload moved behind it. -/
def packInPlace (rows : ℕ) (blocks : List UInt32) (bytes : Str) : Str :=
  let headerLen := 8 + blocks.length * 4
  let bytes := (bytes ++ List.replicate headerLen 0).rotateRight headerLen
  fillSlots blocks 8 (overwrite (overwrite bytes 0 (toLe 4 rows)) 4 (toLe 4 blocks.length))

def finish (w : NameWriter) : Str := pack w.rows w.blocks w.bytes

def finishFolded (w : NameWriter) : Str := pack w.rows w.foldedBlocks w.folded

def finishBoth (w : NameWriter) : Str × Str :=
  (packInPlace w.rows w.blocks w.bytes, packInPlace w.rows w.foldedBlocks w.folded)

/-- The names of all rows. -/
def write (T : CaseTable) (names : List (List Char)) : NameWriter := names.foldl (push T) new

end NameWriter

/-! ## Reading -/

/-- An arena, read in place. -/
structure NameArena where
  rows : ℕ
  blocks : Str
  bytes : Str

namespace NameArena

def open_ (bytes : Str) : Option NameArena :=
  if bytes.length < 8 then none
  else do
    let rows := fromLe (← slice bytes 0 4)
    let nBlocks := fromLe (← slice bytes 4 8)
    let end_ := 8 + nBlocks * 4
    if bytes.length < end_ then none
    return ⟨rows, ← slice bytes 8 end_, ← slice bytes end_ bytes.length⟩

def blockStart (a : NameArena) (block : ℕ) : Option ℕ :=
  (slice a.blocks (block * 4) (block * 4 + 4)).map fromLe

/-- How far behind `at_` the next NUL is. -/
def memchr (bytes : Str) (at_ : ℕ) : Option ℕ := (slice bytes at_ bytes.length).bind (·.idxOf? 0)

/-- Past so many names. -/
def skip (bytes : Str) : ℕ → ℕ → Option ℕ
  | 0, at_ => some at_
  | n + 1, at_ => (memchr bytes at_).bind fun k => skip bytes n (at_ + k + 1)

def get (a : NameArena) (row : ℕ) : Option (List Char) :=
  if a.rows ≤ row then none
  else do
    let at_ ← skip a.bytes (row % BLOCK) (← a.blockStart (row / BLOCK))
    let end_ := at_ + (← memchr a.bytes at_)
    fromUtf8 (← slice a.bytes at_ end_)

section
variable {σ : Type} (f : σ → ℕ → Str → σ × Bool)

/-- The rows from `row` on, until the callback stops. -/
def walkLoop (bytes : Str) : ℕ → ℕ → ℕ → σ → σ
  | 0, _, _, s => s
  | n + 1, row, at_, s =>
    match memchr bytes at_ with
    | none => s
    | some k =>
      let (s, goOn) := f s row ((bytes.drop at_).take k)
      if goOn then walkLoop bytes n (row + 1) (at_ + k + 1) s else s

/-- `walk_range`, of the rows below `stop`. -/
def walkRange (a : NameArena) (start stop : ℕ) (s : σ) : σ :=
  let stop := min stop a.rows
  if stop ≤ start then s
  else
    match (a.blockStart (start / BLOCK)).bind (skip a.bytes (start % BLOCK)) with
    | none => s
    | some at_ => walkLoop f a.bytes (stop - start) start at_ s

def walk (a : NameArena) (start : ℕ) (s : σ) : σ := a.walkRange f start a.rows s

/-- What a callback is left with that is handed these rows, until it stops. -/
def handed : σ → List (ℕ × Str) → σ
  | s, [] => s
  | s, (row, name) :: rest =>
    let (s, goOn) := f s row name
    if goOn then handed s rest else s

end

/-- Where the row read last begins; meaningless until `placed`. -/
structure Reader where
  at_ : ℕ
  row : ℕ
  placed : Bool

def Reader.new : Reader := ⟨0, 0, false⟩

/-- `Reader::at`: the name of a row, empty where there is none, and where the reader is then. -/
def Reader.read (r : Reader) (a : NameArena) (row : ℕ) : List Char × Reader :=
  if a.rows ≤ row then ([], r)
  else
    let fromBlock := row % BLOCK
    -- whichever is nearer: the last row, or the block
    let start :=
      if r.row ≤ row ∧ r.placed = true ∧ row - r.row ≤ fromBlock then some (r.at_, row - r.row)
      else (a.blockStart (row / BLOCK)).map fun at_ => (at_, fromBlock)
    match start.bind fun (at_, steps) => skip a.bytes steps at_ with
    | none => ([], r)
    | some at_ =>
      match memchr a.bytes at_ with
      | none => ([], r)
      | some n => ((fromUtf8 ((a.bytes.drop at_).take n)).getD [], ⟨at_, row, true⟩)

/-- The names of rows asked for one after another. -/
def readAll (a : NameArena) : Reader → List ℕ → List (List Char)
  | _, [] => []
  | r, row :: rows => (r.read a row).1 :: readAll a (r.read a row).2 rows

/-! ## A reader goes on from its last row -/

theorem skip_add (bytes : Str) (m n at_ : ℕ) :
    skip bytes (m + n) at_ = (skip bytes m at_).bind (skip bytes n) := by
  induction m generalizing at_ with
  | zero => rw [Nat.zero_add]; rfl
  | succ m ih =>
    rw [Nat.succ_add, skip, skip]
    cases memchr bytes at_ with
    | none => rfl
    | some k => exact ih (at_ + k + 1)

theorem slice_rest {s : Str} {i : ℕ} {x : Str} (h : slice s i s.length = some x) :
    i ≤ s.length ∧ x = s.drop i := by
  unfold slice at h
  split_ifs at h with hle
  refine ⟨hle.1, ?_⟩
  rw [← Option.some.inj h, List.take_of_length_le]
  rw [List.length_drop]

/-- Where a NUL is, the bytes before it are there. -/
theorem memchr_some {bytes : Str} {at_ k : ℕ} (h : memchr bytes at_ = some k) :
    slice bytes at_ (at_ + k) = some ((bytes.drop at_).take k) := by
  obtain ⟨x, hx, hk⟩ := Option.bind_eq_some_iff.mp h
  obtain ⟨hle, rfl⟩ := slice_rest hx
  have hlt := (List.idxOf?_eq_some_iff.mp hk).1
  rw [List.length_drop] at hlt
  unfold slice
  rw [if_pos ⟨by omega, by omega⟩, Nat.add_sub_cancel_left]

/-- A placed reader stands where `get` would find its row. -/
def Reader.Stands (r : Reader) (a : NameArena) : Prop :=
  r.placed = true → (a.blockStart (r.row / BLOCK)).bind (skip a.bytes (r.row % BLOCK)) = some r.at_

/-- Both ways to a row lead to the same byte. -/
theorem Reader.Stands.start {r : Reader} {a : NameArena} (h : r.Stands a) (row : ℕ) :
    ((if r.row ≤ row ∧ r.placed = true ∧ row - r.row ≤ row % BLOCK then some (r.at_, row - r.row)
        else (a.blockStart (row / BLOCK)).map fun at_ => (at_, row % BLOCK)).bind
      fun (at_, steps) => skip a.bytes steps at_) =
      (a.blockStart (row / BLOCK)).bind (skip a.bytes (row % BLOCK)) := by
  have hB : BLOCK = 32 := rfl
  split
  · rename_i hnear
    obtain ⟨hle, hplaced, hahead⟩ := hnear
    have hblock : r.row / BLOCK = row / BLOCK := by
      rw [hB] at hahead ⊢
      omega
    have hsteps : row % BLOCK = r.row % BLOCK + (row - r.row) := by
      rw [hB] at hahead ⊢
      omega
    have hstand := h hplaced
    rw [hblock] at hstand
    obtain ⟨start, hstart, hskip⟩ := Option.bind_eq_some_iff.mp hstand
    rw [hstart, Option.bind_some, Option.bind_some, hsteps, skip_add, hskip, Option.bind_some]
  · cases a.blockStart (row / BLOCK) with
    | none => rfl
    | some start => rfl

/-- One request: what `get` reads, and the reader stands again. -/
theorem Reader.Stands.read {r : Reader} {a : NameArena} (h : r.Stands a) (row : ℕ) :
    (r.read a row).1 = (a.get row).getD [] ∧ (r.read a row).2.Stands a := by
  unfold Reader.read NameArena.get
  split
  · exact ⟨rfl, h⟩
  simp only
  rw [h.start row]
  cases hstart : a.blockStart (row / BLOCK) with
  | none => exact ⟨rfl, h⟩
  | some start =>
    simp only [Option.bind_some, Option.bind_eq_bind]
    cases hskip : skip a.bytes (row % BLOCK) start with
    | none => exact ⟨rfl, h⟩
    | some at_ =>
      simp only [Option.bind_some]
      cases hend : memchr a.bytes at_ with
      | none => exact ⟨rfl, h⟩
      | some n =>
        simp only [Option.bind_some]
        rw [memchr_some hend]
        refine ⟨rfl, fun _ => ?_⟩
        simp only
        rw [hstart, Option.bind_some, hskip]

/-- Whatever is asked in whatever order, a reader reads what `get` reads. -/
theorem readAll_eq (a : NameArena) (rows : List ℕ) : ∀ r : Reader, r.Stands a →
    a.readAll r rows = rows.map fun row => (a.get row).getD [] := by
  induction rows with
  | nil =>
    intro r _
    rfl
  | cons row rows ih =>
    intro r hr
    obtain ⟨hread, hstands⟩ := hr.read row
    rw [readAll, hread, ih _ hstands, List.map_cons]

theorem stands_new (a : NameArena) : Reader.new.Stands a := by
  intro h
  cases h

/-! ## An arena as it was written -/

/-- Where a row's name begins. -/
def offsetOf (ns : List Str) (row : ℕ) : ℕ := startIn (· ++ [0]) ns row

theorem offsetOf_succ {ns : List Str} {row : ℕ} {s : Str} (h : ns[row]? = some s) :
    offsetOf ns (row + 1) = offsetOf ns row + s.length + 1 := by
  have := OrderBytes.startIn_succ (g := fun s : Str => s ++ [0]) h
  rw [List.length_append, List.length_singleton] at this
  exact this

/-- Where the blocks of so many names begin, in 32 bits. -/
def blockOffsets (ns : List Str) : List UInt32 :=
  (List.range ((ns.length + (BLOCK - 1)) / BLOCK)).map fun b => UInt32.ofNat (offsetOf ns (b * BLOCK))

theorem offsetOf_append (ns : List Str) (s : Str) {row : ℕ} (h : row ≤ ns.length) :
    offsetOf (ns ++ [s]) row = offsetOf ns row := by
  unfold offsetOf startIn
  rw [List.take_append_of_le_length h]

theorem offsetOf_length (ns : List Str) : offsetOf ns ns.length = (arena ns).length :=
  OrderBytes.startIn_all _ ns

/-- One more name begins a block where the ones before it fill theirs. -/
theorem blockOffsets_append (ns : List Str) (s : Str) :
    blockOffsets (ns ++ [s]) =
      if ns.length % BLOCK = 0 then blockOffsets ns ++ [UInt32.ofNat (arena ns).length]
      else blockOffsets ns := by
  have hB : BLOCK = 32 := rfl
  have hsame : ∀ b, b * BLOCK ≤ ns.length →
      UInt32.ofNat (offsetOf (ns ++ [s]) (b * BLOCK)) = UInt32.ofNat (offsetOf ns (b * BLOCK)) :=
    fun b hb => by rw [offsetOf_append ns s hb]
  unfold blockOffsets
  rw [List.length_append, List.length_singleton]
  split
  · rename_i hfull
    have hcount : (ns.length + 1 + (BLOCK - 1)) / BLOCK = (ns.length + (BLOCK - 1)) / BLOCK + 1 := by
      rw [hB] at hfull ⊢
      omega
    have hlast : (ns.length + (BLOCK - 1)) / BLOCK * BLOCK = ns.length := by
      rw [hB] at hfull ⊢
      omega
    rw [hcount, List.range_succ, List.map_append, List.map_singleton, hsame _ hlast.le, hlast,
      offsetOf_length]
    congr 1
    apply List.map_congr_left
    intro b hb
    rw [List.mem_range] at hb
    exact hsame b (by rw [hB] at hb ⊢; omega)
  · rename_i hpart
    have hcount : (ns.length + 1 + (BLOCK - 1)) / BLOCK = (ns.length + (BLOCK - 1)) / BLOCK := by
      rw [hB] at hpart ⊢
      omega
    rw [hcount]
    apply List.map_congr_left
    intro b hb
    rw [List.mem_range] at hb
    exact hsame b (by rw [hB] at hb ⊢; omega)

theorem arena_append (ns : List Str) (s : Str) : arena (ns ++ [s]) = arena ns ++ s ++ [0] := by
  rw [arena, List.flatMap_append, List.flatMap_singleton, List.append_assoc]
  rfl

/-- What the writer holds of the names pushed so far. -/
theorem write_eq (T : CaseTable) (names : List (List Char)) :
    NameWriter.write T names =
      { bytes := arena (names.map utf8)
        blocks := blockOffsets (names.map utf8)
        rows := names.length
        folded := arena (names.map fun n => Folded.foldBytes T (utf8 n))
        foldedBlocks := blockOffsets (names.map fun n => Folded.foldBytes T (utf8 n)) } := by
  have hnone : blockOffsets [] = [] := by decide
  induction names using List.reverseRecOn with
  | nil =>
    rw [List.map_nil, List.map_nil, hnone]
    rfl
  | append_singleton names name ih =>
    unfold NameWriter.write at ih ⊢
    rw [List.foldl_append, ih]
    simp only [List.foldl_cons, List.foldl_nil, NameWriter.push, NameWriter.pushAndFold]
    rw [List.map_append, List.map_append, List.map_singleton, List.map_singleton, arena_append,
      arena_append, blockOffsets_append, blockOffsets_append, List.length_append, List.length_map,
      List.length_map, List.length_singleton]

/-- An arena of these names. -/
def ofNames (ns : List Str) : NameArena :=
  ⟨ns.length, (blockOffsets ns).flatMap fun b => toLe 4 b.toNat, arena ns⟩

theorem length_slots (blocks : List UInt32) :
    (blocks.flatMap fun b => toLe 4 b.toNat).length = blocks.length * 4 := by
  induction blocks with
  | nil => rfl
  | cons b blocks ih =>
    rw [List.flatMap_cons, List.length_append, ih, length_toLe, List.length_cons]
    omega

theorem open_pack (ns : List Str) (h : ns.length < 2 ^ 32) :
    open_ (NameWriter.pack ns.length (blockOffsets ns) (arena ns)) = some (ofNames ns) := by
  have hB : BLOCK = 32 := rfl
  have hcount : (blockOffsets ns).length < 2 ^ 32 := by
    unfold blockOffsets
    rw [List.length_map, List.length_range, hB]
    omega
  have hslots := length_slots (blockOffsets ns)
  have hfile : At (NameWriter.pack ns.length (blockOffsets ns) (arena ns)) 0
      (toLe 4 ns.length ++ (toLe 4 (blockOffsets ns).length ++
        ((blockOffsets ns).flatMap (fun b => toLe 4 b.toNat) ++ arena ns))) :=
    ⟨[], [], by unfold NameWriter.pack; simp, rfl⟩
  have hrows := hfile.left
  have hrest := hfile.right (j := 4) (by rw [length_toLe])
  have hblocks := hrest.left
  have hbody := hrest.right (j := 8) (by rw [length_toLe])
  have hnames := hbody.right (j := 8 + (blockOffsets ns).length * 4) (by rw [hslots])
  have hlen : (NameWriter.pack ns.length (blockOffsets ns) (arena ns)).length =
      8 + (blockOffsets ns).length * 4 + (arena ns).length := by
    unfold NameWriter.pack
    rw [List.length_append, List.length_append, List.length_append, length_toLe, length_toLe, hslots]
  unfold open_
  rw [if_neg (by omega), hrows.slice (by rw [length_toLe]), hblocks.slice (by rw [length_toLe])]
  simp only [Option.bind_eq_bind, Option.bind_some]
  rw [fromLe_toLe (by omega), fromLe_toLe (by omega), if_neg (by omega),
    hbody.left.slice (by rw [hslots]), hnames.slice hlen]
  rfl

section
variable {ns : List Str}

theorem memchr_offset (hnul : ∀ s ∈ ns, (0 : UInt8) ∉ s) {row : ℕ} {s : Str} (h : ns[row]? = some s) :
    memchr (arena ns) (offsetOf ns row) = some s.length ∧
      ((arena ns).drop (offsetOf ns row)).take s.length = s := by
  obtain ⟨t, ht⟩ := OrderBytes.drop_arena h
  have hle : offsetOf ns row ≤ (arena ns).length := OrderBytes.startIn_le _ _ _
  have hslice : slice (arena ns) (offsetOf ns row) (arena ns).length = some (s ++ 0 :: t) := by
    unfold slice
    rw [if_pos ⟨hle, le_refl _⟩, offsetOf, ht, List.take_of_length_le]
    rw [← ht, List.length_drop]
  refine ⟨?_, ?_⟩
  · unfold memchr
    rw [hslice, Option.bind_some, OrderBytes.idxOf?_nul (hnul s (List.mem_of_getElem? h))]
  · rw [offsetOf, ht, List.take_left' rfl]

/-- Scanning over names leads to a name. -/
theorem skip_offset (hnul : ∀ s ∈ ns, (0 : UInt8) ∉ s) (n : ℕ) : ∀ row, row + n ≤ ns.length →
    skip (arena ns) n (offsetOf ns row) = some (offsetOf ns (row + n)) := by
  induction n with
  | zero =>
    intro row _
    rfl
  | succ n ih =>
    intro row hle
    have hget : ns[row]? = some ns[row] := List.getElem?_eq_getElem (by omega)
    rw [skip, (memchr_offset hnul hget).1, Option.bind_some, ← offsetOf_succ hget, ih (row + 1) (by omega)]
    congr 2
    omega

theorem blockStart_ofNames {block : ℕ} (h : block * BLOCK < ns.length) :
    (ofNames ns).blockStart block = some (offsetOf ns (block * BLOCK) % 2 ^ 32) := by
  have hB : BLOCK = 32 := rfl
  have hlt : block < (ns.length + (BLOCK - 1)) / BLOCK := by
    rw [hB] at h ⊢
    omega
  have hget : (blockOffsets ns)[block]? = some (UInt32.ofNat (offsetOf ns (block * BLOCK))) := by
    unfold blockOffsets
    rw [List.getElem?_map, List.getElem?_range hlt]
    rfl
  have hat := at_flatMap (g := fun b : UInt32 => toLe 4 b.toNat) hget
  have hplace : ((blockOffsets ns).take block).length = block := by
    rw [List.length_take]
    exact Nat.min_eq_left (List.getElem?_eq_some_iff.mp hget).1.le
  rw [length_slots, hplace] at hat
  unfold blockStart ofNames
  simp only
  rw [hat.slice (by rw [length_toLe]), Option.map_some, UInt32.toNat_ofNat', fromLe_toLe (by omega)]

/-- Where the block of a row begins in 32 bits, its name begins where it was written. -/
theorem start_ofNames (hnul : ∀ s ∈ ns, (0 : UInt8) ∉ s) {row : ℕ} (h : row < ns.length)
    (hsmall : offsetOf ns (row / BLOCK * BLOCK) < 2 ^ 32) :
    ((ofNames ns).blockStart (row / BLOCK)).bind (skip (ofNames ns).bytes (row % BLOCK)) =
      some (offsetOf ns row) := by
  have hB : BLOCK = 32 := rfl
  rw [blockStart_ofNames (by rw [hB]; omega), Nat.mod_eq_of_lt hsmall, Option.bind_some]
  have hskip := skip_offset hnul (row % BLOCK) (row / BLOCK * BLOCK) (by rw [hB]; omega)
  have hrow : row / BLOCK * BLOCK + row % BLOCK = row := by
    rw [hB]
    omega
  rwa [hrow] at hskip

theorem get_ofNames (hnul : ∀ s ∈ ns, (0 : UInt8) ∉ s) {row : ℕ} {s : Str} (h : ns[row]? = some s)
    (hsmall : offsetOf ns (row / BLOCK * BLOCK) < 2 ^ 32) : (ofNames ns).get row = fromUtf8 s := by
  obtain ⟨hlt, -⟩ := List.getElem?_eq_some_iff.mp h
  obtain ⟨start, hstart, hskip⟩ := Option.bind_eq_some_iff.mp (start_ofNames hnul hlt hsmall)
  obtain ⟨hend, htake⟩ := memchr_offset hnul h
  have hend' : memchr (ofNames ns).bytes (offsetOf ns row) = some s.length := hend
  have hrows : ¬ (ofNames ns).rows ≤ row := not_le.mpr hlt
  unfold get
  rw [if_neg hrows, hstart]
  simp only [Option.bind_eq_bind, Option.bind_some]
  rw [hskip, Option.bind_some, hend', Option.bind_some, memchr_some hend', Option.bind_some]
  exact congrArg fromUtf8 htake

theorem get_past {row : ℕ} (h : ns.length ≤ row) : (ofNames ns).get row = none := if_pos h

/-- The names of so many rows from `row` on. -/
def rowsFrom (ns : List Str) (row n : ℕ) : List (ℕ × Str) :=
  (List.range' row n).filterMap fun r => (ns[r]?).map fun s => (r, s)

theorem walkLoop_arena {σ : Type} (f : σ → ℕ → Str → σ × Bool) (hnul : ∀ s ∈ ns, (0 : UInt8) ∉ s)
    (n : ℕ) : ∀ row s, row + n ≤ ns.length →
    walkLoop f (arena ns) n row (offsetOf ns row) s = handed f s (rowsFrom ns row n) := by
  induction n with
  | zero =>
    intro row s _
    rfl
  | succ n ih =>
    intro row s hle
    have hget : ns[row]? = some ns[row] := List.getElem?_eq_getElem (by omega)
    obtain ⟨hend, htake⟩ := memchr_offset hnul hget
    have hrows : rowsFrom ns row (n + 1) = (row, ns[row]) :: rowsFrom ns (row + 1) n := by
      unfold rowsFrom
      rw [List.range'_succ, List.filterMap_cons, hget]
      rfl
    rw [hrows]
    simp only [walkLoop, handed, hend, htake]
    split
    · rw [← offsetOf_succ hget]
      exact ih (row + 1) _ (by omega)
    · rfl

/-- A walk yields the names as they were written, where the block it begins in begins in 32 bits. -/
theorem walkRange_ofNames {σ : Type} (f : σ → ℕ → Str → σ × Bool)
    (hnul : ∀ s ∈ ns, (0 : UInt8) ∉ s) {start stop : ℕ} (s : σ)
    (hsmall : start < stop → start < ns.length → offsetOf ns (start / BLOCK * BLOCK) < 2 ^ 32) :
    (ofNames ns).walkRange f start stop s = handed f s (rowsFrom ns start (stop - start)) := by
  have hrows : (ofNames ns).rows = ns.length := rfl
  unfold walkRange
  simp only
  rw [hrows]
  by_cases hempty : min stop ns.length ≤ start
  · -- no row of the range is there
    rw [if_pos hempty]
    have hnone : rowsFrom ns start (stop - start) = [] := by
      unfold rowsFrom
      rw [List.filterMap_eq_nil_iff]
      intro r hr
      rw [List.mem_range'_1] at hr
      rw [List.getElem?_eq_none (by omega)]
      rfl
    rw [hnone]
    rfl
  · have hlt : start < ns.length := by omega
    rw [if_neg hempty, start_ofNames hnul hlt (hsmall (by omega) hlt)]
    have hcut : rowsFrom ns start (stop - start) = rowsFrom ns start (min stop ns.length - start) := by
      have hsplit : stop - start = (min stop ns.length - start) + (stop - min stop ns.length) := by
        omega
      unfold rowsFrom
      rw [hsplit, ← List.range'_append_1, List.filterMap_append]
      conv_rhs => rw [← List.append_nil (List.filterMap _ _)]
      congr 1
      rw [List.filterMap_eq_nil_iff]
      intro r hr
      rw [List.mem_range'_1] at hr
      rw [List.getElem?_eq_none (by omega)]
      rfl
    rw [hcut]
    exact walkLoop_arena f hnul _ start s (by omega)

end

/-! ## Reading it -/

/-- The rows of a range with the names `get` gives. -/
def rowsRead (a : NameArena) (start stop : ℕ) : List (ℕ × Str) :=
  (List.range' start (stop - start)).filterMap fun row =>
    (a.get row).map fun name => (row, utf8 name)

/-- How an arena of these names is read: by a reader in any order, and by walks over rows whose
blocks begin where 32 bits reach. -/
structure ReadsAlike (a : NameArena) (ns : List Str) : Prop where
  reader : ∀ rows, a.readAll .new rows = rows.map fun row => (a.get row).getD []
  get : ∀ row, offsetOf ns (row / BLOCK * BLOCK) < 2 ^ 32 → a.get row = ns[row]?.bind fromUtf8
  walk : ∀ start stop,
    (∀ row, start ≤ row → row < stop → row < ns.length →
      offsetOf ns (row / BLOCK * BLOCK) < 2 ^ 32) →
    ∀ (σ : Type) (f : σ → ℕ → Str → σ × Bool) (s : σ),
      a.walkRange f start stop s = handed f s (a.rowsRead start stop)

theorem reads_ofNames {ns : List Str} (hnul : ∀ s ∈ ns, (0 : UInt8) ∉ s)
    (htext : ∀ s ∈ ns, IsText s) : ReadsAlike (ofNames ns) ns := by
  have hget : ∀ row, offsetOf ns (row / BLOCK * BLOCK) < 2 ^ 32 →
      (ofNames ns).get row = ns[row]?.bind fromUtf8 := by
    intro row hsmall
    cases h : ns[row]? with
    | none => exact get_past (List.getElem?_eq_none_iff.mp h)
    | some s => exact get_ofNames hnul h hsmall
  refine ⟨fun rows => readAll_eq _ rows _ (stands_new _), hget, ?_⟩
  intro start stop hsmall σ f s
  rw [walkRange_ofNames f hnul s fun hlt hin => hsmall start (le_refl _) hlt hin]
  congr 1
  unfold rowsFrom rowsRead
  apply List.filterMap_congr
  intro row hrow
  rw [List.mem_range'_1] at hrow
  cases h : ns[row]? with
  | none =>
    rw [get_past (List.getElem?_eq_none_iff.mp h)]
    rfl
  | some s =>
    obtain ⟨hlt, -⟩ := List.getElem?_eq_some_iff.mp h
    obtain ⟨cs, rfl⟩ := htext s (List.mem_of_getElem? h)
    rw [hget row (hsmall row hrow.1 (by omega) hlt), h, Option.bind_some, fromUtf8_utf8]
    rfl

end NameArena

/-! ## Finishing -/

namespace NameWriter

/-- Moved to the front, the zeroes are the header's. -/
theorem rotateRight_zeroes (bytes zeroes : Str) :
    (bytes ++ zeroes).rotateRight zeroes.length = zeroes ++ bytes := by
  unfold List.rotateRight
  rw [List.length_append]
  simp only
  split
  · rename_i hshort
    -- at most one byte in all
    cases bytes with
    | nil => rw [List.nil_append, List.append_nil]
    | cons b bytes =>
      cases zeroes with
      | nil => rw [List.append_nil, List.nil_append]
      | cons z zeroes => simp at hshort; omega
  · cases bytes with
    | nil =>
      rw [List.length_nil, Nat.zero_add, Nat.mod_self, Nat.sub_zero]
      simp
    | cons b bytes =>
      rw [Nat.mod_eq_of_lt (by rw [List.length_cons]; omega), Nat.add_sub_cancel,
        List.drop_left' rfl, List.take_left' rfl]

theorem overwrite_eq (pre old x post : Str) (h : old.length = x.length) :
    overwrite (pre ++ old ++ post) pre.length x = pre ++ x ++ post := by
  have htake : (pre ++ old ++ post).take pre.length = pre := by
    rw [List.append_assoc, List.take_left' rfl]
  have hdrop : (pre ++ old ++ post).drop (pre.length + x.length) = post :=
    List.drop_left' (by rw [List.length_append, h])
  unfold overwrite
  rw [htake, hdrop]

/-- Every slot gets its offset. -/
theorem fillSlots_eq (blocks : List UInt32) : ∀ (pre zeroes post : Str),
    zeroes.length = blocks.length * 4 →
    fillSlots blocks pre.length (pre ++ zeroes ++ post) =
      pre ++ blocks.flatMap (fun b => toLe 4 b.toNat) ++ post := by
  induction blocks with
  | nil =>
    intro pre zeroes post h
    rw [List.length_eq_zero_iff.mp h]
    rfl
  | cons b blocks ih =>
    intro pre zeroes post h
    rw [List.length_cons] at h
    obtain ⟨slot, rest, rfl, hslot⟩ : ∃ slot rest, zeroes = slot ++ rest ∧ slot.length = 4 :=
      ⟨zeroes.take 4, zeroes.drop 4, (List.take_append_drop 4 zeroes).symm,
        by rw [List.length_take]; omega⟩
    rw [List.length_append] at h
    have hcopy := overwrite_eq pre slot (toLe 4 b.toNat) (rest ++ post)
      (by rw [hslot, length_toLe])
    have hnext := ih (pre ++ toLe 4 b.toNat) rest post (by omega)
    rw [List.length_append, length_toLe] at hnext
    unfold fillSlots
    rw [← List.append_assoc pre, List.append_assoc (pre ++ slot), hcopy, ← List.append_assoc, hnext,
      List.flatMap_cons, List.append_assoc, List.append_assoc, List.append_assoc, List.append_assoc]

theorem packInPlace_eq (rows : ℕ) (blocks : List UInt32) (bytes : Str) :
    packInPlace rows blocks bytes = pack rows blocks bytes := by
  have hzeroes : List.replicate (8 + blocks.length * 4) (0 : UInt8) =
      List.replicate 4 0 ++ List.replicate 4 0 ++ List.replicate (blocks.length * 4) 0 := by
    rw [List.replicate_append_replicate, List.replicate_append_replicate]
  have hrotate := rotateRight_zeroes bytes (List.replicate (8 + blocks.length * 4) 0)
  rw [List.length_replicate] at hrotate
  unfold packInPlace pack
  simp only
  rw [hrotate, hzeroes, List.append_assoc, List.append_assoc]
  have hrows := overwrite_eq [] (List.replicate 4 0) (toLe 4 rows)
    (List.replicate 4 0 ++ (List.replicate (blocks.length * 4) 0 ++ bytes))
    (by rw [List.length_replicate, length_toLe])
  have hcount := overwrite_eq (toLe 4 rows) (List.replicate 4 0) (toLe 4 blocks.length)
    (List.replicate (blocks.length * 4) 0 ++ bytes) (by rw [List.length_replicate, length_toLe])
  have hslots := fillSlots_eq blocks (toLe 4 rows ++ toLe 4 blocks.length)
    (List.replicate (blocks.length * 4) 0) bytes (by rw [List.length_replicate])
  rw [List.length_append, length_toLe, length_toLe] at hslots
  rw [List.nil_append, List.nil_append, List.length_nil] at hrows
  rw [length_toLe] at hcount
  rw [hrows, ← List.append_assoc, hcount, ← List.append_assoc, hslots]

/-- Both arenas finished at once are the two finished one by one. -/
theorem finishBoth_eq (w : NameWriter) : w.finishBoth = (w.finish, w.finishFolded) := by
  unfold finishBoth finish finishFolded
  rw [packInPlace_eq, packInPlace_eq]

end NameWriter

/-! ## Both arenas -/

theorem nul_mem_utf8 (cs : List Char) : (0 : UInt8) ∈ utf8 cs ↔ '\x00' ∈ cs := by
  have hnul : ∀ c : Char, (0 : UInt8) ∈ String.utf8EncodeChar c ↔ c = '\x00' := by
    intro c
    rw [mem_utf8EncodeChar_iff c 0 (by decide)]
    exact Char.toNat_inj (d := '\x00')
  unfold utf8
  rw [List.mem_flatMap]
  constructor
  · rintro ⟨c, hc, h⟩
    rwa [← (hnul c).mp h]
  · intro h
    exact ⟨_, h, (hnul _).mpr rfl⟩

namespace NameArena

theorem nul_notMem_fold {T : CaseTable} (hT : ∀ c, '\x00' ∈ T.lower c → c = '\x00') {cs : List Char}
    (h : '\x00' ∉ cs) : '\x00' ∉ DefaultFolder.fold T cs := by
  unfold DefaultFolder.fold DefaultFolder.foldChar
  intro hmem
  obtain ⟨c, hc, hmem⟩ := List.mem_flatMap.mp hmem
  obtain ⟨lc, hlc, hmem⟩ := List.mem_flatMap.mp hmem
  split_ifs at hmem
  · cases hmem
  · exact absurd hmem (by decide)
  · rw [← List.mem_singleton.mp hmem] at hlc
    rw [hT c hlc] at hc
    exact h hc

/-- Both arenas of any names without a NUL, opened, are read alike by `get`, by a reader and by a
walk.  No character but a NUL lowercases to one. -/
theorem names_read_alike (T : CaseTable) (hT : ∀ c, '\x00' ∈ T.lower c → c = '\x00')
    (names : List (List Char)) (hnul : ∀ name ∈ names, '\x00' ∉ name) (hrows : names.length < 2 ^ 32) :
    ∃ spelled folded : NameArena,
      open_ (NameWriter.write T names).finish = some spelled ∧
      open_ (NameWriter.write T names).finishFolded = some folded ∧
      ReadsAlike spelled (names.map utf8) ∧
      ReadsAlike folded (names.map fun name => Folded.foldBytes T (utf8 name)) := by
  have hspelled := open_pack (names.map utf8) (by rwa [List.length_map])
  have hfolded := open_pack (names.map fun name => Folded.foldBytes T (utf8 name))
    (by rwa [List.length_map])
  rw [List.length_map] at hspelled hfolded
  refine ⟨_, _, ?_, ?_, reads_ofNames ?_ ?_, reads_ofNames ?_ ?_⟩
  · rw [write_eq]
    exact hspelled
  · rw [write_eq]
    exact hfolded
  · intro s hs h0
    obtain ⟨name, hname, rfl⟩ := List.mem_map.mp hs
    exact hnul name hname ((nul_mem_utf8 name).mp h0)
  · intro s hs
    obtain ⟨name, -, rfl⟩ := List.mem_map.mp hs
    exact ⟨name, rfl⟩
  · intro s hs h0
    obtain ⟨name, hname, rfl⟩ := List.mem_map.mp hs
    obtain ⟨ds, hds, htext⟩ := Folded.foldBytes_text T name
    rw [htext, nul_mem_utf8] at h0
    exact nul_notMem_fold hT (hnul name hname) (hds.subset h0)
  · intro s hs
    obtain ⟨name, -, rfl⟩ := List.mem_map.mp hs
    obtain ⟨ds, -, htext⟩ := Folded.foldBytes_text T name
    exact ⟨ds, htext.symm⟩

theorem asciiOnly_nul (c : Char) (h : '\x00' ∈ CaseTable.asciiOnly.lower c) : c = '\x00' := by
  have hlower : c.toLower = '\x00' := (List.mem_singleton.mp h).symm
  unfold Char.toLower at hlower
  split at hlower
  · rename_i hup
    exfalso
    have hval := congrArg Char.val hlower
    simp only at hval
    have h1 := UInt32.le_iff_toNat_le.mp hup.1
    have h2 := UInt32.le_iff_toNat_le.mp hup.2
    have h3 := congrArg UInt32.toNat hval
    rw [UInt32.toNat_add] at h3
    simp at h1 h2 h3
    omega
  · exact hlower

theorem names_read_alike_three : ∃ spelled folded : NameArena,
    open_ (NameWriter.write .asciiOnly [['B'], [], ['a', 'c']]).finish = some spelled ∧
    open_ (NameWriter.write .asciiOnly [['B'], [], ['a', 'c']]).finishFolded = some folded ∧
    ReadsAlike spelled ([['B'], [], ['a', 'c']].map utf8) ∧
    ReadsAlike folded ([['B'], [], ['a', 'c']].map fun name => Folded.foldBytes .asciiOnly (utf8 name)) :=
  names_read_alike .asciiOnly asciiOnly_nul [['B'], [], ['a', 'c']] (by decide) (by decide)

/-! ## Past 4 GiB -/

theorem offsetOf_replicate (x y : Str) {n row : ℕ} (h : row ≤ n) :
    offsetOf (List.replicate n x ++ [y]) row = row * (x.length + 1) := by
  unfold offsetOf startIn
  rw [List.take_append_of_le_length (by rwa [List.length_replicate]), List.take_replicate,
    Nat.min_eq_left h]
  clear h
  induction row with
  | zero => simp
  | succ row ih =>
    rw [List.replicate_succ, List.flatMap_cons, List.length_append, ih, List.length_append,
      List.length_singleton]
    rw [Nat.add_mul, Nat.one_mul, Nat.add_comm]

/-- The names of a full 4 GiB, and one more: the walk reads the last one, and `get` the first. -/
theorem wrapped {x y : Str} {n : ℕ} (hx : (0 : UInt8) ∉ x) (hy : (0 : UInt8) ∉ y)
    (hn : n * (x.length + 1) = 2 ^ 32) (hblock : n % BLOCK = 0) (hpos : 0 < n) :
    (ofNames (List.replicate n x ++ [y])).get n = fromUtf8 x ∧
      (ofNames (List.replicate n x ++ [y])).get (n - 1) = fromUtf8 x ∧
      ∀ (σ : Type) (f : σ → ℕ → Str → σ × Bool) (s : σ),
        (ofNames (List.replicate n x ++ [y])).walkRange f (n - 1) (n + 1) s =
          handed f s [(n - 1, x), (n, y)] := by
  have hB : BLOCK = 32 := rfl
  have hnul : ∀ s ∈ List.replicate n x ++ [y], (0 : UInt8) ∉ s := by
    intro s hs
    rcases List.mem_append.mp hs with hs | hs
    · rw [List.eq_of_mem_replicate hs]
      exact hx
    · rw [List.mem_singleton.mp hs]
      exact hy
  have hlen : (List.replicate n x ++ [y]).length = n + 1 := by
    rw [List.length_append, List.length_replicate, List.length_singleton]
  have hget : ∀ row, row < n → (List.replicate n x ++ [y])[row]? = some x := by
    intro row hrow
    rw [List.getElem?_append_left (by rwa [List.length_replicate]), List.getElem?_replicate,
      if_pos hrow]
  have hlast : (List.replicate n x ++ [y])[n]? = some y := by
    rw [List.getElem?_append_right (by rw [List.length_replicate]), List.length_replicate,
      Nat.sub_self]
    rfl
  have hsmall : offsetOf (List.replicate n x ++ [y]) ((n - 1) / BLOCK * BLOCK) < 2 ^ 32 := by
    rw [offsetOf_replicate x y (by rw [hB]; omega), ← hn]
    apply Nat.mul_lt_mul_of_pos_right
    · rw [hB]
      omega
    · omega
  refine ⟨?_, get_ofNames hnul (hget (n - 1) (by omega)) hsmall, ?_⟩
  · -- the offset of the last block is 0 in 32 bits
    have hstart : (ofNames (List.replicate n x ++ [y])).blockStart (n / BLOCK) = some 0 := by
      have hrow : n / BLOCK * BLOCK = n := by
        rw [hB] at hblock ⊢
        omega
      rw [blockStart_ofNames (by rw [hrow, hlen]; omega), hrow,
        offsetOf_replicate x y (le_refl n), hn]
      rfl
    obtain ⟨hend, htake⟩ := memchr_offset hnul (hget 0 hpos)
    have hzero : offsetOf (List.replicate n x ++ [y]) 0 = 0 := rfl
    rw [hzero] at hend htake
    have hrows : ¬ (ofNames (List.replicate n x ++ [y])).rows ≤ n := by
      show ¬ (List.replicate n x ++ [y]).length ≤ n
      omega
    have hend' : memchr (ofNames (List.replicate n x ++ [y])).bytes 0 = some x.length := hend
    unfold get
    rw [if_neg hrows, hstart, hblock]
    simp only [Option.bind_eq_bind, Option.bind_some, skip]
    rw [hend', Option.bind_some, memchr_some hend', Option.bind_some]
    exact congrArg fromUtf8 htake
  · intro σ f s
    rw [walkRange_ofNames f hnul s fun _ _ => hsmall]
    congr 1
    have htwo : n + 1 - (n - 1) = 2 := by omega
    have hsucc : n - 1 + 1 = n := by omega
    unfold rowsFrom
    rw [htwo]
    simp only [List.range'_succ, List.range'_zero, List.filterMap_cons, List.filterMap_nil, hsucc]
    rw [hget (n - 1) (by omega), hlast]
    rfl

/-- The file written for names that fill 4 GiB and one more, and what is read of it. -/
theorem walk_differs {x : List Char} {n : ℕ} (hxnul : '\x00' ∉ x) (hxlen : (utf8 x).length = 255)
    (hn : n * 256 = 2 ^ 32) :
    ∃ a, open_ (NameWriter.write .asciiOnly (List.replicate n x ++ [['b']])).finish = some a ∧
      a.walkRange (fun _ _ name => (name.length, true)) (n - 1) (n + 1) 0 = 1 ∧
      handed (fun _ _ name => (name.length, true)) 0 (a.rowsRead (n - 1) (n + 1)) = 255 := by
  have hmap : (List.replicate n x ++ [['b']]).map utf8 = List.replicate n (utf8 x) ++ [utf8 ['b']] := by
    rw [List.map_append, List.map_replicate]
    rfl
  have hlen : (List.replicate n (utf8 x) ++ [utf8 ['b']]).length = n + 1 := by
    rw [List.length_append, List.length_replicate, List.length_singleton]
  have hopen := open_pack (List.replicate n (utf8 x) ++ [utf8 ['b']]) (by rw [hlen]; omega)
  obtain ⟨hget, hbefore, hwalk⟩ := wrapped (x := utf8 x) (y := utf8 ['b']) (n := n)
    (fun h0 => hxnul ((nul_mem_utf8 x).mp h0)) (by decide) (by rw [hxlen]; exact hn)
    (by show n % 32 = 0; omega) (by omega)
  rw [fromUtf8_utf8] at hget hbefore
  have htwo : n + 1 - (n - 1) = 2 := by omega
  have hsucc : n - 1 + 1 = n := by omega
  refine ⟨ofNames (List.replicate n (utf8 x) ++ [utf8 ['b']]), ?_, ?_, ?_⟩
  · rw [hlen] at hopen
    rw [write_eq, hmap, List.length_append, List.length_replicate, List.length_singleton]
    exact hopen
  · rw [hwalk]
    rfl
  · unfold rowsRead
    rw [htwo]
    simp only [List.range'_succ, List.range'_zero, List.filterMap_cons, List.filterMap_nil, hsucc, hget,
      hbefore, Option.map_some, handed, if_true, hxlen]

/-- 2^24 names of 255 bytes fill 4 GiB: the row after them is walked by its own name, and got by
that of row 0. -/
theorem not_names_read_alike : ¬ ∀ names : List (List Char), (∀ name ∈ names, '\x00' ∉ name) →
    ∀ a, open_ (NameWriter.write .asciiOnly names).finish = some a →
    ∀ start stop (σ : Type) (f : σ → ℕ → Str → σ × Bool) (s : σ),
      a.walkRange f start stop s = handed f s (a.rowsRead start stop) := by
  intro h
  have hxnul : '\x00' ∉ List.replicate 255 'a' :=
    fun hm => absurd (List.eq_of_mem_replicate hm) (by decide)
  have hxlen : (utf8 (List.replicate 255 'a')).length = 255 := by
    have hascii : ∀ c ∈ List.replicate 255 'a', isAscii c = true := by
      intro c hc
      rw [List.eq_of_mem_replicate hc]
      decide
    rw [(Folded.asciiLower_utf8 .asciiOnly _ hascii).2, List.length_replicate]
  obtain ⟨n, hn⟩ : ∃ n, n * 256 = 2 ^ 32 := ⟨2 ^ 24, by decide⟩
  generalize List.replicate 255 'a' = x at hxnul hxlen
  have hnames : ∀ name ∈ List.replicate n x ++ [['b']], '\x00' ∉ name := by
    intro name hname
    rcases List.mem_append.mp hname with hname | hname
    · rwa [List.eq_of_mem_replicate hname]
    · rw [List.mem_singleton.mp hname]
      decide
  obtain ⟨a, ha, hwalk, hgot⟩ := walk_differs hxnul hxlen hn
  have hrun := h _ hnames a ha (n - 1) (n + 1) ℕ (fun _ _ name => (name.length, true)) 0
  rw [hwalk, hgot] at hrun
  exact absurd hrun (by decide)

end NameArena

end Scour
