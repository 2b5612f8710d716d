import Scour.CharBoundary
import Scour.Dirs
import Scour.Lib.Varint

/-!
# The directory table, as bytes

`encode` writes the sorted paths front-coded: a row is how many bytes it shares with the row before,
how many follow, and those; every `RESTART`-th shares none and its place is kept.  `RawTable` is what
a file holds of it, and `RawTable.lowerBound`, `exact` and `subtree` read it in place.

A place is kept in 32 bits.  Where they all fit (`Fits`), reading gives what the table of paths in
`Scour.Dirs` does: `get_encode`, `exact_encode`, `subtree_encode`.
-/

namespace Scour

open Search (Varint.put Varint.get)

/-! ## Distance -/

/-- A hidden or generated component counts for this many ordinary ones. -/
def AWAY : Nat := 3

/-- The most steps that can count. -/
def STEP_CAP : Nat := 60

/-- Directories whose contents were generated rather than written. -/
def GENERATED : List Str :=
  [str "target", str "build", str "out", str "dist", str "node_modules", str "vendor",
    str "__pycache__", str "site-packages", str "obj", str ".gradle", str "cmakefiles"]

def toAsciiLowercase (b : UInt8) : UInt8 := if 65 ≤ b ∧ b ≤ 90 then b + 32 else b

/-- What a component counts for. -/
def stepOf (part : Str) : Nat :=
  if part.head? = some 46 ∨ GENERATED.contains (part.map toAsciiLowercase) then AWAY else 1

def stepsLoop : List Str → Nat → Nat
  | [], steps => steps
  | part :: rest, steps =>
    if STEP_CAP ≤ steps + stepOf part then STEP_CAP else stepsLoop rest (steps + stepOf part)

/-- How far this directory is from being something the user wrote. -/
def stepsOf (dir : Str) : UInt8 :=
  UInt8.ofNat (stepsLoop ((dir.splitOn slash).filter fun part => !part.isEmpty) 0)

/-! ## Writing -/

/-- `u32::to_le_bytes` of `n as u32`. -/
def le32 (n : Nat) : Str :=
  [UInt8.ofNat n, UInt8.ofNat (n / 256), UInt8.ofNat (n / 65536), UInt8.ofNat (n / 16777216)]

/-- `u32::from_le_bytes`. -/
def fromLe32 : Str → Nat
  | [a, b, c, d] => a.toNat + 256 * b.toNat + 65536 * c.toNat + 16777216 * d.toNat
  | _ => 0

/-- How many bytes two texts begin with alike. -/
def commonBytes (a b : Str) : Nat := ((a.zip b).takeWhile fun p => p.1 == p.2).length

/-- The last boundary of `b` up to here. -/
def backOff (b : Str) : Nat → Nat
  | 0 => 0
  | n + 1 => if isCharBoundary b (n + 1) then n + 1 else backOff b n

/-- `common_prefix`: never splits a character. -/
def commonPrefix (a b : Str) : Nat := backOff b (min (min (commonBytes a b) a.length) b.length)

/-- What the writer has so far. -/
structure Written where
  rows : Str
  restarts : List Nat
  pens : Str

/-- How many bytes the row `i` shares with the one before. -/
def sharedAt (i : Nat) (previous path : Str) : Nat :=
  if i % RESTART = 0 then 0 else commonPrefix previous path

/-- One row. -/
def rowBytes (i : Nat) (previous path : Str) : Str :=
  Varint.put (UInt64.ofNat (sharedAt i previous path)) ++
    Varint.put (UInt64.ofNat (path.length - sharedAt i previous path)) ++
      path.drop (sharedAt i previous path)

def writeRows : Nat → Str → List Str → Written → Written
  | _, _, [], w => w
  | i, previous, path :: rest, w =>
    writeRows (i + 1) path rest
      { pens := w.pens ++ [stepsOf path]
        restarts := if i % RESTART = 0 then w.restarts ++ [w.rows.length] else w.restarts
        rows := w.rows ++ rowBytes i previous path }

/-- The sorted table: count, restart count, restart offsets, one distance byte a directory, then the
rows. -/
def encode (t : DirTable) : Str :=
  let w := writeRows 0 [] t.paths ⟨[], [], []⟩
  le32 t.paths.length ++ le32 w.restarts.length ++ w.restarts.flatMap le32 ++ w.pens ++ w.rows

/-! ## Reading -/

/-- A directory table, read in place out of a mapped file. -/
structure RawTable where
  count : Nat
  restarts : Str
  pens : Str
  rows : Str

namespace RawTable

def open_ (bytes : Str) : Option RawTable :=
  if bytes.length < 8 then none
  else
    let count := fromLe32 (bytes.take 4)
    let end_ := 8 + fromLe32 ((bytes.drop 4).take 4) * 4
    if bytes.length < end_ + count then none
    else some
      { count
        restarts := (bytes.take end_).drop 8
        pens := (bytes.take (end_ + count)).drop end_
        rows := bytes.drop (end_ + count) }

/-- How far this directory is from being something the user wrote: read, not computed. -/
def steps (r : RawTable) (id : Nat) : UInt8 := r.pens[id]?.getD 0

/-- `slice.get(at..at + n)`. -/
def slice (s : Str) (at_ n : Nat) : Option Str :=
  if at_ + n ≤ s.length then some ((s.drop at_).take n) else none

def restartAt (r : RawTable) (block : Nat) : Option Nat :=
  (slice r.restarts (block * 4) 4).map fromLe32

/-- The row at `at_`: where the next one is, how much is shared, and what follows. -/
def nextRow (r : RawTable) (at_ : Nat) : Option (Nat × Nat × Str) :=
  if r.rows.length < at_ then none
  else (Varint.get (r.rows.drop at_)).bind fun shared =>
    (Varint.get (r.rows.drop (at_ + shared.2))).bind fun rest =>
      (slice r.rows (at_ + shared.2 + rest.2) rest.1.toNat).map fun bytes =>
        (at_ + shared.2 + rest.2 + rest.1.toNat, shared.1.toNat, bytes)

/-- The rows up to the one asked for, into a buffer.  `String::truncate` panics inside a
character. -/
def getLoop (r : RawTable) : Nat → Nat → Str → Option Str
  | 0, _, path => some path
  | n + 1, at_, path =>
    (r.nextRow at_).bind fun row =>
      if !isCharBoundary path row.2.1 && row.2.1 ≤ path.length then none
      else (fromUtf8 row.2.2).bind fun _ =>
        r.getLoop n row.1 (path.take row.2.1 ++ row.2.2)

/-- The path with this number. -/
def get (r : RawTable) (id : Nat) : Option Str :=
  if r.count ≤ id then none
  else (r.restartAt (id / RESTART)).bind fun at_ => r.getLoop (id % RESTART + 1) at_ []

/-- The path stored at a restart. -/
def restartBytes (r : RawTable) (block : Nat) : Option Str :=
  (r.restartAt block).bind fun at_ => (r.nextRow at_).map fun row => row.2.2

/-- The rows of one block, until one is not less than `pfx`. -/
def walkBlock (r : RawTable) (pfx : Str) (first : Nat) : Nat → Nat → Nat → Str → Nat
  | 0, _, _, _ => min (first + RESTART) r.count
  | n + 1, step, at_, path =>
    if r.count ≤ first + step then min (first + RESTART) r.count
    else match r.nextRow at_ with
      | none => min (first + RESTART) r.count
      | some (at_, shared, bytes) =>
        if pfx ≤ path.take shared ++ bytes then first + step
        else r.walkBlock pfx first n (step + 1) at_ (path.take shared ++ bytes)

/-- The first number whose path is not less than `pfx`. -/
def lowerBound (r : RawTable) (pfx : Str) : Nat :=
  if r.count = 0 then 0
  else
    let lo := Search.partitionPoint (r.restarts.length / 4) fun mid =>
      (r.restartBytes mid).any (· < pfx)
    match r.restartAt (lo - 1) with
    | none => r.count
    | some at_ => r.walkBlock pfx ((lo - 1) * RESTART) RESTART 0 at_ []

/-- The number of exactly this path, if the table holds it. -/
def exact (r : RawTable) (path : Str) : Option Nat :=
  let path := trimEnd path
  let at_ := r.lowerBound path
  if r.get at_ = some path then some at_ else none

/-- Every directory number at or beneath `pfx`. -/
def subtree (r : RawTable) (pfx : Str) : DirScope :=
  let pfx := trimEnd pfx
  let first := r.lowerBound (pfx ++ [slash])
  let last := r.lowerBound (pfx ++ [slash + 1])
  ⟨r.exact pfx, (first, max last first)⟩

end RawTable

/-! ## What was written -/

theorem fromLe32_le32 (n : Nat) : fromLe32 (le32 n) = n % 2 ^ 32 := by
  unfold le32 fromLe32
  simp only [UInt8.toNat_ofNat']
  omega

@[simp] theorem length_le32 (n : Nat) : (le32 n).length = 4 := rfl

theorem length_flatMap_le32 (xs : List Nat) : (xs.flatMap le32).length = xs.length * 4 := by
  induction xs with
  | nil => rfl
  | cons x xs ih =>
    rw [List.flatMap_cons, List.length_append, ih, length_le32, List.length_cons]
    omega

theorem slice_flatMap_le32 (xs : List Nat) (k : Nat) :
    RawTable.slice (xs.flatMap le32) (k * 4) 4 = xs[k]?.map le32 := by
  induction xs generalizing k with
  | nil =>
    unfold RawTable.slice
    rw [if_neg (by simp)]
    rfl
  | cons x xs ih =>
    cases k with
    | zero =>
      unfold RawTable.slice
      rw [if_pos (by simp), List.flatMap_cons, Nat.zero_mul, List.drop_zero,
        List.take_left' (length_le32 x)]
      rfl
    | succ k =>
      rw [List.getElem?_cons_succ, ← ih k]
      unfold RawTable.slice
      have hdrop : ((x :: xs).flatMap le32).drop ((k + 1) * 4) = (xs.flatMap le32).drop (k * 4) := by
        rw [List.flatMap_cons, show (k + 1) * 4 = (le32 x).length + k * 4 by
          rw [length_le32]; omega, List.drop_length_add_append]
      rw [hdrop, length_flatMap_le32, length_flatMap_le32, List.length_cons]
      by_cases h : k * 4 + 4 ≤ xs.length * 4
      · rw [if_pos h, if_pos (by omega)]
      · rw [if_neg h, if_neg (by omega)]

/-- The rows of these paths, the first of them the row `i`. -/
def rowsFrom : Nat → Str → List Str → Str
  | _, _, [] => []
  | i, previous, p :: ps => rowBytes i previous p ++ rowsFrom (i + 1) p ps

theorem rowsFrom_cons (i : Nat) (previous p : Str) (ps : List Str) :
    rowsFrom i previous (p :: ps) = rowBytes i previous p ++ rowsFrom (i + 1) p ps := rfl

/-- The places kept of them, when the first row stands at `at_`. -/
def restartsFrom : Nat → Str → List Str → Nat → List Nat
  | _, _, [], _ => []
  | i, previous, p :: ps, at_ =>
    if i % RESTART = 0 then
      at_ :: restartsFrom (i + 1) p ps (at_ + (rowBytes i previous p).length)
    else restartsFrom (i + 1) p ps (at_ + (rowBytes i previous p).length)

theorem writeRows_eq (ps : List Str) :
    ∀ (i : Nat) (previous : Str) (w : Written), writeRows i previous ps w =
      { rows := w.rows ++ rowsFrom i previous ps
        restarts := w.restarts ++ restartsFrom i previous ps w.rows.length
        pens := w.pens ++ ps.map stepsOf } := by
  induction ps with
  | nil => intro i previous w; simp [writeRows, rowsFrom, restartsFrom]
  | cons p ps ih =>
    intro i previous w
    unfold writeRows rowsFrom restartsFrom
    rw [ih]
    split <;> simp

/-- Where the row `n` stands. -/
def offset (ps : List Str) (n : Nat) : Nat := (rowsFrom 0 [] (ps.take n)).length

/-- The path before this one, empty before the first. -/
def before (ps : List Str) (n : Nat) : Str := ([] :: ps).getD n []

theorem rowsFrom_split (n : Nat) :
    ∀ (i : Nat) (previous : Str) (ps : List Str), n ≤ ps.length →
      rowsFrom i previous ps =
        rowsFrom i previous (ps.take n) ++
          rowsFrom (i + n) ((previous :: ps).getD n []) (ps.drop n) := by
  induction n with
  | zero => intro i previous ps _; rfl
  | succ n ih =>
    intro i previous ps hn
    cases ps with
    | nil => simp at hn
    | cons p ps =>
      rw [List.take_succ_cons, List.drop_succ_cons, List.getD_cons_succ, rowsFrom_cons,
        rowsFrom_cons, ih (i + 1) p ps (by simpa using hn), List.append_assoc,
        Nat.add_right_comm i 1 n]
      rfl

theorem getElem?_restartsFrom (ps : List Str) :
    ∀ (i k at_ : Nat) (previous : Str), (restartsFrom i previous ps at_)[k]? =
      if (i + (RESTART - 1)) / RESTART * RESTART + k * RESTART - i < ps.length then
        some (at_ + (rowsFrom i previous
          (ps.take ((i + (RESTART - 1)) / RESTART * RESTART + k * RESTART - i))).length)
      else none := by
  have hR : RESTART = 16 := rfl
  induction ps with
  | nil => intro i k at_ previous; simp [restartsFrom]
  | cons p ps ih =>
    intro i k at_ previous
    unfold restartsFrom
    by_cases hi : i % RESTART = 0
    · rw [if_pos hi]
      cases k with
      | zero =>
        have hzero : (i + (RESTART - 1)) / RESTART * RESTART + 0 * RESTART - i = 0 := by
          rw [hR] at hi ⊢
          omega
        rw [List.getElem?_cons_zero, hzero, if_pos (by simp)]
        rfl
      | succ k =>
        have hstep : (i + (RESTART - 1)) / RESTART * RESTART + (k + 1) * RESTART - i =
            (i + 1 + (RESTART - 1)) / RESTART * RESTART + k * RESTART - (i + 1) + 1 := by
          rw [hR] at hi ⊢
          omega
        rw [List.getElem?_cons_succ, ih, hstep, List.length_cons, List.take_succ_cons]
        simp only [Nat.add_lt_add_iff_right, rowsFrom, List.length_append, Nat.add_assoc]
    · rw [if_neg hi, ih]
      have hstep : (i + (RESTART - 1)) / RESTART * RESTART + k * RESTART - i =
          (i + 1 + (RESTART - 1)) / RESTART * RESTART + k * RESTART - (i + 1) + 1 := by
        rw [hR] at hi ⊢
        omega
      rw [hstep, List.length_cons, List.take_succ_cons]
      simp only [Nat.add_lt_add_iff_right, rowsFrom, List.length_append, Nat.add_assoc]

/-- The place of every sixteenth row is kept. -/
theorem getElem?_restarts (ps : List Str) (k : Nat) :
    (restartsFrom 0 [] ps 0)[k]? =
      if k * RESTART < ps.length then some (offset ps (k * RESTART)) else none := by
  have hR : RESTART = 16 := rfl
  rw [getElem?_restartsFrom]
  have hk : (0 + (RESTART - 1)) / RESTART * RESTART + k * RESTART - 0 = k * RESTART := by
    rw [hR]
    omega
  rw [hk, Nat.zero_add]
  rfl

theorem length_restarts (ps : List Str) :
    (restartsFrom 0 [] ps 0).length = (ps.length + (RESTART - 1)) / RESTART := by
  have hR : RESTART = 16 := rfl
  have hiff : ∀ k, k < (restartsFrom 0 [] ps 0).length ↔ k * RESTART < ps.length := by
    intro k
    have hnone := getElem?_restarts ps k
    by_cases hk : k * RESTART < ps.length
    · rw [if_pos hk] at hnone
      exact iff_of_true (List.getElem?_eq_some_iff.mp hnone).1 hk
    · rw [if_neg hk] at hnone
      exact iff_of_false (Nat.not_lt.mpr (List.getElem?_eq_none_iff.mp hnone)) hk
  have h₁ := hiff (restartsFrom 0 [] ps 0).length
  have h₂ := hiff ((restartsFrom 0 [] ps 0).length - 1)
  rw [hR] at h₁ h₂ ⊢
  omega

/-! ## What is read -/

/-- The places the table keeps fit in 32 bits, and no path is longer than a `usize`. -/
structure Fits (ps : List Str) : Prop where
  places : ∀ k, k * RESTART < ps.length → offset ps (k * RESTART) < 2 ^ 32
  sizes : ∀ p ∈ ps, p.length < 2 ^ 64

/-- What `open_` finds in an encoded table. -/
def opened (ps : List Str) : RawTable :=
  { count := ps.length
    restarts := (restartsFrom 0 [] ps 0).flatMap le32
    pens := ps.map stepsOf
    rows := rowsFrom 0 [] ps }

variable {ps : List Str} {n : Nat} {p path : Str}

theorem offset_succ (h : ps[n]? = some p) :
    offset ps (n + 1) = offset ps n + (rowBytes n (before ps n) p).length := by
  obtain ⟨hn, hp⟩ := List.getElem?_eq_some_iff.mp h
  unfold offset
  have hsplit := rowsFrom_split n 0 [] (ps.take (n + 1)) (by rw [List.length_take]; omega)
  have htake : (ps.take (n + 1)).take n = ps.take n := by rw [List.take_take]; congr 1; omega
  have hdrop : (ps.take (n + 1)).drop n = [p] := by
    rw [List.drop_take, show n + 1 - n = 1 by omega, List.drop_eq_getElem_cons hn, hp]
    rfl
  have hbefore : ([] :: ps.take (n + 1)).getD n [] = before ps n := by
    unfold before
    cases n with
    | zero => rfl
    | succ n => rw [List.getD_cons_succ, List.getD_cons_succ, List.getD_eq_getElem?_getD,
        List.getD_eq_getElem?_getD, List.getElem?_take_of_lt (by omega)]
  rw [hsplit, htake, hdrop, hbefore, Nat.zero_add, List.length_append, rowsFrom_cons,
    List.length_append]
  rfl

theorem drop_rows (h : ps[n]? = some p) :
    offset ps n ≤ (rowsFrom 0 [] ps).length ∧
      ∃ tail, (rowsFrom 0 [] ps).drop (offset ps n) = rowBytes n (before ps n) p ++ tail := by
  obtain ⟨hn, hp⟩ := List.getElem?_eq_some_iff.mp h
  have hsplit := rowsFrom_split n 0 [] ps (by omega)
  rw [Nat.zero_add, List.drop_eq_getElem_cons hn, hp, rowsFrom_cons] at hsplit
  constructor
  · rw [hsplit, List.length_append]
    exact Nat.le_add_right _ _
  · rw [hsplit]
    exact ⟨_, List.drop_left⟩

theorem le_offset : n ≤ ps.length → 2 * n ≤ offset ps n := by
  induction n with
  | zero => exact fun _ => Nat.zero_le _
  | succ n ih =>
    intro hn
    have hget : ps[n]? = some ps[n] := List.getElem?_eq_getElem (by omega)
    have := ih (by omega)
    have hput : ∀ v, 0 < (Varint.put v).length :=
      fun v => List.length_pos_iff.mpr (Search.Varint.putLoop_ne_nil 9 v)
    have h₁ := hput (UInt64.ofNat (sharedAt n (before ps n) ps[n]))
    have h₂ := hput (UInt64.ofNat (ps[n].length - sharedAt n (before ps n) ps[n]))
    rw [offset_succ hget]
    unfold rowBytes
    rw [List.length_append, List.length_append]
    omega

theorem Fits.count_lt (h : Fits ps) : ps.length < 2 ^ 32 := by
  have hR : RESTART = 16 := rfl
  rcases Nat.eq_zero_or_pos ps.length with h0 | hpos
  · omega
  have hk : (ps.length - 1) / RESTART * RESTART < ps.length := by rw [hR]; omega
  have hplace := h.places _ hk
  have hle := @le_offset ps ((ps.length - 1) / RESTART * RESTART) (by omega)
  rw [hR] at hk hplace hle
  omega

/-- **An encoded table opens** to its parts. -/
theorem open_encode (t : DirTable) (h : Fits t.paths) :
    RawTable.open_ (encode t) = some (opened t.paths) := by
  have hcount := h.count_lt
  have hrestarts : (restartsFrom 0 [] t.paths 0).length < 2 ^ 32 := by
    have hR : RESTART = 16 := rfl
    rw [length_restarts, hR]
    omega
  unfold encode opened
  dsimp only
  rw [writeRows_eq]
  dsimp only
  rw [List.nil_append, List.nil_append, List.nil_append, List.length_nil]
  generalize restartsFrom 0 [] t.paths 0 = restarts at hrestarts
  generalize rowsFrom 0 [] t.paths = rows
  generalize hpens : t.paths.map stepsOf = pens
  have hlen : pens.length = t.paths.length := by rw [← hpens, List.length_map]
  have hflat := length_flatMap_le32 restarts
  have hassoc : le32 t.paths.length ++ le32 restarts.length ++ restarts.flatMap le32 ++ pens ++ rows =
      le32 t.paths.length ++ (le32 restarts.length ++ (restarts.flatMap le32 ++ (pens ++ rows))) := by
    simp only [List.append_assoc]
  have htake : (le32 t.paths.length ++ le32 restarts.length ++ restarts.flatMap le32).length =
      8 + restarts.length * 4 := by
    rw [List.length_append, List.length_append, length_le32, length_le32, hflat]
  have hends : (le32 t.paths.length ++ le32 restarts.length ++ restarts.flatMap le32 ++ pens).length =
      8 + restarts.length * 4 + t.paths.length := by
    rw [List.length_append, htake, hlen]
  have hcnt : fromLe32 ((le32 t.paths.length ++ le32 restarts.length ++ restarts.flatMap le32 ++
      pens ++ rows).take 4) = t.paths.length := by
    rw [hassoc, List.take_left' (length_le32 _), fromLe32_le32, Nat.mod_eq_of_lt hcount]
  have hres : fromLe32 (((le32 t.paths.length ++ le32 restarts.length ++ restarts.flatMap le32 ++
      pens ++ rows).drop 4).take 4) = restarts.length := by
    rw [hassoc, List.drop_left' (length_le32 _), List.take_left' (length_le32 _), fromLe32_le32,
      Nat.mod_eq_of_lt hrestarts]
  unfold RawTable.open_
  dsimp only
  rw [hcnt, hres, if_neg (by rw [List.length_append, hends]; omega),
    if_neg (by rw [List.length_append, hends]; omega)]
  congr 2
  · rw [List.append_assoc _ pens rows, List.take_left' htake, List.drop_left' (by rfl)]
  · rw [List.take_left' hends, List.drop_left' htake]
  · rw [List.drop_left' hends]

/-! ## Rows -/

theorem backOff_spec (b : Str) (n : Nat) :
    backOff b n ≤ n ∧ isCharBoundary b (backOff b n) = true := by
  induction n with
  | zero => exact ⟨Nat.le_refl 0, rfl⟩
  | succ n ih =>
    unfold backOff
    split
    · rename_i h
      exact ⟨Nat.le_refl _, h⟩
    · exact ⟨by omega, ih.2⟩

theorem take_commonBytes : ∀ (a b : Str) (k : Nat), k ≤ commonBytes a b → a.take k = b.take k
  | [], b, k, h => by
    have : k = 0 := by simpa [commonBytes] using h
    rw [this]
    rfl
  | x :: a, [], k, h => by
    have : k = 0 := by simpa [commonBytes] using h
    rw [this]
    rfl
  | x :: a, y :: b, k, h => by
    unfold commonBytes at h
    rw [List.zip_cons_cons, List.takeWhile_cons] at h
    split at h
    · rename_i hxy
      cases k with
      | zero => rfl
      | succ k =>
        have hxy' : x = y := eq_of_beq hxy
        rw [List.take_succ_cons, List.take_succ_cons, hxy']
        congr 1
        exact take_commonBytes a b k (by unfold commonBytes; simpa using h)
    · have : k = 0 := by simpa using h
      rw [this]
      rfl

/-- What is shared is common to both, and cut at a boundary of the new path. -/
theorem commonPrefix_spec (a b : Str) :
    commonPrefix a b ≤ a.length ∧ commonPrefix a b ≤ b.length ∧
      a.take (commonPrefix a b) = b.take (commonPrefix a b) ∧
        isCharBoundary b (commonPrefix a b) = true := by
  unfold commonPrefix
  obtain ⟨hle, hboundary⟩ := backOff_spec b (min (min (commonBytes a b) a.length) b.length)
  exact ⟨by omega, by omega, take_commonBytes a b _ (by omega), hboundary⟩

theorem sharedAt_spec (n : Nat) (previous p : Str) :
    sharedAt n previous p ≤ p.length ∧ isCharBoundary p (sharedAt n previous p) = true ∧
      (n % RESTART = 0 → sharedAt n previous p = 0) ∧
        previous.take (sharedAt n previous p) = p.take (sharedAt n previous p) := by
  unfold sharedAt
  obtain ⟨-, hle, htake, hboundary⟩ := commonPrefix_spec previous p
  split
  · exact ⟨Nat.zero_le _, rfl, fun _ => rfl, rfl⟩
  · rename_i hn
    exact ⟨hle, hboundary, fun h => absurd h hn, htake⟩

/-- **A row is read where it stands**: what it shares, what follows, and where the next one is. -/
theorem nextRow_offset (hfits : Fits ps) (h : ps[n]? = some p) :
    (opened ps).nextRow (offset ps n) =
      some (offset ps (n + 1), sharedAt n (before ps n) p,
        p.drop (sharedAt n (before ps n) p)) := by
  obtain ⟨hle, tail, htail⟩ := drop_rows h
  have hsize : p.length < 2 ^ 64 := hfits.sizes p (List.mem_of_getElem? h)
  have hshared := (sharedAt_spec n (before ps n) p).1
  rw [offset_succ h]
  unfold rowBytes at htail ⊢
  generalize sharedAt n (before ps n) p = shared at hshared htail ⊢
  have h₁ : (UInt64.ofNat shared).toNat = shared := by rw [UInt64.toNat_ofNat']; omega
  have h₂ : (UInt64.ofNat (p.length - shared)).toNat = p.length - shared := by
    rw [UInt64.toNat_ofNat']; omega
  have hlen : (p.drop shared).length = p.length - shared := List.length_drop
  have htotal := congrArg List.length htail
  rw [List.length_drop] at htotal
  simp only [List.length_append] at htotal
  rw [List.append_assoc, List.append_assoc] at htail
  have hrest : (rowsFrom 0 [] ps).drop
      (offset ps n + (Varint.put (UInt64.ofNat shared)).length) =
        Varint.put (UInt64.ofNat (p.length - shared)) ++ (p.drop shared ++ tail) := by
    rw [← List.drop_drop, htail, List.drop_left]
  have hbytes : (rowsFrom 0 [] ps).drop
      (offset ps n + (Varint.put (UInt64.ofNat shared)).length +
        (Varint.put (UInt64.ofNat (p.length - shared))).length) = p.drop shared ++ tail := by
    rw [← List.drop_drop, hrest, List.drop_left]
  unfold RawTable.nextRow RawTable.slice
  show (if (rowsFrom 0 [] ps).length < _ then none
    else (Varint.get ((rowsFrom 0 [] ps).drop _)).bind _) = _
  rw [if_neg (by omega), htail, Search.Varint.get_put, Option.bind_some]
  show ((Varint.get ((rowsFrom 0 [] ps).drop _)).bind _) = _
  rw [hrest, Search.Varint.get_put, Option.bind_some]
  show ((if _ ≤ (rowsFrom 0 [] ps).length then some (((rowsFrom 0 [] ps).drop _).take _)
    else none).map _) = _
  rw [hbytes, h₂, if_pos (by omega), List.take_left' hlen, Option.map_some, h₁]
  simp only [List.length_append, hlen, Option.some.injEq, Prod.mk.injEq, and_true]
  omega

/-! ## The buffer -/

/-- The buffer holds the path before, which the first row of a block does not need. -/
def Carries (ps : List Str) (n : Nat) (path : Str) : Prop := n % RESTART = 0 ∨ path = before ps n

theorem before_succ (h : ps[n]? = some p) : before ps (n + 1) = p := by
  unfold before
  rw [List.getD_cons_succ, List.getD_eq_getElem?_getD, h]
  rfl

/-- What a row shares and what follows make its path. -/
theorem carries_take (hc : Carries ps n path) :
    path.take (sharedAt n (before ps n) p) ++ p.drop (sharedAt n (before ps n) p) = p := by
  obtain ⟨-, -, hzero, htake⟩ := sharedAt_spec n (before ps n) p
  rcases hc with h | rfl
  · rw [hzero h]
    rfl
  · rw [htake, List.take_append_drop]

@[simp] theorem count_opened (ps : List Str) : (opened ps).count = ps.length := rfl

theorem restartAt_opened (hfits : Fits ps) (k : Nat) :
    (opened ps).restartAt k =
      if k * RESTART < ps.length then some (offset ps (k * RESTART)) else none := by
  unfold RawTable.restartAt
  show (RawTable.slice ((restartsFrom 0 [] ps 0).flatMap le32) (k * 4) 4).map fromLe32 = _
  rw [slice_flatMap_le32, getElem?_restarts]
  split
  · rename_i h
    rw [Option.map_some, Option.map_some, fromLe32_le32, Nat.mod_eq_of_lt (hfits.places k h)]
  · rfl

/-- Nothing is cut inside a character: neither the buffer nor what follows. -/
theorem row_text (hfits : Fits ps) (htext : ∀ p ∈ ps, IsText p) (h : ps[n]? = some p)
    (hc : Carries ps n path) (ht : IsText path) :
    ∃ cs, (opened ps).nextRow (offset ps n) =
        some (offset ps (n + 1), sharedAt n (before ps n) p, utf8 cs) ∧
      path.take (sharedAt n (before ps n) p) ++ utf8 cs = p ∧
      (!isCharBoundary path (sharedAt n (before ps n) p) &&
        decide (sharedAt n (before ps n) p ≤ path.length)) = false := by
  have hp : IsText p := htext p (List.mem_of_getElem? h)
  obtain ⟨hle, hboundary, hzero, htake⟩ := sharedAt_spec n (before ps n) p
  have hcut : isCharBoundary path (sharedAt n (before ps n) p) = true ∨
      path.length < sharedAt n (before ps n) p := by
    rcases hc with hn | rfl
    · rw [hzero hn]
      exact Or.inl rfl
    · exact boundary_of_take_eq ht hp htake hboundary
  obtain ⟨cs, hcs⟩ := (isText_of_boundary hp hboundary).2
  refine ⟨cs, ?_, ?_, ?_⟩
  · rw [nextRow_offset hfits h, hcs]
  · rw [hcs, carries_take hc]
  · rcases hcut with hcut | hcut
    · rw [hcut]
      rfl
    · rw [decide_eq_false (Nat.not_le.mpr hcut), Bool.and_false]

/-- A row read into the buffer leaves its path there. -/
theorem getLoop_succ (hfits : Fits ps) (htext : ∀ p ∈ ps, IsText p) (k : Nat)
    (h : ps[n]? = some p) (hc : Carries ps n path) (ht : IsText path) :
    (opened ps).getLoop (k + 1) (offset ps n) path = (opened ps).getLoop k (offset ps (n + 1)) p := by
  obtain ⟨cs, hrow, hpath, hcut⟩ := row_text hfits htext h hc ht
  rw [RawTable.getLoop, hrow, Option.bind_some]
  dsimp only
  rw [hcut, if_neg Bool.false_ne_true, fromUtf8_utf8, Option.bind_some, hpath]

theorem getLoop_opened (hfits : Fits ps) (htext : ∀ p ∈ ps, IsText p) (k : Nat) :
    ∀ (n : Nat) (path : Str), n + k < ps.length → Carries ps n path → IsText path →
      (opened ps).getLoop (k + 1) (offset ps n) path = ps[n + k]? := by
  induction k with
  | zero =>
    intro n path hn hc ht
    have hget : ps[n]? = some ps[n] := List.getElem?_eq_getElem hn
    rw [getLoop_succ hfits htext 0 hget hc ht, RawTable.getLoop, Nat.add_zero, hget]
  | succ k ih =>
    intro n path hn hc ht
    have hget : ps[n]? = some ps[n] := List.getElem?_eq_getElem (by omega)
    rw [getLoop_succ hfits htext (k + 1) hget hc ht,
      ih (n + 1) _ (by omega) (Or.inr (before_succ hget).symm) (htext _ (List.getElem_mem _)),
      Nat.add_right_comm n 1 k]
    rfl

/-- **Every path comes back.** -/
theorem get_opened (hfits : Fits ps) (htext : ∀ p ∈ ps, IsText p) (id : Nat) :
    (opened ps).get id = ps[id]? := by
  have hR : RESTART = 16 := rfl
  unfold RawTable.get
  by_cases hid : ps.length ≤ id
  · rw [count_opened, if_pos hid, List.getElem?_eq_none hid]
  · have hmod : id / RESTART * RESTART + id % RESTART = id := by rw [hR]; omega
    rw [count_opened, if_neg hid, restartAt_opened hfits, if_pos (by omega), Option.bind_some,
      getLoop_opened hfits htext _ _ [] (by omega) (Or.inl (Nat.mul_mod_left _ _)) ⟨[], rfl⟩, hmod]

theorem restartBytes_opened (hfits : Fits ps) (k : Nat) :
    (opened ps).restartBytes k = ps[k * RESTART]? := by
  unfold RawTable.restartBytes
  rw [restartAt_opened hfits]
  split
  · rename_i h
    have hget : ps[k * RESTART]? = some ps[k * RESTART] := List.getElem?_eq_getElem h
    have hzero := (sharedAt_spec (k * RESTART) (before ps (k * RESTART)) ps[k * RESTART]).2.2.1
      (Nat.mul_mod_left k RESTART)
    rw [Option.bind_some, nextRow_offset hfits hget, Option.map_some, hzero, hget]
    rfl
  · rename_i h
    rw [List.getElem?_eq_none (Nat.le_of_not_lt h)]
    rfl

/-- The walk of a block finds the first path that is not less. -/
theorem walkBlock_opened (hfits : Fits ps) (pfx : Str) (first : Nat) (k : Nat) :
    ∀ (step : Nat) (path : Str), Carries ps (first + step) path →
      (opened ps).walkBlock pfx first k step (offset ps (first + step)) path =
        match (List.range' step k).find? fun s => (ps[first + s]?).any (pfx ≤ ·) with
        | some s => first + s
        | none => min (first + RESTART) ps.length := by
  induction k with
  | zero => intro step path _; rfl
  | succ k ih =>
    intro step path hc
    rw [List.range'_succ]
    unfold RawTable.walkBlock
    rw [count_opened]
    by_cases hend : ps.length ≤ first + step
    · -- past the last row nothing is found
      rw [if_pos hend, List.find?_eq_none.mpr ?_]
      intro s hs
      have hle : step ≤ s := by
        rw [← List.range'_succ, List.mem_range'_1] at hs
        exact hs.1
      rw [List.getElem?_eq_none (by omega)]
      exact Bool.false_ne_true
    · have hget : ps[first + step]? = some ps[first + step] :=
        List.getElem?_eq_getElem (by omega)
      rw [if_neg hend, nextRow_offset hfits hget]
      dsimp only
      rw [carries_take hc]
      by_cases hle : pfx ≤ ps[first + step]
      · rw [if_pos hle, List.find?_cons_of_pos (by rw [hget]; simpa using hle)]
      · rw [if_neg hle, List.find?_cons_of_neg (by rw [hget]; simpa using hle)]
        exact ih (step + 1) _ (Or.inr (before_succ hget).symm)

/-- **The search in place is the search of the table of paths.** -/
theorem lowerBound_opened (hfits : Fits ps) (pfx : Str) :
    (opened ps).lowerBound pfx = DirTable.lowerBound ⟨ps⟩ pfx := by
  have hR : RESTART = 16 := rfl
  unfold RawTable.lowerBound DirTable.lowerBound
  rw [count_opened]
  by_cases hzero : ps.length = 0
  · rw [if_pos hzero, if_pos hzero]
  rw [if_neg hzero, if_neg hzero]
  have hblocks : (opened ps).restarts.length / 4 = (ps.length + (RESTART - 1)) / RESTART := by
    show ((restartsFrom 0 [] ps 0).flatMap le32).length / 4 = _
    rw [length_flatMap_le32, length_restarts]
    omega
  have hprobe : (fun mid => ((opened ps).restartBytes mid).any (· < pfx)) =
      fun mid => ((⟨ps⟩ : DirTable).restartBytes mid).any (· < pfx) := by
    funext mid
    rw [restartBytes_opened hfits]
    rfl
  dsimp only
  rw [hblocks, hprobe]
  generalize hlo : Search.partitionPoint ((ps.length + (RESTART - 1)) / RESTART)
    (fun mid => ((⟨ps⟩ : DirTable).restartBytes mid).any (· < pfx)) = lo
  have hle : lo ≤ (ps.length + (RESTART - 1)) / RESTART := by
    rw [← hlo]
    exact Search.partitionLoop_le _ _ 0 _ (Nat.zero_le _)
  have hfirst : (lo - 1) * RESTART < ps.length := by
    rw [hR] at hle ⊢
    omega
  have hwalk := walkBlock_opened hfits pfx ((lo - 1) * RESTART) RESTART 0 []
    (Or.inl (Nat.mul_mod_left _ _))
  rw [Nat.add_zero, ← List.range_eq_range'] at hwalk
  rw [restartAt_opened hfits, if_pos hfirst]
  dsimp only
  rewrite [hwalk]
  cases (List.range RESTART).find? fun s => (ps[(lo - 1) * RESTART + s]?).any (pfx ≤ ·) with
  | some s => rfl
  | none => rfl

theorem exact_opened (hfits : Fits ps) (htext : ∀ p ∈ ps, IsText p) (path : Str) :
    (opened ps).exact path = DirTable.exact ⟨ps⟩ path := by
  unfold RawTable.exact DirTable.exact DirTable.get
  dsimp only
  rw [lowerBound_opened hfits, get_opened hfits htext]

theorem subtree_opened (hfits : Fits ps) (htext : ∀ p ∈ ps, IsText p) (pfx : Str) :
    (opened ps).subtree pfx = DirTable.subtree ⟨ps⟩ pfx := by
  unfold RawTable.subtree DirTable.subtree
  dsimp only
  rw [lowerBound_opened hfits, lowerBound_opened hfits, exact_opened hfits htext]

end Scour
