import Scour.Dirs
import Scour.Entry
import Scour.Lib.MergeJoin

/-!
# A segment: `build` and the reader over it

The parts of a segment as the readers decode them: the spelled names, the columns of each row, the
directory table and the identity table.  `buildSorted` is the two passes of `build_sorted` over
entries already in the stored order, `build` sorts them first.

A row read back is the entry that went in (`buildSorted_entry`), and the identity table finds it
under the key of its path (`mem_rowsFor_iff`).  The parts that serve searches only, the trigrams,
the folded names and the stored row orders, are represented by the rows they are computed from.
-/

namespace Scour

instance linearOrderUInt32 : LinearOrder UInt32 where
  le_refl := UInt32.le_refl
  le_trans _ _ _ := UInt32.le_trans
  le_antisymm _ _ := UInt32.le_antisymm
  le_total := UInt32.le_total
  lt_iff_le_not_ge a b := by
    rw [UInt32.lt_iff_toNat_lt, UInt32.le_iff_toNat_le, UInt32.le_iff_toNat_le]
    omega
  toDecidableLE := inferInstance
  toDecidableLT := inferInstance
  toDecidableEq := inferInstance

/-- Rows per block: the unit the zone map skips whole. -/
def BLOCK : Nat := 32

/-- The columns. -/
inductive Field where
  | dirId | size | mtime | ctime | atime | mode | uid | gid | disk | items | isDir | source | links
deriving DecidableEq

/-- One row of every column. -/
abbrev Columns := Field → Int

/-- The parts a search reads and no write does. -/
inductive Derived where
  | tgrams | tpost | fnames | porder | norder | eorder
deriving DecidableEq

/-- The persisted row orders, which a segment may be without. -/
def Derived.isOrder : Derived → Bool
  | .porder | .norder | .eorder => true
  | .tgrams | .tpost | .fnames => false

/-- The files of a segment, besides which of its rows are live. -/
structure Segment where
  names : List Str
  cols : List Columns
  dirs : DirTable
  ids : List (UInt32 × Nat)
  /-- The rows each of the other parts was computed from, where the segment has the part. -/
  derived : Derived → Option (List Entry)

/-- The blobs a segment consists of. -/
structure SegmentBytes where
  seg : Segment
  alive : List Bool

/-! ## Building -/

/-- The columns of an entry whose directory has this number. -/
def columnsOf (dir : Nat) (e : Entry) : Columns
  | .dirId => dir
  | .size => e.info.size
  | .mtime => e.info.mtime
  | .ctime => e.info.ctime
  | .atime => e.info.atime
  | .mode => e.info.mode
  | .uid => e.info.uid
  | .gid => e.info.gid
  | .disk => e.info.disk
  | .items => e.info.items
  | .isDir => if e.isDir then 1 else 0
  | .source => e.source.toNat
  | .links => max e.info.links 1

/-- `Entry::parent`. -/
def Entry.parent (e : Entry) : Str := (splitPath e.path.bytes).1

/-- `Entry::name`. -/
def Entry.name (e : Entry) : Str := (splitPath e.path.bytes).2

/-- The order of the identity table: by hash then row. -/
def idLe (a b : UInt32 × Nat) : Prop := a.1 < b.1 ∨ (a.1 = b.1 ∧ a.2 ≤ b.2)

instance : DecidableRel idLe := fun a b => by unfold idLe; infer_instance

/-- `IdWriter`: every row under the key of its path, sorted. -/
def writeIds (es : List Entry) : List (UInt32 × Nat) :=
  (es.zipIdx.map fun (e, i) => (keyOf e.source e.path.bytes, i)).insertionSort idLe

/-- Build a segment from entries already in the stored order. -/
def buildSorted (es : List Entry) : SegmentBytes :=
  let (w, dirOf) := DirWriter.empty.internAll (es.map Entry.parent)
  let (table, remap) := w.finish
  -- `intern` hands out provisional numbers; the table is sorted when written
  let dirOf := dirOf.map fun id => remap.getD id 0
  { seg :=
      { names := es.map Entry.name
        cols := List.zipWith columnsOf dirOf es
        dirs := table
        ids := writeIds es
        -- four bytes a row: the order of no rows is no file
        derived := fun d => if d.isOrder && es.isEmpty then none else some es }
    -- every row starts alive
    alive := List.replicate es.length true }

/-- The stored order: newest first, the path breaking ties. -/
def storedLe (a b : Entry) : Prop :=
  b.info.mtime < a.info.mtime ∨ (a.info.mtime = b.info.mtime ∧ a.path.bytes ≤ b.path.bytes)

instance : DecidableRel storedLe := fun a b => by unfold storedLe; infer_instance

/-- Build a segment from entries, in any order. -/
def build (es : List Entry) : SegmentBytes := buildSorted (es.insertionSort storedLe)

/-! ## Reading -/

namespace Segment

def rows (s : Segment) : Nat := s.names.length

def num (s : Segment) (f : Field) (row : Nat) : Int :=
  match s.cols[row]? with
  | some c => c f
  | none => 0

/-- Which directory a row lives in. -/
def dirId (s : Segment) (row : Nat) : Nat := (s.num .dirId row).toNat

def sourceOf (s : Segment) (row : Nat) : SourceId := UInt32.ofNat (s.num .source row).toNat

/-- The directory a row lives in, empty where the table does not hold it. -/
def dirOf (s : Segment) (row : Nat) : Str := (s.dirs.get (s.dirId row)).getD []

/-- The full path of a row: its directory joined to its name. -/
def path (s : Segment) (row : Nat) (name : Str) : Str := joinPath (s.dirOf row) name

def infoOf (s : Segment) (row : Nat) : Meta where
  size := s.num .size row
  mtime := s.num .mtime row
  ctime := s.num .ctime row
  atime := s.num .atime row
  mode := s.num .mode row
  uid := s.num .uid row
  gid := s.num .gid row
  disk := s.num .disk row
  items := s.num .items row
  links := max (s.num .links row) 1
  named := le_max_right _ _

/-- Reconstruct a whole entry.  Nothing where the bytes read back are not a path, which no
segment `build` wrote holds. -/
def entry (s : Segment) (row : Nat) : Option Entry :=
  match s.names[row]? with
  | none => none
  | some name =>
      if h : isPath (s.path row name) = true then
        some ⟨s.sourceOf row, ⟨s.path row name, h⟩, s.num .isDir row != 0, s.infoOf row⟩
      else none

/-- Is this row the entry at `path`, exactly?  The confirmation behind every probe of the identity
table, whose key is half a digest. -/
def isAt (s : Segment) (row : Nat) (source : SourceId) (path : Str) : Bool :=
  let (parent, name) := splitPath path
  s.sourceOf row == source && s.names[row]? == some name && s.dirOf row == parent

/-- Does this row already say exactly what an entry says?  `atime` moves on a read. -/
def sameMeta (s : Segment) (row : Nat) (info : Meta) (isDir : Bool) : Bool :=
  s.num .size row == info.size && s.num .mtime row == info.mtime && s.num .ctime row == info.ctime
    && s.num .mode row == info.mode && s.num .uid row == info.uid && s.num .gid row == info.gid
    && (s.num .isDir row != 0) == isDir

/-- `ColumnBlocks::block_range`: the least and the greatest value of one block of a column. -/
def blockRange (s : Segment) (f : Field) (block : Nat) : Option (Int × Int) :=
  match ((s.cols.drop (block * BLOCK)).take BLOCK).map (· f) with
  | [] => none
  | v :: vs => some (vs.foldl min v, vs.foldl max v)

/-- The loop over the blocks of a segment: the rows that pass, in the blocks not skipped whole. -/
def scanBlocks (rows : Nat) (skips : Nat → Bool) (p : Nat → Bool) : List Nat :=
  (List.range ((rows + (BLOCK - 1)) / BLOCK)).flatMap fun block =>
    if skips block then []
    else
      let start := block * BLOCK
      let stop := min (start + BLOCK) rows
      (List.range' start (stop - start)).filter p

/-- `IdMap::rows_for`: rows that might hold the path with this key. -/
def rowsFor (s : Segment) (want : UInt32) : List Nat :=
  let lo := Search.partitionPoint s.ids.length fun i => (s.ids[i]?).any (·.1 < want)
  ((s.ids.drop lo).takeWhile (·.1 == want)).map (·.2)

/-- Every row, decoded. -/
def table (s : Segment) : List Entry := (List.range s.rows).filterMap s.entry

end Segment

/-! ## What `build` writes is what is read -/

section built
variable (es : List Entry)

@[simp] theorem buildSorted_rows : (buildSorted es).seg.rows = es.length := by
  simp [buildSorted, Segment.rows]

@[simp] theorem buildSorted_alive : (buildSorted es).alive = List.replicate es.length true := rfl

theorem buildSorted_dirs_sorted : (buildSorted es).seg.dirs.Sorted :=
  DirWriter.finish_sorted _
    (DirWriter.internAll_spec (es.map Entry.parent) DirWriter.empty List.nodup_nil).1

theorem mem_buildSorted_dirs (q : Str) :
    q ∈ (buildSorted es).seg.dirs.paths ↔ ∃ e ∈ es, e.parent = q := by
  have := (DirWriter.internAll_spec (es.map Entry.parent) DirWriter.empty List.nodup_nil).2.2.2.2 q
  show q ∈ (DirWriter.finish _).1.paths ↔ _
  rw [DirWriter.mem_finish, this]
  simp [DirWriter.empty]

variable {es} {i : Nat} {e : Entry} (hi : es[i]? = some e)
include hi

theorem buildSorted_cols :
    ∃ dir, (buildSorted es).seg.cols[i]? = some (columnsOf dir e) ∧
      (buildSorted es).seg.dirs.paths[dir]? = some e.parent := by
  obtain ⟨-, -, -, hget, -⟩ :=
    DirWriter.internAll_spec (es.map Entry.parent) DirWriter.empty List.nodup_nil
  obtain ⟨id, h1, h2⟩ := hget i e.parent (by simp [hi])
  refine ⟨_, ?_, DirWriter.finish_remap _ id e.parent h2⟩
  show (List.zipWith columnsOf _ es)[i]? = _
  rw [List.getElem?_zipWith, List.getElem?_map, h1, hi]
  rfl

theorem buildSorted_num (f : Field) (hf : f ≠ .dirId) :
    (buildSorted es).seg.num f i = columnsOf 0 e f := by
  obtain ⟨dir, hc, -⟩ := buildSorted_cols hi
  unfold Segment.num
  rw [hc]
  cases f <;> first | rfl | exact absurd rfl hf

theorem buildSorted_dirId :
    (buildSorted es).seg.dirs.paths[(buildSorted es).seg.dirId i]? = some e.parent := by
  obtain ⟨dir, hc, hd⟩ := buildSorted_cols hi
  have : (buildSorted es).seg.dirId i = dir := by
    simp [Segment.dirId, Segment.num, hc, columnsOf]
  rw [this, hd]

theorem buildSorted_num_dirId : 0 ≤ (buildSorted es).seg.num .dirId i := by
  obtain ⟨dir, hc, -⟩ := buildSorted_cols hi
  simp [Segment.num, hc, columnsOf]

theorem buildSorted_dirOf : (buildSorted es).seg.dirOf i = e.parent := by
  unfold Segment.dirOf DirTable.get
  rw [buildSorted_dirId hi]
  rfl

theorem buildSorted_name : (buildSorted es).seg.names[i]? = some e.name := by
  show (es.map Entry.name)[i]? = _
  simp [hi]

theorem buildSorted_sourceOf : (buildSorted es).seg.sourceOf i = e.source := by
  unfold Segment.sourceOf
  rw [buildSorted_num hi .source (by decide)]
  simp [columnsOf]

/-- A row read back is the entry that went in. -/
theorem buildSorted_entry : (buildSorted es).seg.entry i = some e := by
  have hp : (buildSorted es).seg.path i e.name = e.path.bytes := by
    unfold Segment.path
    rw [buildSorted_dirOf hi]
    exact joinPath_splitPath e.path
  have hinfo : (buildSorted es).seg.infoOf i = e.info := by
    have hnum : ∀ f, f ≠ Field.dirId → (buildSorted es).seg.num f i = columnsOf 0 e f :=
      fun f => buildSorted_num hi f
    ext <;> simp [Segment.infoOf, hnum, columnsOf, e.info.named]
  have hd : ((buildSorted es).seg.num .isDir i != 0) = e.isDir := by
    rw [buildSorted_num hi .isDir (by decide)]
    cases hb : e.isDir <;> simp [columnsOf, hb]
  unfold Segment.entry
  rw [buildSorted_name hi]
  simp only [hp, e.path.ok, dif_pos, buildSorted_sourceOf hi, hinfo, hd]

theorem buildSorted_isAt (source : SourceId) (p : Path) :
    (buildSorted es).seg.isAt i source p.bytes = true ↔ e.source = source ∧ e.path = p := by
  unfold Segment.isAt
  rw [buildSorted_sourceOf hi, buildSorted_name hi, buildSorted_dirOf hi]
  simp only [Bool.and_eq_true, beq_iff_eq, Option.some.injEq, and_assoc]
  constructor
  · rintro ⟨h1, h2, h3⟩
    refine ⟨h1, ?_⟩
    have h4 : splitPath e.path.bytes = splitPath p.bytes := Prod.ext h3 h2
    have h5 := splitPath_injective h4
    cases hp : p
    cases he : e.path
    simpa [hp, he] using h5
  · rintro ⟨h1, rfl⟩
    exact ⟨h1, rfl, rfl⟩

omit hi in
theorem buildSorted_entry_none {j : Nat} (hj : es.length ≤ j) : (buildSorted es).seg.entry j = none := by
  unfold Segment.entry
  have : (buildSorted es).seg.names[j]? = none := by
    rw [List.getElem?_eq_none_iff]
    simpa [buildSorted] using hj
  rw [this]

omit hi in
theorem buildSorted_entry_eq (j : Nat) : (buildSorted es).seg.entry j = es[j]? := by
  rcases Nat.lt_or_ge j es.length with h | h
  · rw [buildSorted_entry (List.getElem?_eq_getElem h), List.getElem?_eq_getElem h]
  · rw [buildSorted_entry_none h, List.getElem?_eq_none_iff.mpr h]

omit hi in
theorem buildSorted_table : (buildSorted es).seg.table = es := by
  unfold Segment.table
  rw [buildSorted_rows]
  have : (buildSorted es).seg.entry = fun j => es[j]? := funext fun j => buildSorted_entry_eq j
  rw [this]
  clear this
  induction es with
  | nil => rfl
  | cons a es ih =>
    rw [List.length_cons, List.range_succ_eq_map, List.filterMap_cons]
    simp only [List.getElem?_cons_zero, List.filterMap_map, Function.comp_def,
      List.getElem?_cons_succ]
    rw [ih]

end built

/-! ## The identity table -/

theorem idLe_trans {a b c : UInt32 × Nat} (h1 : idLe a b) (h2 : idLe b c) : idLe a c := by
  rcases h1 with h1 | ⟨h1, h1'⟩ <;> rcases h2 with h2 | ⟨h2, h2'⟩
  · exact Or.inl (lt_trans h1 h2)
  · exact Or.inl (h2 ▸ h1)
  · exact Or.inl (h1 ▸ h2)
  · exact Or.inr ⟨h1.trans h2, le_trans h1' h2'⟩

theorem idLe_total (a b : UInt32 × Nat) : idLe a b ∨ idLe b a := by
  unfold idLe
  rcases lt_trichotomy a.1 b.1 with h | h | h
  · exact Or.inl (Or.inl h)
  · rcases le_total a.2 b.2 with h' | h'
    · exact Or.inl (Or.inr ⟨h, h'⟩)
    · exact Or.inr (Or.inr ⟨h.symm, h'⟩)
  · exact Or.inr (Or.inl h)

theorem writeIds_byKey (es : List Entry) : Search.ByKey (writeIds es) := by
  have h : (writeIds es).Pairwise idLe :=
    @List.pairwise_insertionSort _ idLe _ ⟨idLe_total⟩ ⟨fun _ _ _ => idLe_trans⟩ _
  refine h.imp fun {a b} hab => ?_
  rcases hab with hab | hab
  · exact le_of_lt hab
  · exact le_of_eq hab.1

theorem mem_writeIds (es : List Entry) (k : UInt32) (i : Nat) :
    (k, i) ∈ writeIds es ↔ ∃ e, es[i]? = some e ∧ keyOf e.source e.path.bytes = k := by
  unfold writeIds
  rw [List.mem_insertionSort, List.mem_map]
  constructor
  · rintro ⟨⟨e, j⟩, hm, heq⟩
    simp only [Prod.mk.injEq] at heq
    obtain ⟨rfl, rfl⟩ := heq
    exact ⟨e, by simpa using List.mem_zipIdx_iff_getElem?.mp hm, rfl⟩
  · rintro ⟨e, he, rfl⟩
    exact ⟨(e, i), List.mem_zipIdx_iff_getElem?.mpr he, rfl⟩

/-- A probe of a table sorted by key returns the rows under the key. -/
theorem mem_rowsFor_iff (s : Segment) (hs : Search.ByKey s.ids) (want : UInt32) (row : Nat) :
    row ∈ s.rowsFor want ↔ (want, row) ∈ s.ids := by
  have hdown : Search.DownTo s.ids.length fun i => (s.ids[i]?).any (·.1 < want) :=
    Search.downTo_of_pairwise s.ids hs (fun x => decide (x.1 < want)) fun a b hab hb => by
      simp only [decide_eq_true_eq] at hb ⊢
      exact lt_of_le_of_lt hab hb
  have hpp := Search.lt_partitionPoint_iff s.ids.length _ hdown
  unfold Segment.rowsFor
  simp only
  generalize Search.partitionPoint s.ids.length (fun i => (s.ids[i]?).any (·.1 < want)) = lo at hpp
  have hdrop : Search.ByKey (s.ids.drop lo) := List.Pairwise.sublist (List.drop_sublist _ _) hs
  have hge : ∀ x ∈ s.ids.drop lo, want ≤ x.1 := by
    intro x hx
    obtain ⟨j, hj, rfl⟩ := List.mem_iff_getElem.mp hx
    simp only [List.getElem_drop]
    rw [List.length_drop] at hj
    have h1 := hpp (lo + j) (by omega)
    rw [List.getElem?_eq_getElem (by omega)] at h1
    by_contra hlt
    have := h1.mpr (by simpa using hlt)
    omega
  have hrun := hdrop.mem_takeWhile_iff hge
  simp only [beq_eq_decide] 
  rw [List.mem_map]
  constructor
  · rintro ⟨x, hx, rfl⟩
    obtain ⟨h1, h2⟩ := (hrun x).mp hx
    rw [← h2]
    exact List.mem_of_mem_drop h1
  · intro hm
    refine ⟨(want, row), (hrun _).mpr ⟨?_, rfl⟩, rfl⟩
    obtain ⟨j, hj, hjx⟩ := List.mem_iff_getElem.mp hm
    have h1 := hpp j hj
    rw [List.getElem?_eq_getElem hj, hjx] at h1
    have hlo : lo ≤ j := by
      by_contra hlt
      simpa using h1.mp (by omega)
    rw [List.mem_iff_getElem]
    exact ⟨j - lo, by rw [List.length_drop]; omega, by simp [hjx, show lo + (j - lo) = j by omega]⟩

/-! ## The zone map -/

/-- When no row that passes is in a skipped block, the loop finds every row that passes. -/
theorem mem_scanBlocks_iff (rows : Nat) (skips p : Nat → Bool) (row : Nat)
    (h : row < rows → p row = true → skips (row / BLOCK) = false) :
    row ∈ Segment.scanBlocks rows skips p ↔ row < rows ∧ p row = true := by
  have hB : BLOCK = 32 := rfl
  unfold Segment.scanBlocks
  simp only [List.mem_flatMap, List.mem_range]
  constructor
  · rintro ⟨block, -, hm⟩
    split at hm
    · cases hm
    · obtain ⟨h1, h2⟩ := List.mem_filter.mp hm
      obtain ⟨i, hi, rfl⟩ := List.mem_range'.mp h1
      exact ⟨by omega, h2⟩
  · rintro ⟨hrow, hp⟩
    refine ⟨row / BLOCK, by rw [hB]; omega, ?_⟩
    rw [h hrow hp]
    simp only [Bool.false_eq_true, if_false]
    rw [List.mem_filter, List.mem_range']
    exact ⟨⟨row - row / BLOCK * BLOCK, by rw [hB] at *; omega, by rw [hB]; omega⟩, hp⟩

theorem foldl_min_le (vs : List Int) : ∀ v : Int, vs.foldl min v ≤ v ∧ ∀ x ∈ vs, vs.foldl min v ≤ x := by
  induction vs with
  | nil => exact fun v => ⟨le_refl _, by simp⟩
  | cons w vs ih =>
    intro v
    obtain ⟨h1, h2⟩ := ih (min v w)
    refine ⟨h1.trans (min_le_left _ _), fun x hx => ?_⟩
    rcases List.mem_cons.mp hx with rfl | hx
    · exact h1.trans (min_le_right _ _)
    · exact h2 x hx

theorem le_foldl_max (vs : List Int) : ∀ v : Int, v ≤ vs.foldl max v ∧ ∀ x ∈ vs, x ≤ vs.foldl max v := by
  induction vs with
  | nil => exact fun v => ⟨le_refl _, by simp⟩
  | cons w vs ih =>
    intro v
    obtain ⟨h1, h2⟩ := ih (max v w)
    refine ⟨(le_max_left _ _).trans h1, fun x hx => ?_⟩
    rcases List.mem_cons.mp hx with rfl | hx
    · exact (le_max_right _ _).trans h1
    · exact h2 x hx

/-- A row's value is between the two its block reports. -/
theorem num_mem_blockRange (s : Segment) (f : Field) (block row : Nat) (lo hi : Int)
    (h : s.blockRange f block = some (lo, hi)) (hlo : block * BLOCK ≤ row)
    (hhi : row < block * BLOCK + BLOCK) (hrow : row < s.cols.length) :
    lo ≤ s.num f row ∧ s.num f row ≤ hi := by
  have hm : s.num f row ∈ ((s.cols.drop (block * BLOCK)).take BLOCK).map (· f) := by
    rw [List.mem_map]
    refine ⟨s.cols[row], ?_, by simp [Segment.num, List.getElem?_eq_getElem hrow]⟩
    rw [List.mem_iff_getElem]
    refine ⟨row - block * BLOCK, by simp only [List.length_take, List.length_drop]; omega, ?_⟩
    simp [show block * BLOCK + (row - block * BLOCK) = row by omega]
  unfold Segment.blockRange at h
  split at h
  · cases h
  · rename_i v vs heq
    rw [heq] at hm
    simp only [Option.some.injEq, Prod.mk.injEq] at h
    obtain ⟨rfl, rfl⟩ := h
    rcases List.mem_cons.mp hm with hv | hv
    · rw [hv]
      exact ⟨(foldl_min_le vs v).1, (le_foldl_max vs v).1⟩
    · exact ⟨(foldl_min_le vs v).2 _ hv, (le_foldl_max vs v).2 _ hv⟩

end Scour
