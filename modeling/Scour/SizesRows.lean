import Scour.SizesBuilt

/-!
# The totals of the directory rows

`Prefix.Table` says what the table of a segment holds: the directory rows that were live when it was
built, in row order, each with the bounds of its subtree, and with its total as of the last look if
the table is up to that look.  A build brings it about (`buildRows_table`), a refresh of the table
brings it up to the look (`refreshRows_table`), and a refresh of the sums keeps it
(`refresh_table`).
-/

namespace Scour

namespace Sizes

/-- The path of a row, joined. -/
def pathOf (v : View) (row : Nat) : Str := joinPath (v.seg.dirOf row) (v.seg.names.getD row [])

/-- The directory rows that are live in a bitmap. -/
def dirRows (v : View) (alive : Str) : List Nat :=
  (List.range v.rows).filter fun row => bitAt alive row && (v.seg.num .isDir row != 0)

/-- The table of a segment, in sums `p`: one row for each of `rows`. -/
structure Prefix.Table (p : Prefix) (v : View) (rows : List Nat) : Prop where
  keys : p.byRow.map (·.1) = rows
  scopes : p.scopes = rows.map fun row => bounds v.seg.dirs (pathOf v row)
  sorted : rows.Pairwise (· < ·)
  inside : ∀ row ∈ rows, row < v.rows
  /-- No live directory is missing. -/
  live : ∀ row ∈ dirRows v p.seen, row ∈ rows
  totals : p.rowsDeaths = p.deaths →
    p.byRow = rows.map fun row => (row, p.scopeTotal (bounds v.seg.dirs (pathOf v row)))

/-! ## The decoded parents -/

/-- Every slot that holds a number holds its path. -/
structure Decoded (dirs : DirTable) (slots : List (Nat × Str)) : Prop where
  length : slots.length = 512
  slot : ∀ (i held : Nat) (path : Str), slots[i]? = some (held, path) → held ≠ NO_NUMBER →
    path = (dirs.get held).getD []

theorem decoded_default (dirs : DirTable) : Decoded dirs ParentPaths.default := by
  refine ⟨List.length_replicate, fun i held path h hne => ?_⟩
  unfold ParentPaths.default at h
  rw [List.getElem?_replicate] at h
  split at h
  · cases h
    exact absurd rfl hne
  · cases h

theorem decoded_get {slots : ParentPaths} {dirs : DirTable} (h : Decoded dirs slots) {id : Nat}
    (hid : id ≠ NO_NUMBER) :
    (slots.get dirs id).1 = (dirs.get id).getD [] ∧ Decoded dirs (slots.get dirs id).2 := by
  have hat : id % slots.length < slots.length := Nat.mod_lt _ (by rw [h.length]; omega)
  unfold ParentPaths.get
  obtain ⟨slot, hslot⟩ : ∃ slot, slots[id % slots.length]? = some slot :=
    ⟨_, List.getElem?_eq_getElem hat⟩
  rw [hslot]
  dsimp only
  by_cases hheld : slot.1 = id
  · rw [if_neg (not_not.mpr hheld)]
    exact ⟨by rw [h.slot _ slot.1 slot.2 hslot (hheld ▸ hid), hheld], h⟩
  · rw [if_pos hheld]
    refine ⟨rfl, ⟨by rw [List.length_set, h.length], fun i held path hi hne => ?_⟩⟩
    rw [List.getElem?_set] at hi
    split at hi
    · cases hi
      rfl
    · exact h.slot i held path hi hne

/-! ## A build of the table -/

section
variable {v : View} {p : Prefix}

theorem buildRow_skip (hv : Filed v) {row : Nat} (hrow : row < v.rows)
    (h : ¬ (bitAt v.alive row && (v.seg.num .isDir row != 0)) = true) (acc) :
    buildRow p v acc row = acc := by
  have hskip : (!bitAt v.alive row || v.seg.num .isDir row == 0) = true := by
    rw [Bool.not_eq_true] at h
    cases hb : bitAt v.alive row with
    | false => rfl
    | true =>
      rw [hb, Bool.true_and] at h
      exact (Bool.not_eq_false' _).mp h
  unfold buildRow
  rw [hv.isAlive hrow, hskip]
  rfl

theorem buildRow_live (hv : Filed v) {row : Nat} (hrow : row < v.rows)
    (h : (bitAt v.alive row && (v.seg.num .isDir row != 0)) = true)
    (acc : ParentPaths × List (Nat × Int64) × List (Nat × Nat × Nat))
    (hacc : Decoded v.seg.dirs acc.1) :
    Decoded v.seg.dirs (buildRow p v acc row).1 ∧
      (buildRow p v acc row).2 =
        (acc.2.1 ++ [(row, p.scopeTotal (bounds v.seg.dirs (pathOf v row)))],
          acc.2.2 ++ [bounds v.seg.dirs (pathOf v row)]) := by
  have hskip : (!bitAt v.alive row || v.seg.num .isDir row == 0) = false := by
    rw [Bool.and_eq_true] at h
    rw [h.1, Bool.not_true, Bool.false_or]
    exact (Bool.not_eq_true' _).mp h.2
  have hnames : row < v.seg.names.length := Nat.lt_of_lt_of_le hrow (Nat.min_le_right _ _)
  have hid : v.seg.dirId row ≠ NO_NUMBER := by
    have hNO : NO_NUMBER = 4294967295 := rfl
    have := hv.dirId_lt hrow
    have := hv.few
    have := hv.rows
    omega
  obtain ⟨hget, hkeep⟩ := decoded_get hacc hid
  have hpath : joinPath (acc.1.get v.seg.dirs (v.seg.dirId row)).1 v.seg.names[row] = pathOf v row := by
    unfold pathOf
    rw [hget, List.getD_eq_getElem _ _ hnames]
    rfl
  unfold buildRow
  rw [hv.isAlive hrow, hskip, List.getElem?_eq_getElem hnames]
  dsimp only
  rw [hpath]
  exact ⟨hkeep, rfl⟩

theorem foldl_buildRow (hv : Filed v) (rows : List Nat) (hrows : ∀ row ∈ rows, row < v.rows) :
    ∀ acc : ParentPaths × List (Nat × Int64) × List (Nat × Nat × Nat), Decoded v.seg.dirs acc.1 →
      (rows.foldl (buildRow p v) acc).2 =
        (acc.2.1 ++ (rows.filter fun row => bitAt v.alive row && (v.seg.num .isDir row != 0)).map
            (fun row => (row, p.scopeTotal (bounds v.seg.dirs (pathOf v row)))),
          acc.2.2 ++ (rows.filter fun row => bitAt v.alive row && (v.seg.num .isDir row != 0)).map
            fun row => bounds v.seg.dirs (pathOf v row)) := by
  induction rows with
  | nil =>
    intro acc h
    simp
  | cons row rows ih =>
    intro acc h
    have hrow := hrows row List.mem_cons_self
    have ih := ih fun r hr => hrows r (List.mem_cons_of_mem _ hr)
    rw [List.foldl_cons, List.filter_cons]
    by_cases hc : (bitAt v.alive row && (v.seg.num .isDir row != 0)) = true
    · obtain ⟨hkeep, hrest⟩ := buildRow_live (p := p) hv hrow hc acc h
      rw [ih _ hkeep, hrest, if_pos hc, List.append_assoc, List.append_assoc]
      rfl
    · rw [buildRow_skip hv hrow hc, if_neg hc]
      exact ih acc h

/-- **A build lists every live directory**, with its total. -/
theorem buildRows_table (hv : Filed v) (hseen : ∀ row, bitAt p.seen row = bitAt v.alive row) :
    (p.buildRows v).Table v (dirRows v v.alive) := by
  have hfold := foldl_buildRow (p := p) hv (List.range v.rows)
    (fun row hrow => List.mem_range.mp hrow) (ParentPaths.default, [], [])
    (decoded_default v.seg.dirs)
  rw [List.nil_append, List.nil_append] at hfold
  have hby : (p.buildRows v).byRow = (dirRows v v.alive).map
      fun row => (row, p.scopeTotal (bounds v.seg.dirs (pathOf v row))) := by
    unfold Prefix.buildRows
    dsimp only
    rw [hfold]
    rfl
  have hscopes : (p.buildRows v).scopes = (dirRows v v.alive).map
      fun row => bounds v.seg.dirs (pathOf v row) := by
    unfold Prefix.buildRows
    dsimp only
    rw [hfold]
    rfl
  exact
    { keys := by
        rw [hby, List.map_map]
        exact List.map_id' _
      scopes := hscopes
      sorted := List.pairwise_lt_range.filter _
      inside := fun row hrow => List.mem_range.mp (List.mem_filter.mp hrow).1
      live := by
        intro row hrow
        unfold dirRows at hrow ⊢
        rw [List.mem_filter] at hrow ⊢
        rw [← hseen]
        exact hrow
      totals := fun _ => hby }

theorem map_zip_self {α β : Type} (f : α × α → β) (l : List α) :
    (l.zip l).map f = l.map fun a => f (a, a) := by
  induction l with
  | nil => rfl
  | cons a l ih => exact congrArg (f (a, a) :: ·) ih

/-- A refresh of the table brings its totals up to the look. -/
theorem refreshRows_table {rows : List Nat} (ht : p.Table v rows) (hready : p.rowsReady = true) :
    p.refreshRows.Table v rows ∧ p.refreshRows.rowsDeaths = p.refreshRows.deaths := by
  unfold Prefix.refreshRows
  rw [hready, Bool.not_true, Bool.false_or]
  by_cases hd : p.rowsDeaths = p.deaths
  · rw [if_pos (by rw [hd, beq_self_eq_true])]
    exact ⟨ht, hd⟩
  · rw [if_neg (by rwa [beq_iff_eq])]
    have hby : (p.byRow.zip p.scopes).map (fun e => (e.1.1, p.scopeTotal e.2)) =
        rows.map fun row => (row, p.scopeTotal (bounds v.seg.dirs (pathOf v row))) := by
      have hkeys : (p.byRow.zip p.scopes).map (fun e => (e.1.1, p.scopeTotal e.2)) =
          ((p.byRow.map (·.1)).zip p.scopes).map fun e => (e.1, p.scopeTotal e.2) := by
        rw [List.zip_map_left, List.map_map]
        rfl
      rw [hkeys, ht.keys, ht.scopes, List.zip_map_right, List.map_map]
      exact map_zip_self _ rows
    refine ⟨?_, rfl⟩
    exact
      { keys := by
          show List.map _ (List.map _ _) = _
          rw [hby, List.map_map]
          exact List.map_id' _
        scopes := ht.scopes
        sorted := ht.sorted
        inside := ht.inside
        live := ht.live
        totals := fun _ => hby }

/-- A refresh of the sums keeps the table, and makes it one of an older look if anything died. -/
theorem refresh_table {rows : List Nat} {deaths : Nat} (hsorted : p.gone.Pairwise fun x y => x.1 ≤ y.1)
    (hruns : p.goneDisk = runs 0 p.gone) (hb : p.Before v deaths) (hle : p.rowsDeaths ≤ p.deaths)
    (hdeaths : p.deaths ≤ deaths) (hready : (p.refresh v deaths).rowsReady = true)
    (ht : p.rowsReady = true → p.Table v rows) : (p.refresh v deaths).Table v rows := by
  obtain ⟨-, heq⟩ | heq | ⟨hne, gone, -, -, heq⟩ := refresh_cases (v := v) hsorted hruns deaths
  · rw [heq] at hready ⊢
    exact ht hready
  · rw [heq] at hready
    cases hready
  · rw [heq] at hready ⊢
    have ht := ht hready
    exact
      { keys := ht.keys
        scopes := ht.scopes
        sorted := ht.sorted
        inside := ht.inside
        live := by
          intro row hrow
          refine ht.live row ?_
          unfold dirRows at hrow ⊢
          rw [List.mem_filter, Bool.and_eq_true] at hrow ⊢
          exact ⟨hrow.1, hb.sub row hrow.2.1, hrow.2.2⟩
        totals := by
          intro hd
          have hd : p.rowsDeaths = deaths := hd
          omega }

end

end Sizes

end Scour
