import Scour.WalkKeyed

/-!
# The rows a walk looks at

Ranges of rows are read one after the other (`walkRuns_eq`), and the ranges are the blocks
(`runsOf_rows`).  The name a row is handed over with may be left out only where nothing reads it
(`shows_name`, `sortValue_name`), so what is counted depends on the row alone.  A walk that only
counts stops once the cap is met (`Counting`).
-/

namespace Scour

namespace SegmentWalk

variable {P : Platform} (w : SegmentWalk P)

/-- The rows of a block. -/
def blockRows (block : Nat) : List Nat :=
  List.range' (block * BLOCK) (min ((block + 1) * BLOCK) w.seg.rows - block * BLOCK)

/-- The rows of some blocks that are counted. -/
def shownIn (blocks : List Nat) : List Nat := (blocks.flatMap w.blockRows).filter w.shown

/-- The rows that are counted. -/
def shownRows : List Nat := (List.range w.seg.rows).filter w.shown

/-- The name a row is handed over with. -/
def walkName (row : Nat) : Str := if w.byRow then [] else w.seg.foldedName row

/-- The blocks to open hold every row that is counted, and are in order. -/
structure Complete : Prop where
  sorted : ∀ row ∈ w.shownRows, w.blocks.Pairwise (· < ·)
  block : ∀ row ∈ w.shownRows, row / BLOCK ∈ w.blocks

variable {w}

theorem mem_blockRows {block row : Nat} :
    row ∈ w.blockRows block ↔ row / BLOCK = block ∧ row < w.seg.rows := by
  have hB : BLOCK = 32 := rfl
  rw [blockRows, List.mem_range'_1, hB]
  omega

theorem mem_shownRows {row : Nat} :
    row ∈ w.shownRows ↔ row < w.seg.rows ∧ w.shown row = true := by
  rw [shownRows, List.mem_filter, List.mem_range]

theorem mem_shownIn {blocks : List Nat} {row : Nat} :
    row ∈ w.shownIn blocks ↔ row / BLOCK ∈ blocks ∧ row ∈ w.shownRows := by
  simp only [shownIn, List.mem_filter, List.mem_flatMap, mem_blockRows, mem_shownRows]
  constructor
  · rintro ⟨⟨b, hb, rfl, hrow⟩, hs⟩
    exact ⟨hb, hrow, hs⟩
  · rintro ⟨hb, hrow, hs⟩
    exact ⟨⟨_, hb, rfl, hrow⟩, hs⟩

theorem shownIn_append (a b : List Nat) : w.shownIn (a ++ b) = w.shownIn a ++ w.shownIn b := by
  rw [shownIn, List.flatMap_append, List.filter_append]
  rfl

theorem shownIn_perm {a b : List Nat} (h : a.Perm b) : (w.shownIn a).Perm (w.shownIn b) :=
  (h.flatMap_right _).filter _

theorem nodup_shownRows : w.shownRows.Nodup := List.nodup_range.filter _

/-- No row is counted twice. -/
theorem nodup_shownIn {blocks : List Nat}
    (hsorted : ∀ row ∈ w.shownRows, blocks.Pairwise (· < ·)) : (w.shownIn blocks).Nodup := by
  rcases List.eq_nil_or_concat (w.shownIn blocks) with h | ⟨_, row, h⟩
  · rw [h]
    exact List.nodup_nil
  have hrow : row ∈ w.shownRows := (mem_shownIn.mp (h ▸ by simp : row ∈ w.shownIn blocks)).2
  refine List.Nodup.filter _ (List.nodup_flatMap.mpr ⟨fun b _ => List.nodup_range' 1, ?_⟩)
  refine (hsorted row hrow).imp fun {a b} hab x ha hb => ?_
  have := (mem_blockRows.mp ha).1
  have := (mem_blockRows.mp hb).1
  omega

/-- The blocks to open hold exactly the rows that are counted. -/
theorem Complete.perm (h : w.Complete) : (w.shownIn w.blocks).Perm w.shownRows := by
  rw [List.perm_ext_iff_of_nodup (nodup_shownIn h.sorted) nodup_shownRows]
  intro row
  rw [mem_shownIn]
  exact ⟨fun hrow => hrow.2, fun hrow => ⟨h.block row hrow, hrow⟩⟩

/-! ## Names nothing reads -/

theorem byRow_plan (h : w.byRow = true) : w.plan.needsName = false ∧ w.conceals = none := by
  unfold byRow at h
  simp only [Bool.and_eq_true, Bool.not_eq_true', Option.isSome_eq_false_iff,
    Option.isNone_iff_eq_none] at h
  exact h.1

theorem shows_of_not_read (hplan : w.plan.needsName = false) (hveto : w.conceals = none) (row : Nat)
    (name : Str) : w.shows row name = w.shown row := by
  unfold shown shows
  rw [hveto, w.plan.accepts_of_not_needsName w.seg row hplan name (w.seg.foldedName row)]
  rfl

theorem shows_name (row : Nat) : w.shows row (w.walkName row) = w.shown row := by
  unfold walkName
  split
  · rename_i h
    exact shows_of_not_read (byRow_plan h).1 (byRow_plan h).2 row []
  · rfl

/-- A term that relevance scores is a test that reads names. -/
theorem scoreTerms_of_not_needsName (hplan : w.plan.needsName = false) : w.scoreTerms = [] := by
  unfold scoreTerms
  split
  · rw [List.filterMap_eq_nil_iff]
    intro c hc
    split
    · rename_i n halts
      rw [Plan.needsName, List.any_eq_false] at hplan
      have := hplan c hc
      rw [halts] at this
      exact absurd rfl this
    · rfl
  · rfl

theorem sortValue_congr (row : Nat) (a b : Str) (hname : w.want.sort ≠ .name)
    (hext : w.want.sort ≠ .ext) (hrel : w.want.sort ≠ .relevance) :
    w.sortValue row a = w.sortValue row b := by
  unfold SegmentWalk.sortValue Scour.sortValue
  cases hs : w.want.sort <;> first | rfl | contradiction

/-- Where the page is selected, what a row sorts by does not depend on the name left out. -/
theorem sortValue_name (hmode : w.storedOrder = false) (row : Nat) :
    w.sortValue row (w.walkName row) = w.key row := by
  unfold walkName
  split
  · rename_i h
    unfold storedOrder at hmode
    simp only [Bool.or_eq_false_iff] at hmode
    obtain ⟨⟨hf, -⟩, hp⟩ := hmode
    have hreads : w.sortReadsName = false := by
      unfold byRow at h
      simp only [Bool.and_eq_true, Bool.not_eq_true'] at h
      exact h.2
    unfold sortReadsName at hreads
    simp only [hf, hp, Bool.not_false, Bool.true_and, Bool.or_eq_false_iff,
      beq_eq_false_iff_ne] at hreads
    refine sortValue_congr row _ _ hreads.1.1 hreads.1.2 fun hrel => ?_
    unfold storedForward at hf
    rw [scoreTerms_of_not_needsName (byRow_plan h).1, hrel] at hf
    simp at hf
  · rfl

/-! ## One range after the other -/

theorem visitAll_cons (name : Nat → Str) (s : Walked) (row : Nat) (rows : List Nat) :
    w.visitAll name s (row :: rows) =
      if (w.visit s row (name row)).done then w.visit s row (name row)
      else w.visitAll name (w.visit s row (name row)) rows := rfl

theorem visitAll_append (name : Nat → Str) (a b : List Nat) :
    ∀ s : Walked, s.done = false →
      w.visitAll name s (a ++ b) =
        if (w.visitAll name s a).done then w.visitAll name s a
        else w.visitAll name (w.visitAll name s a) b := by
  induction a with
  | nil =>
    intro s hs
    simp [visitAll, hs]
  | cons row a ih =>
    intro s hs
    rw [List.cons_append, visitAll_cons, visitAll_cons]
    by_cases hd : (w.visit s row (name row)).done = true
    · simp [hd]
    · rw [if_neg hd, if_neg hd]
      exact ih _ (by simpa using hd)

/-- The rows of some ranges, each read forwards or each backwards. -/
def runRows (rev : Bool) (runs : List (Nat × Nat)) : List Nat :=
  runs.flatMap fun run =>
    if rev then (List.range' run.1 (run.2 - run.1)).reverse
    else List.range' run.1 (run.2 - run.1)

theorem walkRange_eq (s : Walked) (from_ stop : Nat) (rev : Bool) :
    w.walkRange s from_ stop rev = w.visitAll w.walkName s (runRows rev [(from_, stop)]) := by
  rw [runRows, List.flatMap_singleton]
  rfl

theorem walkRuns_eq (rev : Bool) (runs : List (Nat × Nat)) :
    ∀ s : Walked, s.done = false →
      w.walkRuns rev s runs = w.visitAll w.walkName s (runRows rev runs) := by
  induction runs with
  | nil => exact fun s _ => rfl
  | cons run runs ih =>
    intro s hs
    obtain ⟨from_, stop⟩ := run
    have hsplit : runRows rev ((from_, stop) :: runs) =
        runRows rev [(from_, stop)] ++ runRows rev runs := by
      unfold runRows
      rw [← List.flatMap_append, List.singleton_append]
    rw [hsplit, visitAll_append _ _ _ s hs, ← walkRange_eq]
    unfold walkRuns
    dsimp only
    by_cases hd : (w.walkRange s from_ stop rev).done = true
    · rw [if_pos hd, if_pos hd]
    · rw [if_neg hd, if_neg hd]
      exact ih _ (by simpa using hd)

theorem runRows_reverse (runs : List (Nat × Nat)) :
    runRows true runs.reverse = (runRows false runs).reverse := by
  unfold runRows
  simp only [if_true, Bool.false_eq_true, if_false]
  induction runs with
  | nil => rfl
  | cons run runs ih =>
    rw [List.reverse_cons, List.flatMap_append, ih, List.flatMap_singleton]
    conv_rhs => rw [List.flatMap_cons, List.reverse_append]

theorem runsFrom_rows (rows start : Nat) (blocks : List Nat) :
    ∀ last, start ≤ last → runRows false (runsFrom rows start last blocks) =
      List.range' (start * BLOCK) (min ((last + 1) * BLOCK) rows - start * BLOCK) ++
        blocks.flatMap fun b => List.range' (b * BLOCK) (min ((b + 1) * BLOCK) rows - b * BLOCK) := by
  have hB : BLOCK = 32 := rfl
  induction blocks generalizing start with
  | nil =>
    intro last _
    simp [runsFrom, runRows]
  | cons b blocks ih =>
    intro last hle
    unfold runsFrom
    rw [List.flatMap_cons]
    split
    · rename_i heq
      subst heq
      rw [ih start (last + 1) (by omega), ← List.append_assoc]
      congr 1
      -- the next block goes on where the run stood
      rw [hB]
      rcases Nat.le_total ((last + 1) * 32) rows with hfull | hcut
      · have h1 : (last + 1) * 32 = start * 32 + (min ((last + 1) * 32) rows - start * 32) := by
          omega
        have h2 : min ((last + 1 + 1) * 32) rows - start * 32 =
            (min ((last + 1) * 32) rows - start * 32) +
              (min ((last + 1 + 1) * 32) rows - (last + 1) * 32) := by omega
        rw [h2, ← List.range'_append_1, ← h1]
      · have h1 : min ((last + 1 + 1) * 32) rows - (last + 1) * 32 = 0 := by omega
        have h2 : min ((last + 1 + 1) * 32) rows = min ((last + 1) * 32) rows := by omega
        rw [h1, h2, List.range'_zero, List.append_nil]
    · rw [runRows, List.flatMap_cons]
      have := ih b b (le_refl b)
      unfold runRows at this
      rw [this]
      rfl

/-- The ranges are the blocks. -/
theorem runsOf_rows (blocks : List Nat) :
    runRows false (runsOf w.seg.rows blocks) = blocks.flatMap w.blockRows := by
  cases blocks with
  | nil => rfl
  | cons b blocks => exact runsFrom_rows w.seg.rows b blocks b (le_refl b)

/-! ## Counting -/

/-- What a walk that only counts does over `n` more matches. -/
structure Counting (w : SegmentWalk P) (s s' : Walked) (n : Nat) : Prop where
  keyed : s'.keyed = s.keyed
  closed : s'.closed = true
  le : s'.counted ≤ s.counted + n
  all : s'.done = false → s'.counted = s.counted + n
  cap : s'.done = true → w.want.countCap ≤ s'.counted

theorem take_closed (hmode : w.storedOrder = false) {s : Walked} (hc : s.closed = true) (row : Nat)
    (name : Str) :
    w.take s row name = if w.want.countCap ≤ s.counted then { s with done := true } else s := by
  unfold take
  rw [if_neg (by simp [not_backwards hmode]), if_neg (by simp [hmode]), if_neg (by simp [hc])]

theorem counting_visitAll (hmode : w.storedOrder = false) (name : Nat → Str) (rows : List Nat)
    (hshows : ∀ row ∈ rows, w.shows row (name row) = w.shown row) :
    ∀ s : Walked, s.closed = true → s.done = false →
      Counting w s (w.visitAll name s rows) (rows.filter w.shown).length := by
  induction rows with
  | nil =>
    intro s hc hd
    exact ⟨rfl, hc, le_refl _, fun _ => rfl, fun h => by simp [visitAll, hd] at h⟩
  | cons row rows ih =>
    intro s hc hd
    have ih' := ih fun r hr => hshows r (List.mem_cons_of_mem _ hr)
    rw [visitAll_cons]
    unfold visit
    rw [hshows row List.mem_cons_self]
    by_cases hs : w.shown row = true
    · rw [if_pos hs, List.filter_cons_of_pos hs, List.length_cons]
      have htake := take_closed hmode (s := { s with counted := s.counted + 1 }) hc row (name row)
      rw [htake]
      dsimp only
      by_cases hcap : w.want.countCap ≤ s.counted + 1
      · rw [if_pos hcap, if_pos rfl]
        refine ⟨rfl, hc, ?_, fun h => by simp at h, fun _ => hcap⟩
        change s.counted + 1 ≤ s.counted + ((rows.filter w.shown).length + 1)
        omega
      · rw [if_neg hcap, if_neg (by simp [hd])]
        obtain ⟨h1, h2, h3, h4, h5⟩ := ih' { s with counted := s.counted + 1 } hc hd
        refine ⟨h1, h2, ?_, fun h => ?_, h5⟩
        · change _ ≤ s.counted + 1 + _ at h3
          omega
        · have := h4 h
          change _ = s.counted + 1 + _ at this
          omega
    · rw [if_neg hs, List.filter_cons_of_neg hs, if_neg (by simp [hd])]
      exact ih' s hc hd

end SegmentWalk

end Scour
