import Scour.WalkStored
import Scour.WalkZone

/-!
# Every numeric order is a full sort

Over a segment `build` wrote, with a bitmap of its own length, the blocks to open hold every row that
is counted (`complete_build`).  A walk for a numeric order keeps the first page of all these rows by
what they are ordered by and then by row, and counts them up to the cap (`best_block_first`); oldest
first it keeps, besides, what shares the last date.
-/

namespace Scour

namespace SegmentWalk

variable {P : Platform} {w : SegmentWalk P}

/-- The rows counted, in the blocks to open, are in row order. -/
theorem Complete.eq (h : w.Complete) : w.shownIn w.blocks = w.shownRows := by
  rcases List.eq_nil_or_concat w.shownRows with hnil | ⟨_, row, hcat⟩
  · rw [hnil]
    exact List.Perm.eq_nil (hnil ▸ h.perm)
  have hsorted := h.sorted row (by rw [hcat]; simp)
  have hanti : ∀ a b : Nat, a ∈ w.shownIn w.blocks → b ∈ w.shownRows → a < b → b < a → a = b := by
    intro a b _ _ hab hba
    omega
  refine List.Perm.eq_of_pairwise hanti ?_ ?_ h.perm
  · unfold shownIn
    refine List.Pairwise.filter _ (List.pairwise_flatMap.mpr ⟨fun b _ => ?_, ?_⟩)
    · exact List.pairwise_lt_range' _
    · refine hsorted.imp fun {a b} hab x hx y hy => ?_
      have hx := (div_block_iff _ _).mp (mem_blockRows.mp hx).1
      have hy := (div_block_iff _ _).mp (mem_blockRows.mp hy).1
      have := Nat.mul_le_mul_right BLOCK (Nat.succ_le_of_lt hab)
      rw [Nat.succ_mul] at this
      omega
  · exact List.pairwise_lt_range.filter _

/-- The rows as they lie, or from the far end. -/
theorem asTheyLie_eq : w.asTheyLie = w.visitAll w.walkName w.start
    (if w.backwards then (w.blocks.flatMap w.blockRows).reverse
      else w.blocks.flatMap w.blockRows) := by
  unfold asTheyLie
  dsimp only
  rw [walkRuns_eq _ _ _ rfl]
  cases w.backwards with
  | false => simp only [Bool.false_eq_true, if_false, runsOf_rows]
  | true => simp only [if_true, runRows_reverse, runsOf_rows]

/-- What a stored order hands over is what its rows sort by. -/
theorem ranked_stored (hmode : w.storedOrder = true) (s : Walked) :
    w.ranked s = s.kept.map w.entry := by
  unfold ranked
  rw [if_pos hmode]
  refine List.map_congr_left fun row _ => Prod.ext ?_ rfl
  dsimp only
  split
  · rfl
  · rename_i htext
    unfold textStream at htext
    simp only [Bool.or_eq_true, not_or, Bool.not_eq_true] at htext
    unfold storedOrder positionStream textStream at hmode
    simp only [htext.1, htext.2, Bool.or_false, Bool.or_eq_true] at hmode
    unfold entry key
    rcases hmode with (h | h) | h
    · unfold storedForward at h
      simp only [Bool.or_eq_true, Bool.and_eq_true, beq_iff_eq, List.isEmpty_iff] at h
      rcases h with ⟨h, -⟩ | ⟨h, hterms⟩
      · exact sortValue_congr row _ _ (by simp [h]) (by simp [h]) (by simp [h])
      · unfold SegmentWalk.sortValue Scour.sortValue
        rw [h, hterms]
        rfl
    · unfold backwards at h
      simp only [Bool.and_eq_true, beq_iff_eq] at h
      exact sortValue_congr row _ _ (by simp [h.1.1]) (by simp [h.1.1]) (by simp [h.1.1])
    · unfold pathStream streams at h
      simp only [Bool.and_eq_true, beq_iff_eq] at h
      exact sortValue_congr row _ _ (by simp [h.1.1.1.1]) (by simp [h.1.1.1.1]) (by simp [h.1.1.1.1])

end SegmentWalk

/-! ## Over a segment `build` wrote -/

section
variable {P : Platform} {s : List Entry × Str}

/-- Dates do not rise with the row. -/
theorem opened_mtime_le (hs : s.1.Pairwise storedLe) {i j : Nat} (hij : i ≤ j)
    (hj : j < s.1.length) : (View.opened P s).mtime j ≤ (View.opened P s).mtime i := by
  rw [View.opened_mtime (List.getElem?_eq_getElem hj),
    View.opened_mtime (List.getElem?_eq_getElem (hij.trans_lt hj))]
  rcases Nat.eq_or_lt_of_le hij with rfl | hlt
  · exact le_refl _
  · have hle := List.pairwise_iff_getElem.mp hs i j (by omega) hj hlt
    unfold storedLe at hle
    omega

/-- The blocks to open hold every row that is counted. -/
theorem complete_opened (hbits : s.2.length = (s.1.length + 7) / 8) {ast : Ast} {plan : Plan P}
    (hp : Plan.compile ast (View.opened P s) = .ok plan) (orders : Orders) (want : Wanted)
    (conceals : Option (Nat → Str → Bool)) (folders : Folders) (named : Option Nat) :
    SegmentWalk.Complete ⟨View.opened P s, orders, plan, want, conceals, folders, named⟩ := by
  have hrow : ∀ row ∈ SegmentWalk.shownRows
      ⟨View.opened P s, orders, plan, want, conceals, folders, named⟩,
      row < s.1.length ∧ (View.opened P s).isAlive row = true ∧
        plan.accepts (View.opened P s) row ((View.opened P s).foldedName row) = true := by
    intro row hrow
    obtain ⟨hlt, hs⟩ := SegmentWalk.mem_shownRows.mp hrow
    unfold SegmentWalk.shown SegmentWalk.shows at hs
    simp only [Bool.and_eq_true] at hs
    exact ⟨by rw [← View.buildSorted_rows P s.1]; exact hlt, hs.1⟩
  constructor
  · intro row h
    obtain ⟨hlt, -, hacc⟩ := hrow row h
    exact blocksWorthOpening_sorted s ast plan hp row hlt hacc
  · intro row h
    obtain ⟨hlt, halive, hacc⟩ := hrow row h
    refine (Plan.mem_blocksWorthOpening_iff s.1 s.2 ast plan hp row hlt halive hacc).mpr (Or.inl ?_)
    intro hnil
    rw [hnil, List.length_nil] at hbits
    omega

end

namespace SegmentWalk

variable {P : Platform}

/-- The page of a numeric order: what each counted row is ordered by, with the row. -/
def ordered (w : SegmentWalk P) (c : Column) : List Keyed :=
  w.shownRows.map fun row => (.num (effective w.seg w.folders c row), row)

theorem entries_eq {w : SegmentWalk P} (hf : w.folders.Pairwise fun f g => f.1 < g.1) {c : Column}
    (hc : sortField w.want.sort = some c) : w.shownRows.map w.entry = w.ordered c :=
  List.map_congr_left fun row _ => Prod.ext (sortValue_effective w.seg hf hc row _ _) rfl

theorem nodup_ordered (w : SegmentWalk P) (c : Column) : (w.ordered c).Nodup :=
  nodup_shownRows.map fun _ _ h => (Prod.mk.inj h).2

/-- Without a stored text order to stream, a numeric order is best block first, -/
theorem walkRows_bounded {w : SegmentWalk P} (hposition : w.positionStream = false) {c : Column}
    (hc : sortField w.want.sort = some c) (hbounded : w.bounded = true) :
    w.walkRows = some (w.bestFirst c) := by
  unfold positionStream textStream at hposition
  simp only [Bool.or_eq_false_iff] at hposition
  obtain ⟨hpath, hname, hext⟩ := hposition
  have hbest : (sortField w.want.sort).filter (fun _ => w.bounded) = some c := by
    rw [hc, hbounded]
    rfl
  unfold walkRows
  simp [hpath, hname, hext, hbest]

/-- and any other order the rows as they lie. -/
theorem walkRows_lying {w : SegmentWalk P} (hposition : w.positionStream = false)
    (hbounded : w.bounded = false) : w.walkRows = some (w.asTheyLie, false) := by
  unfold positionStream textStream at hposition
  simp only [Bool.or_eq_false_iff] at hposition
  obtain ⟨hpath, hname, hext⟩ := hposition
  unfold walkRows
  simp [hpath, hname, hext, hbounded]

theorem not_bounded {w : SegmentWalk P} (hmode : w.storedOrder = true) : w.bounded = false := by
  unfold bounded
  simp [hmode]

/-- What a walk that kept and counted so has found. -/
structure Sorts (w : SegmentWalk P) (c : Column) (s : Walked) : Prop where
  /-- The page of what is kept is the page of all that is counted, -/
  first : Search.first (pageLe w.want.descending) w.need (w.ranked s) =
    Search.first (pageLe w.want.descending) w.need (w.ordered c)
  /-- and nothing else is kept, unless rows share the last date of a walk backwards. -/
  page : w.backwards = false →
    (w.ranked s).Perm (Search.first (pageLe w.want.descending) w.need (w.ordered c))
  le : s.counted ≤ w.shownRows.length
  cap : min w.want.countCap w.shownRows.length ≤ s.counted

section
variable {w : SegmentWalk P} (hcomplete : w.Complete) {c : Column}
  (hc : sortField w.want.sort = some c) (hf : w.folders.Pairwise fun f g => f.1 < g.1)
include hcomplete hc hf

theorem sorts_bestFirst (hneed : 0 < w.need) (hmode : w.storedOrder = false)
    (hkinds : w.seg.rows ≤ w.seg.kinds.length) : w.Sorts c (w.bestFirst c).1 := by
  obtain ⟨hkeeps, hnd, hlo, hhi⟩ := bestFirst_spec hcomplete hneed hmode hc hkinds hf
  rw [entries_eq hf hc] at hkeeps
  have hpage : (w.ranked (w.bestFirst c).1).Perm
      (Search.first (pageLe w.want.descending) w.need (w.ordered c)) := by
    rw [← hkeeps.first pageLe_antisymm (nodup_ordered w c) hnd]
    unfold ranked
    rw [if_neg (by simp [hmode]), exact_of_sortField hc]
    exact narrow_exact _ _
  exact ⟨Search.first_of_perm_first pageLe_antisymm hpage, fun _ => hpage, hhi, hlo⟩

/-- Newest first the rows lie sorted. -/
theorem sorts_forward (hback : w.backwards = false) (hmode : w.storedOrder = true)
    (hsort : w.want.sort = .modified ∧ w.want.descending = true)
    (hdates : ∀ i j, i ≤ j → j < w.seg.rows → w.seg.mtime j ≤ w.seg.mtime i) :
    w.Sorts c w.asTheyLie := by
  have hfilter : (w.blocks.flatMap w.blockRows).filter w.shown = w.shownRows := hcomplete.eq
  obtain ⟨hkept, hlo, hhi⟩ := storing_spec hback hmode w.walkName (w.blocks.flatMap w.blockRows)
    fun row _ => shows_name row
  rw [hfilter] at hkept hlo hhi
  have hsorted : (w.ordered c).Pairwise (pageLe w.want.descending) := by
    rw [← entries_eq hf hc, List.pairwise_map]
    refine (List.pairwise_lt_range.filter w.shown).imp_of_mem fun {i j} _ hj hij => ?_
    have hdate := hdates i j hij.le (mem_shownRows.mp hj).1
    unfold pageLe entry
    rw [key_modified hsort.1, key_modified hsort.1, keyLt_num, SortValue.num.injEq, hsort.2]
    unfold zoneKey
    simp only [if_true]
    omega
  have hpage : (w.ranked w.asTheyLie).Perm
      (Search.first (pageLe w.want.descending) w.need (w.ordered c)) := by
    rw [Search.first_of_sorted hsorted, ranked_stored hmode, asTheyLie_eq, hback, ← entries_eq hf hc,
      ← List.map_take]
    simp only [Bool.false_eq_true, if_false]
    rw [hkept]
  have heq : w.asTheyLie = w.visitAll w.walkName w.start (w.blocks.flatMap w.blockRows) := by
    rw [asTheyLie_eq, hback]
    rfl
  rw [← heq] at hlo hhi
  exact ⟨Search.first_of_perm_first pageLe_antisymm hpage, fun _ => hpage, hhi, hlo⟩

/-- Oldest first they lie sorted from the far end. -/
theorem sorts_backward (hback : w.backwards = true) (hmode : w.storedOrder = true)
    (hdates : ∀ i j, i ≤ j → j < w.seg.rows → w.seg.mtime j ≤ w.seg.mtime i) :
    w.Sorts c w.asTheyLie := by
  have hfilter : (w.blocks.flatMap w.blockRows).reverse.filter w.shown = w.shownRows.reverse := by
    rw [List.filter_reverse]
    exact congrArg List.reverse hcomplete.eq
  have heq : w.asTheyLie =
      w.visitAll w.walkName w.start (w.blocks.flatMap w.blockRows).reverse := by
    rw [asTheyLie_eq, hback]
    rfl
  obtain ⟨hkeeps, hsub, hlo, hhi⟩ := backKeeping_spec hback w.walkName
    (w.blocks.flatMap w.blockRows).reverse (fun row _ => shows_name row) (by
      rw [hfilter, List.pairwise_reverse]
      exact (List.pairwise_lt_range.filter w.shown).imp_of_mem fun {i j} _ hj hij =>
        hdates i j hij.le (mem_shownRows.mp hj).1)
  rw [← heq] at hkeeps hsub hlo hhi
  rw [hfilter] at hkeeps hsub hlo hhi
  rw [List.length_reverse] at hlo hhi
  have hrev : (w.shownRows.reverse.map w.entry).Perm (w.ordered c) := by
    rw [← entries_eq hf hc]
    exact (List.reverse_perm _).map _
  have hnd : (w.asTheyLie.kept.map w.entry).Nodup :=
    (hsub.map w.entry).nodup (hrev.nodup_iff.mpr (nodup_ordered w c))
  refine ⟨?_, fun h => (by rw [hback] at h; cases h), hhi, hlo⟩
  rw [ranked_stored hmode]
  exact (hkeeps.perm hrev (List.Perm.refl _)).first pageLe_antisymm (nodup_ordered w c) hnd

/-- What a walk for a numeric order keeps and counts, whichever way it goes over the rows. -/
theorem numeric_walk (hneed : 0 < w.need) (hkinds : w.seg.rows ≤ w.seg.kinds.length)
    (hdates : ∀ i j, i ≤ j → j < w.seg.rows → w.seg.mtime j ≤ w.seg.mtime i) :
    ∃ s skipped, w.walkRows = some (s, skipped) ∧ w.Sorts c s := by
  have hposition : w.positionStream = false := by
    unfold positionStream textStream pathStream nameStream extensionStream streams
    cases hs : w.want.sort <;> simp [hs, sortField] at hc ⊢
  cases hmode : w.storedOrder with
  | false =>
    have hbounded : w.bounded = true := by
      unfold bounded
      simp [hmode, hneed, hc]
    exact ⟨(w.bestFirst c).1, (w.bestFirst c).2, walkRows_bounded hposition hc hbounded,
      sorts_bestFirst hcomplete hc hf hneed hmode hkinds⟩
  | true =>
    refine ⟨w.asTheyLie, false, walkRows_lying hposition (not_bounded hmode), ?_⟩
    cases hback : w.backwards with
    | true => exact sorts_backward hcomplete hc hf hback hmode hdates
    | false =>
      have hforward : w.storedForward = true := by
        unfold storedOrder at hmode
        simpa [hback, hposition] using hmode
      unfold storedForward at hforward
      simp only [Bool.or_eq_true, Bool.and_eq_true, beq_iff_eq] at hforward
      rcases hforward with hsort | ⟨hrel, -⟩
      · exact sorts_forward hcomplete hc hf hback hmode hsort hdates
      · rw [hrel] at hc
        cases hc

end

end SegmentWalk

/-- **A numeric order is a full sort.**  The walk of a segment `build` wrote, under any plan and any
veto, keeps the first page of all live rows it may show, by what they are ordered by in the direction
asked for and then by row, and counts them up to the cap. -/
theorem best_block_first (P : Platform) (es : List Entry) (alive : Str)
    (halive : alive.length = (es.length + 7) / 8) (ast : Ast) (plan : Plan P)
    (hplan : Plan.compile ast { View.build P es with alive := alive } = .ok plan)
    (orders : Orders) (want : Wanted) (hneed : 0 < want.offset + want.limit)
    (conceals : Option (Nat → Str → Bool)) (folders : Folders)
    (hfolders : folders.Pairwise fun f g => f.1 < g.1) (named : Option Nat) (c : Column)
    (hc : sortField want.sort = some c) (w : SegmentWalk P)
    (hw : w = ⟨{ View.build P es with alive := alive }, orders, plan, want, conceals, folders,
      named⟩) :
    ∃ s skipped, w.walkRows = some (s, skipped) ∧ w.Sorts c s := by
  have hview : ({ View.build P es with alive := alive } : View) =
      View.opened P (es.insertionSort storedLe, alive) := rfl
  subst hw
  rw [hview] at hplan ⊢
  have hrows : (View.opened P (es.insertionSort storedLe, alive)).rows =
      (es.insertionSort storedLe).length := View.buildSorted_rows P _
  refine SegmentWalk.numeric_walk (complete_opened ?_ hplan orders want conceals folders named) hc
    hfolders hneed ?_ ?_
  · rw [List.length_insertionSort]
    exact halive
  · dsimp only
    rw [hrows]
    simp [View.opened, View.buildSorted]
  · intro i j hij hj
    exact opened_mtime_le (pairwise_stored es) hij (by rw [← hrows]; exact hj)

/-- A file, and a directory that is listed with more under it than its own size. -/
def fileAndFolder : List Entry :=
  [{ Entry.file "/a" with info := { Meta.UNKNOWN with size := 9 } },
    { Entry.file "/d" with isDir := true, info := { Meta.UNKNOWN with size := 4 } }]

/-- The largest of them, where every row matches. -/
def largest : SegmentWalk .plain where
  seg := { View.build .plain fileAndFolder with alive := [3] }
  orders := ⟨none, none, none⟩
  plan := ⟨[], none⟩
  want := ⟨.size, true, 0, 1, 1⟩
  conceals := none
  folders := [(1, 20)]
  named := none

theorem best_block_first_largest :
    ∃ s skipped, largest.walkRows = some (s, skipped) ∧ largest.Sorts (.stored .size) s :=
  best_block_first .plain fileAndFolder [3] rfl ⟨[]⟩ ⟨[], none⟩ rfl ⟨none, none, none⟩
    ⟨.size, true, 0, 1, 1⟩ (by decide) none [(1, 20)] (List.pairwise_singleton _ _) none
    (.stored .size) rfl largest rfl

/-- The directory is larger by what is under it. -/
example : (largest.found.map fun f => f.ranked.map (·.row)) = some [1] := by decide

end Scour
