import Scour.WalkRows

/-!
# The best-block-first walk is a full sort

The reach of a block bounds what its rows sort by, the totals of folders among them
(`zoneReaches_le`), so the blocks left when one is out of reach hold only rows behind the worst of
the page (`Keeping.walkOrdered`).  What is kept is the first page of all matching rows
(`best_block_first`).
-/

namespace Scour

/-! ## The reach of a block -/

theorem zoneKey_le_of_le {a b : Int} {desc : Bool} (h : if desc then b ≤ a else a ≤ b) :
    zoneKey a desc ≤ zoneKey b desc := by
  unfold zoneKey
  cases desc <;> simp at h ⊢ <;> omega

/-- Folding the totals in only improves a reach, and covers each of them. -/
theorem foldl_reach_le (desc : Bool) (inside : Folders) : ∀ reach : Int,
    let best := inside.foldl
      (fun reach f => if desc then max reach f.2.toInt else min reach f.2.toInt) reach
    zoneKey best desc ≤ zoneKey reach desc ∧
      ∀ f ∈ inside, zoneKey best desc ≤ zoneKey f.2.toInt desc := by
  induction inside with
  | nil => simp
  | cons f inside ih =>
    intro reach
    dsimp only
    rw [List.foldl_cons]
    have hmid := ih (if desc then max reach f.2.toInt else min reach f.2.toInt)
    dsimp only at hmid
    have h1 : zoneKey (if desc then max reach f.2.toInt else min reach f.2.toInt) desc ≤
        zoneKey reach desc := by
      apply zoneKey_le_of_le
      cases desc <;> simp
    have h2 : zoneKey (if desc then max reach f.2.toInt else min reach f.2.toInt) desc ≤
        zoneKey f.2.toInt desc := by
      apply zoneKey_le_of_le
      cases desc <;> simp
    refine ⟨hmid.1.trans h1, fun g hg => ?_⟩
    rcases List.mem_cons.mp hg with rfl | hg
    · exact hmid.1.trans h2
    · exact hmid.2 g hg

theorem zoneReaches_blocks (v : View) (c : Column) (desc rollups : Bool) (blocks : List Nat) :
    ∀ folders, (zoneReaches v c desc rollups blocks folders).map (·.2) = blocks := by
  induction blocks with
  | nil => exact fun _ => rfl
  | cons b blocks ih =>
    intro folders
    unfold zoneReaches
    dsimp only
    rw [List.map_cons, ih]

theorem div_block_iff (n b : Nat) : n / BLOCK = b ↔ b * BLOCK ≤ n ∧ n < b * BLOCK + BLOCK := by
  have hB : BLOCK = 32 := rfl
  rw [hB]
  omega

/-- A reach is not behind what a row of its block can sort by: the stored range, and the totals
listed for rows of the block. -/
theorem zoneReaches_le (v : View) (c : Column) (desc rollups : Bool) (blocks : List Nat)
    (hblocks : blocks.Pairwise (· < ·)) : ∀ folders : Folders,
    folders.Pairwise (fun f g => f.1 < g.1) → ∀ rb ∈ zoneReaches v c desc rollups blocks folders,
      (∀ lo hi, v.columnRange c rb.2 = some (lo, hi) →
        rb.1 ≤ zoneKey (if desc then hi else lo) desc) ∧
      (rollups = true → ∀ f ∈ folders, f.1 / BLOCK = rb.2 → rb.1 ≤ zoneKey f.2.toInt desc) := by
  induction blocks with
  | nil => exact fun _ _ rb h => by cases h
  | cons b blocks ih =>
    intro folders hsorted rb hrb
    have hb := List.pairwise_cons.mp hblocks
    -- what is left of the table from this block on
    have hleft : (if rollups then folders.dropWhile (·.1 < b * BLOCK) else folders).Pairwise
        (fun f g => f.1 < g.1) := by
      split
      · exact hsorted.sublist (List.dropWhile_sublist _)
      · exact hsorted
    have hkept : rollups = true → ∀ f ∈ folders, b * BLOCK ≤ f.1 →
        f ∈ (if rollups then folders.dropWhile (·.1 < b * BLOCK) else folders) := by
      intro hr f hf hge
      rw [if_pos hr]
      rw [← List.takeWhile_append_dropWhile (p := fun f : Nat × Int64 => decide (f.1 < b * BLOCK))
        (l := folders), List.mem_append] at hf
      rcases hf with hf | hf
      · have := List.mem_takeWhile_imp hf
        rw [decide_eq_true_eq] at this
        omega
      · exact hf
    unfold zoneReaches at hrb
    dsimp only at hrb
    generalize (if rollups then folders.dropWhile (·.1 < b * BLOCK) else folders) = rest
      at hrb hleft hkept
    rcases List.mem_cons.mp hrb with rfl | hrb
    · generalize hin : (if rollups then rest.takeWhile (·.1 < b * BLOCK + BLOCK) else []) = inside
      obtain ⟨h1, h2⟩ := foldl_reach_le desc inside
        (if desc then ((v.columnRange c b).getD (-2 ^ 63, 2 ^ 63 - 1)).2
          else ((v.columnRange c b).getD (-2 ^ 63, 2 ^ 63 - 1)).1)
      refine ⟨fun lo hi hrange => ?_, fun hr f hf hfb => h2 f ?_⟩
      · rw [hrange] at h1 ⊢
        exact h1
      · obtain ⟨hge, hlt⟩ := (div_block_iff _ _).mp hfb
        have hrest := hkept hr f hf hge
        rw [← hin, if_pos hr]
        rw [← List.takeWhile_append_dropWhile
          (p := fun f : Nat × Int64 => decide (f.1 < b * BLOCK + BLOCK)) (l := rest),
          List.mem_append] at hrest
        refine hrest.resolve_right fun hd => ?_
        -- past the first row behind the block there is none of the block
        have hge' : ∀ g ∈ rest.dropWhile (·.1 < b * BLOCK + BLOCK), b * BLOCK + BLOCK ≤ g.1 := by
          intro g hg
          have hds := hleft.sublist
            (List.dropWhile_sublist (fun f : Nat × Int64 => decide (f.1 < b * BLOCK + BLOCK)))
          cases hcase : rest.dropWhile (·.1 < b * BLOCK + BLOCK) with
          | nil => rw [hcase] at hg; cases hg
          | cons g₀ t =>
            have hhead := List.head?_dropWhile_not
              (fun f : Nat × Int64 => decide (f.1 < b * BLOCK + BLOCK)) rest
            rw [hcase] at hhead hg hds
            have hg₀ : b * BLOCK + BLOCK ≤ g₀.1 := by simpa using hhead
            rcases List.mem_cons.mp hg with rfl | hg
            · exact hg₀
            · exact hg₀.trans ((List.pairwise_cons.mp hds).1 g hg).le
        exact absurd (hge' f hd) (not_le.mpr hlt)
    · obtain ⟨h1, h2⟩ := ih hb.2 rest hleft rb hrb
      refine ⟨h1, fun hr f hf hfb => h2 hr f (hkept hr f hf ?_) hfb⟩
      have hmem : rb.2 ∈ blocks := by
        rw [← zoneReaches_blocks v c desc rollups blocks rest]
        exact List.mem_map_of_mem hrb
      have hlt := Nat.mul_le_mul_right BLOCK (hb.1 _ hmem).le
      exact hlt.trans ((div_block_iff _ _).mp hfb).1

/-! ## What a numeric order sorts by -/

theorem Folders.mem_of_find {folders : Folders} {row : Nat} {t : Int64}
    (h : folders.find row = some t) : (row, t) ∈ folders := by
  unfold Folders.find at h
  rw [Option.bind_eq_some_iff] at h
  obtain ⟨f, hf, hrow⟩ := h
  split at hrow
  · rename_i heq
    cases hrow
    exact heq ▸ List.mem_of_getElem? hf
  · cases hrow

theorem Folders.find_iff {folders : Folders} (hf : folders.Pairwise fun f g => f.1 < g.1)
    (row : Nat) (t : Int64) : folders.find row = some t ↔ (row, t) ∈ folders := by
  refine ⟨mem_of_find, fun h => ?_⟩
  obtain ⟨j, hj, hget⟩ := List.getElem_of_mem h
  have hdown := Search.downTo_of_pairwise folders hf (fun f => decide (f.1 < row))
    (fun a b hab hb => by
      rw [decide_eq_true_eq] at hb ⊢
      omega)
  have hlt := Search.lt_partitionPoint_iff folders.length _ hdown
  unfold find
  dsimp only
  generalize Search.partitionPoint folders.length
    (fun i => (folders[i]?).any fun f => decide (f.1 < row)) = k at hlt
  have hk : k = j := by
    have hkj : ¬ j < k := by
      rw [hlt j hj, List.getElem?_eq_getElem hj, hget]
      simp
    by_contra hne
    have hkj' : k < j := by omega
    have hrows := List.pairwise_iff_getElem.mp hf k j (by omega) hj hkj'
    rw [hget] at hrows
    have := (hlt k (by omega)).mpr (by
      rw [List.getElem?_eq_getElem (by omega)]
      simpa using hrows)
    omega
  rw [hk, List.getElem?_eq_getElem hj, hget]
  simp

/-- What a row is ordered by: for a directory under the size order the total the table has for it,
where it has one, and what the column stores otherwise. -/
def effective (v : View) (folders : Folders) (c : Column) (row : Nat) : Int :=
  if c = .stored .size ∧ v.seg.num .isDir row ≠ 0 then
    match folders.find? (·.1 = row) with
    | some f => f.2.toInt
    | none => v.column c row
  else v.column c row

theorem find?_eq_find {folders : Folders} (hf : folders.Pairwise fun f g => f.1 < g.1) (row : Nat) :
    (folders.find? (·.1 = row)).map (·.2) = folders.find row := by
  cases h : folders.find? (·.1 = row) with
  | none =>
    rw [Option.map_none]
    cases hfind : folders.find row with
    | none => rfl
    | some t =>
      have := List.find?_eq_none.mp h _ (Folders.mem_of_find hfind)
      simp at this
  | some f =>
    rw [Option.map_some, eq_comm, Folders.find_iff hf]
    have hrow : f.1 = row := by simpa using List.find?_some h
    exact hrow ▸ List.mem_of_find?_eq_some h

theorem folderSize_eq (v : View) {folders : Folders} (hf : folders.Pairwise fun f g => f.1 < g.1)
    (row : Nat) : folderSize v folders row = effective v folders (.stored .size) row := by
  unfold folderSize effective
  dsimp only
  by_cases hdir : v.seg.num .isDir row = 0
  · rw [if_pos (Or.inl hdir), if_neg (by simp [hdir])]
    rfl
  · by_cases hempty : folders.isEmpty = true
    · rw [if_pos (Or.inr hempty), if_pos ⟨rfl, hdir⟩, List.isEmpty_iff.mp hempty]
      rfl
    · rw [if_neg (by simp [hdir, hempty]), if_pos ⟨rfl, hdir⟩, ← find?_eq_find hf]
      cases folders.find? (·.1 = row) <;> rfl

theorem sortValue_effective (v : View) {folders : Folders}
    (hf : folders.Pairwise fun f g => f.1 < g.1) {sort : SortKey} {c : Column}
    (hc : sortField sort = some c) (row : Nat) (name : Str) (terms : List Str) :
    sortValue v row name sort terms folders = .num (effective v folders c row) := by
  cases sort <;> cases hc
  case size => exact congrArg SortValue.num (folderSize_eq v hf row)
  all_goals rfl

/-- The stored range of a block covers what its rows store. -/
theorem View.column_mem_range (v : View) (c : Column) (row : Nat) (hcols : row < v.seg.cols.length)
    (hkinds : row < v.kinds.length) :
    ∃ lo hi, v.columnRange c (row / BLOCK) = some (lo, hi) ∧ lo ≤ v.column c row ∧
      v.column c row ≤ hi := by
  have hB : BLOCK = 32 := rfl
  cases c with
  | stored f =>
    cases h : v.seg.blockRange f (row / BLOCK) with
    | none =>
      unfold Segment.blockRange at h
      split at h
      · rename_i heq
        have hlen := congrArg List.length heq
        rw [List.length_map, List.length_take, List.length_drop, List.length_nil, hB] at hlen
        omega
      · cases h
    | some b => exact ⟨b.1, b.2, h, v.seg.num_mem_ownBlock f row b.1 b.2 hcols h⟩
  | kind =>
    cases h : v.kindRange (row / BLOCK) with
    | none =>
      unfold View.kindRange at h
      split at h
      · rename_i heq
        have hlen := congrArg List.length heq
        rw [List.length_take, List.length_drop, List.length_nil, hB] at hlen
        omega
      · cases h
    | some b => exact ⟨b.1, b.2, h, v.kind_mem_kindRange row b.1 b.2 hkinds h⟩

/-- What a row is ordered by is within the reach of its block. -/
theorem reach_le_effective (v : View) {folders : Folders}
    (hf : folders.Pairwise fun f g => f.1 < g.1) (c : Column) (desc : Bool) {blocks : List Nat}
    (hblocks : blocks.Pairwise (· < ·)) {rb : Int × Nat} (hrb : rb ∈ zoneOrder v c desc blocks folders)
    {row : Nat} (hrow : row / BLOCK = rb.2) (hcols : row < v.seg.cols.length)
    (hkinds : row < v.kinds.length) : rb.1 ≤ zoneKey (effective v folders c row) desc := by
  unfold zoneOrder at hrb
  dsimp only at hrb
  rw [(List.perm_insertionSort _ _).mem_iff] at hrb
  obtain ⟨hcol, htab⟩ := zoneReaches_le v c desc _ blocks hblocks folders hf rb hrb
  obtain ⟨lo, hi, hrange, hlo, hhi⟩ := v.column_mem_range c row hcols hkinds
  have hstored : rb.1 ≤ zoneKey (v.column c row) desc := by
    refine (hcol lo hi (hrow ▸ hrange)).trans (zoneKey_le_of_le ?_)
    cases desc <;> simpa
  unfold effective
  split
  · rename_i hsize
    split
    · rename_i f hfind
      have hmem := List.mem_of_find?_eq_some hfind
      have hfrow : f.1 = row := by simpa using List.find?_some hfind
      refine htab ?_ f hmem (hfrow ▸ hrow)
      rw [decide_eq_true_eq]
      exact ⟨hsize.1, List.ne_nil_of_mem hmem⟩
    · exact hstored
  · exact hstored

instance : Std.Total reachLe where
  total a b := by
    rcases lt_trichotomy a.1 b.1 with h | h | h
    · exact Or.inl (Or.inl h)
    · exact (Nat.le_total a.2 b.2).imp (fun hb => Or.inr ⟨h, hb⟩) fun hb => Or.inr ⟨h.symm, hb⟩
    · exact Or.inr (Or.inl h)

instance : IsTrans (Int × Nat) reachLe where
  trans a b c hab hbc := by
    unfold reachLe at *
    omega

/-! ## Best block first -/

namespace SegmentWalk

variable {P : Platform} {w : SegmentWalk P}

/-- A row of a block that is out of reach, or of a later one, has a page before it. -/
theorem Keeping.behind (hexact : w.exact = true) {m : List Nat} {s : Walked} (h : w.Keeping m s)
    {rb rb' : Int × Nat} (hout : outOfReach s.worst rb.1 rb.2 = true) (hle : reachLe rb rb')
    {row : Nat} {v : Int} (hkey : w.key row = .num v)
    (hreach : rb'.1 ≤ zoneKey v w.want.descending) (hrow : row / BLOCK = rb'.2) :
    w.need ≤ Search.before (cutLe w.want.descending w.exact) (m.map w.entry) (w.entry row) := by
  unfold outOfReach at hout
  split at hout
  · cases hout
  · rename_i held at_ hworst
    rw [decide_eq_true_eq] at hout
    obtain ⟨v₀, hheld, hup⟩ := h.worst held at_ hworst
    refine hup.trans (Search.countP_le_before _ ?_)
    unfold cutLe pageLe entry
    rw [if_pos hexact, hkey]
    dsimp only
    rw [keyLt_num, SortValue.num.injEq]
    have hstart : rb'.2 * BLOCK ≤ row := ((div_block_iff _ _).mp hrow).1
    rintro (hlt | ⟨rfl, hat⟩)
    · rcases hle with hle | ⟨hle, -⟩ <;> rcases hout with hout | ⟨hout, -⟩ <;> omega
    · rcases hle with hle | ⟨hle, hblock⟩
      · rcases hout with hout | ⟨hout, -⟩ <;> omega
      · rcases hout with hout | ⟨-, hout⟩
        · omega
        · have := Nat.mul_le_mul_right BLOCK hblock
          omega

theorem shownIn_singleton (block : Nat) :
    w.shownIn [block] = (w.blockRows block).filter w.shown := by
  rw [shownIn, List.flatMap_singleton]

theorem Keeping.walkBlock (hneed : 0 < w.need) (hmode : w.storedOrder = false) {m : List Nat}
    {s : Walked} (h : w.Keeping m s) (block : Nat) (hnd : (m ++ w.shownIn [block]).Nodup) :
    w.Keeping (m ++ w.shownIn [block]) (w.walkBlock s block) := by
  rw [shownIn_singleton] at hnd ⊢
  exact h.visitAll hneed hmode w.walkName (w.blockRows block) (fun row _ => shows_name row)
    (fun row _ => sortValue_name hmode row) hnd

/-- The blocks are opened in order, and those left hold only rows with a page before them. -/
theorem Keeping.walkOrdered (hneed : 0 < w.need) (hmode : w.storedOrder = false)
    (hexact : w.exact = true) (order : List (Int × Nat)) (hsorted : order.Pairwise reachLe)
    (hreach : ∀ rb ∈ order, ∀ row ∈ w.shownIn [rb.2],
      ∃ v, w.key row = .num v ∧ rb.1 ≤ zoneKey v w.want.descending) :
    ∀ {m : List Nat} {s : Walked}, w.Keeping m s → (m ++ w.shownIn (order.map (·.2))).Nodup →
      ∃ opened, opened ++ (w.walkOrdered s order).2 = order.map (·.2) ∧
        w.Keeping (m ++ w.shownIn opened) (w.walkOrdered s order).1 ∧
        ∀ row ∈ w.shownIn (w.walkOrdered s order).2, w.need ≤
          Search.before (cutLe w.want.descending w.exact) ((m ++ w.shownIn opened).map w.entry)
            (w.entry row) := by
  induction order with
  | nil =>
    intro m s h _
    refine ⟨[], rfl, ?_, fun row hrow => ?_⟩
    · simpa [SegmentWalk.walkOrdered, shownIn] using h
    · simp [SegmentWalk.walkOrdered, shownIn] at hrow
  | cons rb order ih =>
    intro m s h hnd
    obtain ⟨reach, block⟩ := rb
    have hso := List.pairwise_cons.mp hsorted
    unfold SegmentWalk.walkOrdered
    split
    · rename_i hout
      refine ⟨[], rfl, ?_, fun row hrow => ?_⟩
      · simpa [shownIn] using h
      · obtain ⟨hmem, hshown⟩ := mem_shownIn.mp hrow
        rw [← List.map_cons (f := fun rb : Int × Nat => rb.2) (a := (reach, block)),
          List.mem_map] at hmem
        obtain ⟨rb', hrb', hblock⟩ := hmem
        have hle : reachLe (reach, block) rb' := by
          rcases List.mem_cons.mp hrb' with rfl | hrb'
          · exact Or.inr ⟨rfl, le_refl _⟩
          · exact hso.1 rb' hrb'
        obtain ⟨v, hkey, hv⟩ := hreach rb' hrb' row
          (mem_shownIn.mpr ⟨by rw [hblock]; exact List.mem_singleton_self _, hshown⟩)
        have hbehind := h.behind hexact hout hle hkey hv hblock.symm
        simpa [shownIn] using hbehind
    · dsimp only
      rw [List.map_cons, ← List.singleton_append, shownIn_append, ← List.append_assoc] at hnd
      have hnext := h.walkBlock hneed hmode block (List.nodup_append.mp hnd).1
      rw [hnext.going, if_neg (by simp)]
      obtain ⟨opened, hsplit, hkeep, hleft⟩ := ih hso.2
        (fun rb hrb => hreach rb (List.mem_cons_of_mem _ hrb)) hnext hnd
      have hcons : m ++ w.shownIn (block :: opened) = m ++ w.shownIn [block] ++ w.shownIn opened := by
        rw [← List.singleton_append, shownIn_append, List.append_assoc]
      refine ⟨block :: opened, ?_, ?_, ?_⟩
      · rw [List.cons_append, hsplit, List.map_cons]
      · rw [hcons]
        exact hkeep
      · rw [hcons]
        exact hleft

theorem exact_of_sortField {c : Column} (hc : sortField w.want.sort = some c) : w.exact = true := by
  unfold exact keyIsExact
  rw [decide_eq_true_eq]
  constructor <;>
  · intro h
    rw [h] at hc
    cases hc

/-- The blocks as they come, then in order: the same, from the first block. -/
theorem Keeping.walkBest (hneed : 0 < w.need) (hmode : w.storedOrder = false) {c : Column}
    (hc : sortField w.want.sort = some c) (hkinds : w.seg.rows ≤ w.seg.kinds.length)
    (hf : w.folders.Pairwise fun f g => f.1 < g.1) (blocks : List Nat)
    (hsorted : ∀ row ∈ w.shownRows, blocks.Pairwise (· < ·)) :
    ∀ {m : List Nat} {s : Walked}, w.Keeping m s → (m ++ w.shownIn blocks).Nodup →
      ∃ opened, (opened ++ (w.walkBest c s blocks).2).Perm blocks ∧
        w.Keeping (m ++ w.shownIn opened) (w.walkBest c s blocks).1 ∧
        ∀ row ∈ w.shownIn (w.walkBest c s blocks).2, w.need ≤
          Search.before (cutLe w.want.descending w.exact) ((m ++ w.shownIn opened).map w.entry)
            (w.entry row) := by
  induction blocks with
  | nil =>
    intro m s h _
    refine ⟨[], List.Perm.refl _, ?_, fun row hrow => ?_⟩
    · simpa [SegmentWalk.walkBest, shownIn] using h
    · simp [SegmentWalk.walkBest, shownIn] at hrow
  | cons block blocks ih =>
    intro m s h hnd
    unfold SegmentWalk.walkBest
    split
    · -- there is a page: the rest is opened in the order of the reaches
      have hperm := List.perm_insertionSort reachLe (zoneReaches w.seg c w.want.descending
        (c = .stored .size ∧ w.folders ≠ []) (block :: blocks) w.folders)
      have hblocks : ((zoneOrder w.seg c w.want.descending (block :: blocks) w.folders).map
          (·.2)).Perm (block :: blocks) := by
        refine (hperm.map _).trans ?_
        rw [zoneReaches_blocks]
      have hreach : ∀ rb ∈ zoneOrder w.seg c w.want.descending (block :: blocks) w.folders,
          ∀ row ∈ w.shownIn [rb.2],
            ∃ v, w.key row = .num v ∧ rb.1 ≤ zoneKey v w.want.descending := by
        intro rb hrb row hrow
        obtain ⟨hblock, hshown⟩ := mem_shownIn.mp hrow
        have hlt := (mem_shownRows.mp hshown).1
        refine ⟨_, sortValue_effective w.seg hf hc row _ _, ?_⟩
        exact reach_le_effective w.seg hf c _ (hsorted row hshown) hrb (List.mem_singleton.mp hblock)
          (hlt.trans_le (Nat.min_le_left _ _)) (hlt.trans_le hkinds)
      obtain ⟨opened, hsplit, hkeep, hleft⟩ := h.walkOrdered hneed hmode (exact_of_sortField hc)
        (zoneOrder w.seg c w.want.descending (block :: blocks) w.folders)
        (List.pairwise_insertionSort _ _) hreach
        ((List.Perm.append_left m (shownIn_perm hblocks)).nodup_iff.mpr hnd)
      exact ⟨opened, hsplit ▸ hblocks, hkeep, hleft⟩
    · dsimp only
      rw [← List.singleton_append, shownIn_append, ← List.append_assoc] at hnd
      have hnext := h.walkBlock hneed hmode block (List.nodup_append.mp hnd).1
      rw [hnext.going, if_neg (by simp)]
      obtain ⟨opened, hperm, hkeep, hleft⟩ :=
        ih (fun row hrow => (List.pairwise_cons.mp (hsorted row hrow)).2) hnext hnd
      have hcons : m ++ w.shownIn (block :: opened) = m ++ w.shownIn [block] ++ w.shownIn opened := by
        rw [← List.singleton_append, shownIn_append, List.append_assoc]
      refine ⟨block :: opened, hperm.cons block, ?_, ?_⟩
      · rw [hcons]
        exact hkeep
      · rw [hcons]
        exact hleft

/-- Best block first: what is kept is enough for the page of all that match, and the count is
finished up to the cap. -/
theorem bestFirst_spec (hcomplete : w.Complete) (hneed : 0 < w.need) (hmode : w.storedOrder = false)
    {c : Column} (hc : sortField w.want.sort = some c) (hkinds : w.seg.rows ≤ w.seg.kinds.length)
    (hf : w.folders.Pairwise fun f g => f.1 < g.1) :
    Search.Keeps (pageLe w.want.descending) w.need (w.shownRows.map w.entry)
        (w.bestFirst c).1.keyed ∧
      (w.bestFirst c).1.keyed.Nodup ∧
      min w.want.countCap w.shownRows.length ≤ (w.bestFirst c).1.counted ∧
      (w.bestFirst c).1.counted ≤ w.shownRows.length := by
  have hexact := exact_of_sortField hc
  obtain ⟨opened, hperm, hkeep, hleft⟩ := (keeping_start hneed).walkBest hneed hmode hc hkinds hf
    w.blocks hcomplete.sorted (by simpa using nodup_shownIn hcomplete.sorted)
  rw [List.nil_append] at hkeep hleft
  have hall : (w.shownIn opened ++ w.shownIn (w.walkBest c w.start w.blocks).2).Perm w.shownRows := by
    rw [← shownIn_append]
    exact (shownIn_perm hperm).trans hcomplete.perm
  have hcut : cutLe w.want.descending w.exact = pageLe w.want.descending := by
    funext a b
    unfold cutLe
    rw [if_pos hexact]
  have hkeeps : Search.Keeps (pageLe w.want.descending) w.need (w.shownRows.map w.entry)
      (w.walkBest c w.start w.blocks).1.keyed := by
    have hskip := hkeep.keeps.skip (m := (w.shownIn (w.walkBest c w.start w.blocks).2).map w.entry)
      (by
        intro x hx
        obtain ⟨row, hrow, rfl⟩ := List.mem_map.mp hx
        exact hleft row hrow)
    rw [← List.map_append] at hskip
    have hfin := hskip.perm (hall.map w.entry) (List.Perm.refl _)
    simpa only [hcut] using hfin
  have hnodup : (w.walkBest c w.start w.blocks).1.keyed.Nodup := by
    obtain ⟨l, hp, hl⟩ := hkeep.sub
    exact hp.nodup_iff.mp (hl.nodup (nodup_entries hkeep.nodup))
  have hlen := hall.length_eq
  rw [List.length_append] at hlen
  have hcounted := hkeep.counted
  unfold bestFirst
  dsimp only
  generalize w.walkBest c w.start w.blocks = r at *
  obtain ⟨s, left⟩ := r
  dsimp only at *
  split
  · dsimp only
    rw [walkRuns_eq false _ _ (by exact hkeep.going), runsOf_rows]
    have hcount := counting_visitAll hmode w.walkName
      ((left.insertionSort (· ≤ ·)).flatMap w.blockRows) (fun row _ => shows_name row)
      { s with closed := true } rfl hkeep.going
    have hsame : (((left.insertionSort (· ≤ ·)).flatMap w.blockRows).filter w.shown).length =
        (w.shownIn left).length := (shownIn_perm (List.perm_insertionSort _ left)).length_eq
    obtain ⟨h1, -, h3, h4, h5⟩ := hcount
    rw [hsame] at h3 h4
    dsimp only at h1 h3 h4
    rw [h1]
    refine ⟨hkeeps, hnodup, ?_, by omega⟩
    cases hd : (w.visitAll w.walkName { s with closed := true }
      ((left.insertionSort (· ≤ ·)).flatMap w.blockRows)).done with
    | false =>
      have := h4 hd
      omega
    | true =>
      have := h5 hd
      omega
  · rename_i hstop
    dsimp only
    refine ⟨hkeeps, hnodup, ?_, by omega⟩
    have : w.want.countCap ≤ s.counted := by
      have hgo := hkeep.going
      simpa [hgo] using hstop
    omega

end SegmentWalk

end Scour
