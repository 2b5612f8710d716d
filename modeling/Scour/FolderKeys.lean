import Scour.SizesRun
import Scour.WalkZone

/-!
# What a folder sorts by and what it shows

A search by size orders a directory row by the table of the row's own segment; `subtree_sizes` adds
up every segment.  The two agree exactly where the other segments hold nothing under the folder
(`sizeKey_shown_iff`), which one segment alone always meets.  A folder written to after it was
indexed, its new files in a segment of their own, sorts by a part of what it shows
(`not_sizeKey_shown`).
-/

namespace Scour

namespace Sizes

/-- The table a search by size hands to the walk of a segment, empty where none is built. -/
def foldersOf (P : Platform) (w : World) (l : Held) : Folders :=
  ((w.cache.freshRows P w.segments).rowsOf l.number).getD []

/-- What a search by size orders a row of a segment by. -/
def sizeKey (P : Platform) (w : World) (l : Held) (row : Nat) : SortValue :=
  sortValue (l.view P) row ((l.view P).foldedName row) .size [] (foldersOf P w l)

/-- The bytes a call for the size of a path answers. -/
def shown (P : Platform) (w : World) (path : Str) : List Nat :=
  (w.cache.subtrees P w.segments [path]).2.map (·.1.toNat)

/-- What the live files under a path hold in the segments of other numbers. -/
def elsewhere (P : Platform) (w : World) (l : Held) (path : Str) : Nat :=
  ((w.segments.filter fun k => k.number != l.number).map fun k => (k.total P path).1).sum

/-- When a folder's key is what the folder shows: its segment's table is built and no other segment
holds anything under it, or it is not built and the column says the same. -/
def KeyFits (P : Platform) (w : World) (l : Held) (e : Entry) : Prop :=
  if (w.cache.get? l.number).isSome then elsewhere P w l e.path.bytes = 0
  else e.info.size = ((total P w.segments e.path.bytes).1 : Int)

section
variable {P : Platform} {w : World}

theorem total_split (hw : Inv P w) {l : Held} (hl : l ∈ w.segments) (path : Str) :
    (total P w.segments path).1 = (l.total P path).1 + elsewhere P w l path := by
  have hone : w.segments.filter (fun k => k.number == l.number) = [l] := by
    have hnodup := hw.nodup
    generalize w.segments = ls at hl hnodup
    induction ls with
    | nil => cases hl
    | cons k ls ih =>
      rw [List.map_cons, List.nodup_cons] at hnodup
      rcases List.mem_cons.mp hl with rfl | hl
      · rw [List.filter_cons_of_pos (by simp), List.filter_eq_nil_iff.mpr]
        intro k' hk' heq
        exact hnodup.1 (List.mem_map.mpr ⟨k', hk', by simpa using heq⟩)
      · rw [List.filter_cons_of_neg, ih hl hnodup.2]
        intro heq
        exact hnodup.1 (List.mem_map.mpr ⟨l, hl, (beq_iff_eq.mp heq).symm⟩)
  have hsplit := List.filter_append_perm (fun k : Held => k.number == l.number) w.segments
  unfold total elsewhere
  dsimp only
  rw [← (hsplit.map fun k => (k.total P path).1).sum_eq, List.map_append, List.sum_append, hone]
  simp
  rfl

theorem shown_eq (hw : Inv P w) {path : Str} (hfits : Fits P w (.subtrees [path])) :
    shown P w path = [(total P w.segments path).1] := by
  have h := tells_subtrees hw hfits
  unfold Tells at h
  dsimp only at h
  have h' := congrArg (List.map Prod.fst) h
  rw [List.map_map] at h'
  exact h'

/-- Where the table is built, a folder sorts by what its own segment holds under it. -/
theorem sizeKey_built (hw : Inv P w) (hfits : Fits P w .freshRows) {l : Held} (hl : l ∈ w.segments)
    (hcached : (w.cache.get? l.number).isSome = true) {row : Nat} {e : Entry}
    (he : l.entries[row]? = some e) (hlive : bitAt l.alive row = true) (hdir : e.isDir = true) :
    sizeKey P w l row = .num ((l.total P e.path.bytes).1 : Int) := by
  obtain ⟨p, hp⟩ := Option.isSome_iff_exists.mp hcached
  have hq := (get?_freshRows w hw).1 l hl
  rw [hp] at hq
  obtain ⟨q, hq'⟩ : ∃ q, Cache.freshFrom P l (some p) = some q := ⟨_, rfl⟩
  rw [hq'] at hq
  obtain ⟨hfresh, hd, rows, ht⟩ := fresh_freshFrom hw hfits hl (hp ▸ hq')
  have hfolders : foldersOf P w l = q.byRow := by
    unfold foldersOf Cache.rowsOf
    rw [hq]
    rfl
  have hlisted := hfresh.listed (hw.whole l hl) ht hd he hlive hdir
    ((hfits l hl hcached).2 row e he hlive hdir)
  -- the one entry listed for the row is what the binary search finds
  obtain ⟨t, hmem, htotal⟩ : ∃ t, (row, t) ∈ q.byRow ∧ t.toInt = (l.total P e.path.bytes).1 := by
    have hin : ((l.total P e.path.bytes).1 : Int) ∈ listed q.byRow row := by
      rw [hlisted]
      exact List.mem_singleton_self _
    obtain ⟨r, hr, hval⟩ := List.mem_map.mp hin
    rw [List.mem_filter, beq_iff_eq] at hr
    exact ⟨r.2, hr.2 ▸ hr.1, hval⟩
  have hsorted : Folders.find q.byRow row = some t := by
    rw [Folders.find_iff _ row t]
    · exact hmem
    · rw [ht.totals hd, List.pairwise_map]
      exact ht.sorted
  have hnum : (l.view P).seg.num .isDir row = if e.isDir then 1 else 0 :=
    buildSorted_num he .isDir (by decide)
  unfold sizeKey sortValue folderSize
  dsimp only
  rw [hfolders, hsorted, if_neg, Option.map_some, Option.getD_some, htotal]
  rw [hnum, hdir]
  rintro (h | h)
  · cases h
  · rw [List.isEmpty_iff.mp h] at hmem
    cases hmem

/-- Where it is not, by its own column. -/
theorem sizeKey_unbuilt (hw : Inv P w) {l : Held} (hl : l ∈ w.segments)
    (hcached : (w.cache.get? l.number).isSome = false) {row : Nat} {e : Entry}
    (he : l.entries[row]? = some e) : sizeKey P w l row = .num e.info.size := by
  have hq := (get?_freshRows w hw).1 l hl
  rw [Option.isSome_eq_false_iff, Option.isNone_iff_eq_none] at hcached
  rw [hcached] at hq
  have hfolders : foldersOf P w l = [] := by
    unfold foldersOf Cache.rowsOf
    rw [hq]
    rfl
  have hnum : (l.view P).seg.num .size row = e.info.size := buildSorted_num he .size (by decide)
  unfold sizeKey sortValue folderSize
  dsimp only
  rw [hfolders, if_pos (by simp), hnum]

/-- **A folder sorts by the size it shows** exactly where its segment's table covers all of it. -/
theorem sizeKey_shown_iff (P : Platform) (w : World) (h : Reached P (Fits P) w)
    (hfits : Fits P w .freshRows) (l : Held) (hl : l ∈ w.segments) (row : Nat) (e : Entry)
    (he : l.entries[row]? = some e) (hlive : bitAt l.alive row = true) (hdir : e.isDir = true)
    (hasked : Fits P w (.subtrees [e.path.bytes])) :
    (∃ n : Nat, sizeKey P w l row = .num n ∧ shown P w e.path.bytes = [n]) ↔ KeyFits P w l e := by
  have hsplit := total_split h.inv hl e.path.bytes
  rw [shown_eq h.inv hasked]
  unfold KeyFits
  cases hcached : (w.cache.get? l.number).isSome with
  | true =>
    rw [sizeKey_built h.inv hfits hl hcached he hlive hdir, if_pos rfl]
    constructor
    · rintro ⟨n, hkey, hshown⟩
      rw [SortValue.num.injEq] at hkey
      rw [List.cons.injEq] at hshown
      omega
    · intro h0
      exact ⟨_, rfl, by rw [hsplit, h0, Nat.add_zero]⟩
  | false =>
    rw [sizeKey_unbuilt h.inv hl hcached he, if_neg (by simp)]
    constructor
    · rintro ⟨n, hkey, hshown⟩
      rw [SortValue.num.injEq] at hkey
      rw [List.cons.injEq] at hshown
      rw [hkey, hshown.1]
    · intro hsize
      exact ⟨_, by rw [hsize], rfl⟩

/-- A table fits where its segment's files together do. -/
theorem fits_freshRows
    (h : ∀ l ∈ w.segments, ((l.files P).map share).sum < 2 ^ 63) : Fits P w .freshRows := by
  intro l hl _
  refine ⟨(h l hl).trans (by decide), ?_⟩
  intro row e _ _ _
  have hsub := (List.filter_sublist (l := l.files P) (p := fun f => under f.parent e.path.bytes))
  exact (hsub.map share).sum_le_sum (fun _ _ => Nat.zero_le _) |>.trans_lt (h l hl)

def folder (path : String) : Entry := { Entry.file path with isDir := true }

/-- Two folders asked about while their files lay in one segment. -/
def indexedFirst : List Entry :=
  [folder "/a", folder "/b",
    { Entry.file "/a/f" with info := { Meta.UNKNOWN with disk := 4096 } },
    { Entry.file "/b/f" with info := { Meta.UNKNOWN with disk := 6144 } }]

def indexedOnce : World :=
  ⟨[⟨7, 0, indexedFirst, [15]⟩],
    (Cache.subtrees .plain [] [⟨7, 0, indexedFirst, [15]⟩] [str "/a"]).1, [7]⟩

theorem sizeKey_shown_iff_indexedOnce :
    (∃ n : Nat, sizeKey .plain indexedOnce ⟨7, 0, indexedFirst, [15]⟩ 0 = .num n ∧
      shown .plain indexedOnce (folder "/a").path.bytes = [n]) ↔
    KeyFits .plain indexedOnce ⟨7, 0, indexedFirst, [15]⟩ (folder "/a") := by
  refine sizeKey_shown_iff .plain indexedOnce ?_ (fits_freshRows (by decide +kernel)) _
    (List.mem_singleton_self _) 0 (folder "/a") rfl (by decide) rfl
    ⟨by decide +kernel, by decide +kernel⟩
  refine .step ⟨[⟨7, 0, indexedFirst, [15]⟩], [], [7]⟩ _ (.subtrees [str "/a"]) ?_
    ⟨by decide +kernel, by decide +kernel⟩ rfl
  exact .step _ _ (.open_ 7 indexedFirst [15]) .start trivial rfl

/-- A file written to the first folder once the segment was closed, in a segment of its own. -/
def indexedLater : List Entry :=
  [{ Entry.file "/a/g" with info := { Meta.UNKNOWN with disk := 4096 } }]

def lateSegments : List Held := [⟨7, 0, indexedFirst, [15]⟩, ⟨8, 0, indexedLater, [1]⟩]

def writtenLater : World :=
  ⟨lateSegments, (Cache.subtrees .plain [] lateSegments [str "/a"]).1, [8, 7]⟩

/-- `/a` shows 8192 bytes and sorts as 4096, below `/b` that shows 6144. -/
theorem not_sizeKey_shown :
    Reached .plain (Fits .plain) writtenLater ∧ Fits .plain writtenLater .freshRows ∧
      (∀ l ∈ writtenLater.segments, (writtenLater.cache.get? l.number).isSome) ∧
      ¬ (∃ n : Nat, sizeKey .plain writtenLater ⟨7, 0, indexedFirst, [15]⟩ 0 = .num n ∧
        shown .plain writtenLater (str "/a") = [n]) ∧
      shown .plain writtenLater (str "/a") = [8192] ∧
      shown .plain writtenLater (str "/b") = [6144] ∧
      sizeKey .plain writtenLater ⟨7, 0, indexedFirst, [15]⟩ 0 = .num 4096 ∧
      sizeKey .plain writtenLater ⟨7, 0, indexedFirst, [15]⟩ 1 = .num 6144 := by
  have hkey : sizeKey .plain writtenLater ⟨7, 0, indexedFirst, [15]⟩ 0 = .num 4096 := by
    decide +kernel
  have hshown : shown .plain writtenLater (str "/a") = [8192] := by decide +kernel
  refine ⟨?_, fits_freshRows (by decide +kernel), by decide +kernel, ?_, hshown, by decide +kernel, hkey,
    by decide +kernel⟩
  · refine .step ⟨lateSegments, [], [8, 7]⟩ _ (.subtrees [str "/a"]) ?_
      ⟨by decide +kernel, by decide +kernel⟩ rfl
    refine .step ⟨[⟨7, 0, indexedFirst, [15]⟩], [], [7]⟩ _ (.open_ 8 indexedLater [1]) ?_
      trivial rfl
    exact .step _ _ (.open_ 7 indexedFirst [15]) .start trivial rfl
  · rintro ⟨n, hn, hs⟩
    rw [hkey, SortValue.num.injEq] at hn
    rw [hshown, List.cons.injEq] at hs
    omega

end

end Sizes

end Scour
