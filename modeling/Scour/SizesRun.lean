import Scour.Reach
import Scour.SizesRows

/-!
# Cached folder sizes stay true

`Inv` is what holds of an index and its cache whatever was killed, opened, retired and asked for: the
sums of every segment in the cache are those of an earlier look at it, and the segment's death count
tells whether anything died since.

`sizes_stay_true`: in every run whose calls `Fits` holds of, a call for sizes answers what the live
files at and below each path hold, and after a call for the rows' totals every table lists its
segment's total for every live directory.  Where a segment's files together pass 64 bits a folder of
it may weigh nothing (`not_sizes_stay_true`).
-/

namespace Scour

namespace Sizes

/-! ## What a folder holds -/

/-- An entry's share of what its blocks hold: no less than nothing, by the names its file has. -/
def share (e : Entry) : Nat :=
  (max (Int64.ofInt e.info.disk) 0).toInt.toNat / (max (Int64.ofInt e.info.links) 1).toInt.toNat

section
variable (P : Platform)

/-- The live files of a segment. -/
def Held.files (l : Held) : List Entry := (l.view P).liveEntries.filter fun e => !e.isDir

/-- The live files of a segment whose directory is a path or below it. -/
def Held.filesUnder (l : Held) (path : Str) : List Entry :=
  (l.files P).filter fun e => under e.parent path

/-- What they hold, and their number. -/
def Held.total (l : Held) (path : Str) : Nat × Nat :=
  (((l.filesUnder P path).map share).sum, (l.filesUnder P path).length)

/-- What the live files of all segments hold under a path, and their number. -/
def total (segments : List Held) (path : Str) : Nat × Nat :=
  ((segments.map fun l => (l.total P path).1).sum, (segments.map fun l => (l.total P path).2).sum)

/-- What a table lists for a row. -/
def listed (table : List (Nat × Int64)) (row : Nat) : List Int :=
  (table.filter fun r => r.1 == row).map fun r => r.2.toInt

/-- A call says what is so: sizes are those of the live files, and tables list those of their
segment. -/
def Tells (w : World) : Act → Prop
  | .subtrees paths =>
    (w.cache.subtrees P w.segments paths).2.map (fun o => (o.1.toNat, o.2.toNat)) =
      paths.map (total P w.segments)
  | .freshRows => ∀ l ∈ w.segments, ∀ table, (w.cache.freshRows P w.segments).rowsOf l.number = some table →
      ∀ row e, l.entries[row]? = some e → bitAt l.alive row = true → e.isDir = true →
        listed table row = [((l.total P e.path.bytes).1 : Int)]
  | _ => True

/-- The figures a call works with fit: a segment's whole total and an answer in 64 bits, a total in
a table in 63. -/
def Fits (w : World) : Act → Prop
  | .subtrees paths => (∀ l ∈ w.segments, ((l.files P).map share).sum < 2 ^ 64) ∧
      ∀ path ∈ paths, (total P w.segments path).1 < 2 ^ 64 ∧ (total P w.segments path).2 < 2 ^ 64
  | .freshRows => ∀ l ∈ w.segments, (w.cache.get? l.number).isSome →
      ((l.files P).map share).sum < 2 ^ 64 ∧
        ∀ row e, l.entries[row]? = some e → bitAt l.alive row = true → e.isDir = true →
          (l.total P e.path.bytes).1 < 2 ^ 63
  | _ => True

/-- The states of a run from an empty index, each of its steps meeting a condition. -/
inductive Reached (C : World → Act → Prop) : World → Prop
  | start : Reached C ⟨[], [], []⟩
  | step (w w' : World) (a : Act) : Reached C w → C w a → step P w a = some w' → Reached C w'

end

/-! ## Rows and entries -/

section
variable {P : Platform} {l : Held}

/-- A segment as `open_` takes it, and as it stays. -/
structure Held.Whole (l : Held) : Prop where
  rows : l.entries.length < 2 ^ 32
  alive : l.alive.length = (l.entries.length + 7) / 8

theorem view_rows (l : Held) : (l.view P).rows = l.entries.length :=
  View.buildSorted_rows P l.entries

theorem view_seg_rows (l : Held) : (l.view P).seg.rows = l.entries.length := View.opened_rows

theorem Held.Whole.filed (h : l.Whole) : Filed (l.view P) where
  rows := by
    rw [view_rows]
    exact h.rows
  sorted := (View.opened_dirs (l.entries, l.alive)).1
  dirs := fun row hrow => View.opened_dirOf (l.entries, l.alive) row hrow
  alive := by
    rw [view_rows]
    exact h.alive
  few := by
    rw [view_rows]
    have hsorted := (View.opened_dirs (P := P) (l.entries, l.alive)).1
    have hsub : (l.view P).seg.dirs.paths ⊆ l.entries.map Entry.parent := by
      intro d hd
      obtain ⟨e, he, rfl⟩ := (mem_buildSorted_dirs l.entries d).mp hd
      exact List.mem_map_of_mem he
    have hnodup : (l.view P).seg.dirs.paths.Nodup := hsorted.imp fun h => ne_of_lt h
    have := (hnodup.subperm hsub).length_le
    rwa [List.length_map] at this

theorem toNat_max_toUInt64 (a : Int64) {b : Int64} (hb : 0 ≤ b) :
    (max a b).toUInt64.toNat = (max a b).toInt.toNat := by
  have hle : 0 ≤ (max a b).toInt := by
    have hb : 0 ≤ b.toInt := Int64.le_iff_toInt_le.mp hb
    show 0 ≤ (if a ≤ b then b else a).toInt
    by_cases h : a ≤ b
    · rwa [if_pos h]
    · rw [if_neg h]
      rw [Int64.le_iff_toInt_le] at h
      omega
  generalize max a b = x at hle ⊢
  have hx := BitVec.toInt_eq_toNat_cond x.toBitVec
  have hlt := x.toBitVec.isLt
  show x.toBitVec.toNat = x.toBitVec.toInt.toNat
  have hle : 0 ≤ x.toBitVec.toInt := hle
  split at hx
  · omega
  · omega

theorem held_eq {row : Nat} {e : Entry} (he : l.entries[row]? = some e) :
    held (l.view P) row = share e := by
  have hdisk : (l.view P).seg.num .disk row = e.info.disk := buildSorted_num he .disk (by decide)
  have hlinks : (l.view P).seg.num .links row = e.info.links := by
    refine (buildSorted_num he .links (by decide)).trans ?_
    exact max_eq_left e.info.named
  unfold held diskShare share View.numOf
  rw [UInt64.toNat_div, toNat_max_toUInt64 _ (by decide), toNat_max_toUInt64 _ (by decide), hdisk,
    hlinks]

theorem sum_filterMap {entry : Nat → Option Entry} (c : Nat → Bool) (C : Entry → Bool) (g : Nat → Nat)
    (s : Entry → Nat) (rows : List Nat)
    (h : ∀ row ∈ rows, ∃ e, entry row = some e ∧ c row = C e ∧ g row = s e) :
    ((rows.filter c).map g).sum = (((rows.filterMap entry).filter C).map s).sum := by
  induction rows with
  | nil => rfl
  | cons row rows ih =>
    obtain ⟨e, he, hc, hg⟩ := h row List.mem_cons_self
    have ih := ih fun r hr => h r (List.mem_cons_of_mem _ hr)
    rw [List.filterMap_cons_some he, List.filter_cons, List.filter_cons, hc]
    by_cases hC : C e = true
    · rw [if_pos hC, if_pos hC, List.map_cons, List.map_cons, List.sum_cons, List.sum_cons, hg, ih]
    · rw [if_neg hC, if_neg hC, ih]

/-- A sum over the rows is one over the entries. -/
theorem amount_entries (h : l.Whole) (g : Nat → Nat) (s : Entry → Nat) (q : Nat → Bool)
    (Q : Entry → Bool)
    (hg : ∀ row e, l.entries[row]? = some e → g row = s e)
    (hq : ∀ row e, l.entries[row]? = some e → q ((l.view P).seg.dirId row) = Q e) :
    amount (l.view P) l.alive g q = (((l.files P).filter Q).map s).sum := by
  have hrows : ((List.range (l.view P).rows).filter fun row => bitAt l.alive row &&
      ((l.view P).seg.num .isDir row == 0) && q ((l.view P).seg.dirId row)) =
      ((List.range (l.view P).seg.rows).filter (l.view P).isAlive).filter fun row =>
        q ((l.view P).seg.dirId row) && ((l.view P).seg.num .isDir row == 0) := by
    rw [List.filter_filter, view_seg_rows, view_rows]
    refine List.filter_congr fun row hrow => ?_
    rw [h.filed.isAlive (by rw [view_rows]; exact List.mem_range.mp hrow),
      show (l.view P).alive = l.alive from rfl]
    cases bitAt l.alive row <;> cases (l.view P).seg.num .isDir row == 0 <;>
      cases q ((l.view P).seg.dirId row) <;> rfl
  unfold amount Held.files View.liveEntries
  rw [hrows]
  conv_rhs => rw [List.filter_filter]
  refine sum_filterMap _ _ g s _ fun row hrow => ?_
  have hlt : row < l.entries.length := by
    have := List.mem_range.mp (List.mem_filter.mp hrow).1
    rwa [view_seg_rows] at this
  have he := List.getElem?_eq_getElem hlt
  refine ⟨l.entries[row], (View.opened_entry row).trans he, ?_, hg row _ he⟩
  have hdir : (l.view P).seg.num .isDir row = if l.entries[row].isDir then 1 else 0 :=
    buildSorted_num he .isDir (by decide)
  rw [hq row _ he, hdir]
  cases l.entries[row].isDir <;> rfl

theorem contains_entry (h : l.Whole) (path : Str) {row : Nat} {e : Entry}
    (he : l.entries[row]? = some e) :
    ((l.view P).seg.dirs.subtree path).contains ((l.view P).seg.dirId row) = under e.parent path := by
  have hfiled := h.filed (P := P)
  have hrow : row < (l.view P).rows := by
    rw [view_rows]
    exact (List.getElem?_eq_some_iff.mp he).1
  obtain ⟨hget, hdir⟩ := hfiled.dirs row hrow
  rw [contains_subtree _ hfiled.sorted path hget hdir,
    show (l.view P).seg.dirOf row = e.parent from buildSorted_dirOf he]

theorem amount_total (h : l.Whole) (path : Str) :
    amount (l.view P) l.alive (held (l.view P))
        (fun d => ((l.view P).seg.dirs.subtree path).contains d) = (l.total P path).1 ∧
      amount (l.view P) l.alive one
        (fun d => ((l.view P).seg.dirs.subtree path).contains d) = (l.total P path).2 := by
  constructor
  · exact amount_entries h _ share _ (fun e => under e.parent path) (fun row e he => held_eq he)
      fun row e he => contains_entry h path he
  · rw [amount_entries h one (fun _ => 1) _ (fun e => under e.parent path) (fun row e he => rfl)
      fun row e he => contains_entry h path he, List.map_const', List.sum_replicate, nsmul_eq_mul,
      Nat.cast_id, Nat.mul_one]
    rfl

theorem amount_files (h : l.Whole) :
    amount (l.view P) l.alive (held (l.view P)) (fun _ => true) = ((l.files P).map share).sum := by
  rw [amount_entries h _ share _ (fun _ => true) (fun row e he => held_eq he) fun row e he => rfl,
    List.filter_true]

/-! ## The sums of a segment, and the segment since -/

/-- The sums are those of an earlier look at the segment. -/
structure Tracks (P : Platform) (l : Held) (p : Prefix) : Prop where
  sums : ∃ built, p.Sums (l.view P) built
  length : p.seen.length = l.alive.length
  sub : ∀ row, bitAt l.alive row = true → bitAt p.seen row = true
  deaths : p.deaths ≤ l.deaths
  same : l.deaths = p.deaths → ∀ row, bitAt p.seen row = bitAt l.alive row
  table : ∃ rows, p.rowsReady = true → p.Table (l.view P) rows
  rowsDeaths : p.rowsDeaths ≤ p.deaths

/-- Up to now: nothing died since the look. -/
structure Fresh (P : Platform) (l : Held) (p : Prefix) : Prop extends Tracks P l p where
  upTo : p.deaths = l.deaths

variable {p : Prefix}

theorem Fresh.seen (h : Fresh P l p) (g : Nat → Nat) (q : Nat → Bool) :
    amount (l.view P) p.seen g q = amount (l.view P) l.alive g q :=
  amount_bits (fun row _ => h.same h.upTo.symm row) q

theorem fresh_rebuild (hl : l.Whole) (hfits : ((l.files P).map share).sum < 2 ^ 64) :
    Fresh P l (rebuild (l.view P) l.deaths) where
  sums := ⟨_, rebuild_sums hl.filed l.deaths (by
    rw [show (l.view P).alive = l.alive from rfl, amount_files hl]
    exact hfits)⟩
  length := rfl
  sub := fun _ h => h
  deaths := le_refl _
  same := fun _ _ => rfl
  table := ⟨[], nofun⟩
  rowsDeaths := le_refl _
  upTo := rfl

/-- What a refresh leaves of the table's own count. -/
theorem rowsDeaths_refresh (h : Tracks P l p) :
    (p.refresh (l.view P) l.deaths).rowsDeaths ≤ l.deaths := by
  obtain ⟨built, hsums⟩ := h.sums
  obtain ⟨-, heq⟩ | heq | ⟨-, gone, -, -, heq⟩ :=
    refresh_cases (v := l.view P) hsums.sorted hsums.goneDisk l.deaths
  · rw [heq]
    exact le_trans h.rowsDeaths h.deaths
  · rw [heq]
    exact le_refl _
  · rw [heq]
    exact le_trans h.rowsDeaths h.deaths

theorem Tracks.refresh (hl : l.Whole) (h : Tracks P l p)
    (hfits : ((l.files P).map share).sum < 2 ^ 64) :
    Fresh P l (p.refresh (l.view P) l.deaths) := by
  obtain ⟨built, hsums⟩ := h.sums
  obtain ⟨rows, htable⟩ := h.table
  have hb : p.Before (l.view P) l.deaths := ⟨h.length, h.sub, h.same⟩
  obtain ⟨hnow, hdeaths, hlen, hseen⟩ := refresh_sums hl.filed hsums hb (by
    rw [show (l.view P).alive = l.alive from rfl, amount_files hl]
    exact hfits)
  exact
    { sums := hnow
      length := hlen
      sub := fun row hrow => (hseen row).trans hrow
      deaths := hdeaths.le
      same := fun _ => hseen
      table := ⟨rows, fun hready =>
        refresh_table hsums.sorted hsums.goneDisk hb h.rowsDeaths h.deaths hready htable⟩
      rowsDeaths := by
        rw [hdeaths]
        exact rowsDeaths_refresh h
      upTo := hdeaths }

/-- A refresh of the table leaves the sums. -/
theorem refreshRows_eq (hd : p.refreshRows.rowsDeaths = p.refreshRows.deaths) :
    p.refreshRows = { p with byRow := p.refreshRows.byRow, rowsDeaths := p.deaths } := by
  unfold Prefix.refreshRows at hd ⊢
  split
  · rename_i hsame
    rw [if_pos hsame] at hd
    cases p
    cases hd
    rfl
  · rfl

/-- Bringing a segment's table up to date: it is ready, and up to now. -/
theorem Fresh.rows (hl : l.Whole) (h : Fresh P l p) :
    let q := if p.rowsReady then p.refreshRows else p.buildRows (l.view P)
    Fresh P l q ∧ q.rowsDeaths = q.deaths ∧ ∃ rows, q.Table (l.view P) rows := by
  intro q
  cases hready : p.rowsReady with
  | true =>
    obtain ⟨rows, htable⟩ := h.table
    obtain ⟨ht, hd⟩ := refreshRows_table (htable hready) hready
    have hq : q = p.refreshRows := if_pos hready
    rw [hq]
    have hkeep := refreshRows_eq hd
    refine ⟨?_, hd, rows, ht⟩
    rw [hkeep] at ht ⊢
    obtain ⟨built, hs⟩ := h.sums
    exact
      { sums := ⟨built, ⟨hs.length_disk, hs.length_files, hs.disk, hs.files, hs.fits, hs.sorted,
          hs.goneDisk, hs.gone, hs.goneFiles⟩⟩
        length := h.length
        sub := h.sub
        deaths := h.deaths
        same := h.same
        table := ⟨rows, fun _ => ht⟩
        rowsDeaths := le_refl _
        upTo := h.upTo }
  | false =>
    have hq : q = p.buildRows (l.view P) := if_neg (by rw [hready]; exact Bool.false_ne_true)
    rw [hq]
    have ht := buildRows_table (p := p) (Held.Whole.filed (P := P) hl) (h.same h.upTo.symm)
    obtain ⟨built, hs⟩ := h.sums
    refine ⟨?_, rfl, _, ht⟩
    exact
      { sums := ⟨built, ⟨hs.length_disk, hs.length_files, hs.disk, hs.files, hs.fits, hs.sorted,
          hs.goneDisk, hs.gone, hs.goneFiles⟩⟩
        length := h.length
        sub := h.sub
        deaths := h.deaths
        same := h.same
        table := ⟨_, fun _ => ht⟩
        rowsDeaths := le_refl _
        upTo := h.upTo }

/-- A row's death leaves the sums behind. -/
theorem Tracks.kill (hl : l.Whole) (h : Tracks P l p) (row : Nat) : Tracks P (kill l row) p := by
  unfold Sizes.kill
  by_cases hrow : l.entries.length ≤ row
  · rw [if_pos hrow]
    exact h
  · rw [if_neg hrow]
    have hclear := bitAt_clear l.alive row
    have hlen := hl.alive
    obtain ⟨byte, hbyte⟩ : ∃ byte, l.alive[row / 8]? = some byte :=
      ⟨_, List.getElem?_eq_getElem (by omega)⟩
    rw [hbyte]
    have hbit : bitAt l.alive row = (byte &&& (1 <<< UInt8.ofNat (row % 8)) != 0) := by
      unfold bitAt
      rw [hbyte]
    dsimp only
    rw [← hbit]
    exact
      { sums := by
          obtain ⟨built, hs⟩ := h.sums
          exact ⟨built, ⟨hs.length_disk, hs.length_files, hs.disk, hs.files, hs.fits, hs.sorted,
            hs.goneDisk, hs.gone, hs.goneFiles⟩⟩
        length := by rw [h.length, List.length_modify]
        sub := by
          intro i hi
          rw [hclear, Bool.and_eq_true] at hi
          exact h.sub i hi.1
        deaths := le_trans h.deaths (Nat.le_add_right _ _)
        same := by
          intro hd i
          have hd : l.deaths + (bitAt l.alive row).toNat = p.deaths := hd
          rw [hclear]
          cases hb : bitAt l.alive row with
          | true =>
            -- it was live: the segment has died more than the sums know
            rw [hb, Bool.toNat_true] at hd
            have := h.deaths
            omega
          | false =>
            rw [hb, Bool.toNat_false, Nat.add_zero] at hd
            rw [h.same hd i]
            by_cases hi : i = row
            · rw [hi, hb]
              rfl
            · rw [bne_iff_ne.mpr hi, Bool.and_true]
        table := by
          obtain ⟨rows, htable⟩ := h.table
          refine ⟨rows, fun hready => ?_⟩
          have ht := htable hready
          exact ⟨ht.keys, ht.scopes, ht.sorted, ht.inside, ht.live, ht.totals⟩
        rowsDeaths := h.rowsDeaths }

theorem Held.Whole.kill (hl : l.Whole) (row : Nat) : (Sizes.kill l row).Whole := by
  unfold Sizes.kill
  by_cases hrow : l.entries.length ≤ row
  · rw [if_pos hrow]
    exact hl
  · rw [if_neg hrow]
    exact ⟨hl.rows, by rw [List.length_modify, hl.alive]⟩

theorem number_kill (l : Held) (row : Nat) : (kill l row).number = l.number := by
  unfold kill
  split <;> rfl

/-! ## Answers of one segment -/

theorem Fresh.subtree (hl : l.Whole) (h : Fresh P l p) (path : Str) :
    (p.subtree (l.view P) path).1.toNat = (l.total P path).1 ∧
      (p.subtree (l.view P) path).2.toNat = (l.total P path).2 := by
  obtain ⟨built, hs⟩ := h.sums
  obtain ⟨hdisk, hfiles⟩ := subtree_eq hs hl.filed path
  rw [hdisk, hfiles, h.seen, h.seen]
  exact amount_total hl path

/-- A table that is ready and up to now lists a live directory once, with its total. -/
theorem Fresh.listed (hl : l.Whole) (h : Fresh P l p) {rows : List Nat}
    (ht : p.Table (l.view P) rows) (hd : p.rowsDeaths = p.deaths) {row : Nat} {e : Entry}
    (he : l.entries[row]? = some e) (hlive : bitAt l.alive row = true) (hdir : e.isDir = true)
    (hfits : (l.total P e.path.bytes).1 < 2 ^ 63) :
    listed p.byRow row = [((l.total P e.path.bytes).1 : Int)] := by
  obtain ⟨built, hs⟩ := h.sums
  have hrow : row < l.entries.length := (List.getElem?_eq_some_iff.mp he).1
  have hnum : (l.view P).seg.num .isDir row = if e.isDir then 1 else 0 :=
    buildSorted_num he .isDir (by decide)
  have hmem : row ∈ rows := by
    refine ht.live row (List.mem_filter.mpr ⟨List.mem_range.mpr ?_, ?_⟩)
    · rwa [view_rows]
    · rw [h.same h.upTo.symm, hlive, hnum, hdir]
      rfl
  have hpath : pathOf (l.view P) row = e.path.bytes := by
    unfold pathOf
    rw [show (l.view P).seg.dirOf row = e.parent from buildSorted_dirOf he,
      List.getD_eq_getElem?_getD, show (l.view P).seg.names[row]? = some e.name from buildSorted_name he]
    exact joinPath_splitPath e.path
  have htotal := (amount_total (P := P) hl e.path.bytes).1
  unfold Sizes.listed
  rw [ht.totals hd, List.filter_map]
  have hone : rows.filter ((fun r : Nat × Int64 => r.1 == row) ∘
      fun r => (r, p.scopeTotal (bounds (l.view P).seg.dirs (pathOf (l.view P) r)))) = [row] := by
    have hcount : rows.filter (· == row) = [row] := by
      rw [List.filter_beq, List.count_eq_one_of_mem (ht.sorted.imp fun h => ne_of_lt h) hmem]
      rfl
    exact hcount
  rw [hone, List.map_singleton, List.map_singleton, hpath,
    scopeTotal_eq hs hl.filed e.path.bytes (by rw [h.seen, htotal]; exact hfits), h.seen, htotal]

end

/-! ## The cache -/

namespace Cache

/-- What is kept under a number is found. -/
theorem get?_filter (keep : Nat × Prefix → Bool) (n : Nat) (h : ∀ e, e.1 = n → keep e = true)
    (c : Cache) : get? (c.filter keep) n = c.get? n := by
  unfold get?
  congr 1
  induction c with
  | nil => rfl
  | cons e c ih =>
    by_cases he : e.1 = n
    · rw [List.filter_cons_of_pos (h e he), List.find?_cons_of_pos (by simpa using he),
        List.find?_cons_of_pos (by simpa using he)]
    · rw [List.find?_cons_of_neg (by simpa using he), List.filter_cons]
      split
      · rw [List.find?_cons_of_neg (by simpa using he), ih]
      · exact ih

theorem get?_insert (c : Cache) (number n : Nat) (p : Prefix) :
    (c.insert number p).get? n = if n = number then some p else c.get? n := by
  by_cases h : n = number
  · rw [h, if_pos rfl]
    unfold get? insert
    rw [List.find?_cons_of_pos (by simp)]
    rfl
  · have hkeep := get?_filter (fun e => e.1 != number) n (fun e he => by
      rw [he]
      exact bne_iff_ne.mpr h) c
    rw [if_neg h, ← hkeep]
    unfold get? insert
    rw [List.find?_cons_of_neg (by simpa using fun hc : number = n => h hc.symm)]

theorem mem_insert {c : Cache} {number : Nat} {p : Prefix} {e : Nat × Prefix}
    (h : e ∈ c.insert number p) : e.1 = number ∨ e ∈ c := by
  rcases List.mem_cons.mp h with rfl | h
  · exact Or.inl rfl
  · exact Or.inr (List.mem_filter.mp h).1

/-- A walk over the segments that sees to one number at each. -/
theorem get?_foldl (f : Cache → Held → Cache) (F : Held → Option Prefix → Option Prefix)
    (hself : ∀ c l, (f c l).get? l.number = F l (c.get? l.number))
    (hother : ∀ c l n, n ≠ l.number → (f c l).get? n = c.get? n)
    (hkeys : ∀ c l, ∀ e ∈ f c l, e.1 = l.number ∨ e ∈ c) (ls : List Held) :
    (ls.map (·.number)).Nodup → ∀ c : Cache,
      (∀ l ∈ ls, (ls.foldl f c).get? l.number = F l (c.get? l.number)) ∧
      (∀ n, (∀ l ∈ ls, l.number ≠ n) → (ls.foldl f c).get? n = c.get? n) ∧
      ∀ e ∈ ls.foldl f c, (∃ l ∈ ls, e.1 = l.number) ∨ e ∈ c := by
  induction ls with
  | nil =>
    intro _ c
    exact ⟨nofun, fun n _ => rfl, fun e he => Or.inr he⟩
  | cons l ls ih =>
    intro hnodup c
    rw [List.map_cons, List.nodup_cons] at hnodup
    have hne : ∀ m ∈ ls, m.number ≠ l.number := fun m hm heq =>
      hnodup.1 (heq ▸ List.mem_map_of_mem hm)
    obtain ⟨hin, hout, hmem⟩ := ih hnodup.2 (f c l)
    rw [List.foldl_cons]
    refine ⟨fun m hm => ?_, fun n hn => ?_, fun e he => ?_⟩
    · rcases List.mem_cons.mp hm with rfl | hm
      · rw [hout _ hne, hself]
      · rw [hin m hm, hother c l _ (hne m hm)]
    · rw [hout n fun m hm => hn m (List.mem_cons_of_mem _ hm),
        hother c l n (hn l List.mem_cons_self).symm]
    · rcases hmem e he with ⟨m, hm, heq⟩ | he
      · exact Or.inl ⟨m, List.mem_cons_of_mem _ hm, heq⟩
      · rcases hkeys c l e he with heq | he
        · exact Or.inl ⟨l, List.mem_cons_self, heq⟩
        · exact Or.inr he

/-! ### Sizes -/

section
variable {P : Platform}

/-- The sums of a segment brought up to date, from what the cache has of it. -/
def entryFrom (P : Platform) (l : Held) : Option Prefix → Prefix
  | some p => p.refresh (l.view P) l.deaths
  | none => rebuild (l.view P) l.deaths

theorem entry_eq (c : Cache) (l : Held) : c.entry P l = entryFrom P l (c.get? l.number) := by
  unfold entry
  cases c.get? l.number <;> rfl

/-- What the segments add, one after another. -/
theorem foldl_addSegment (paths : List Str) (ls : List Held) :
    (ls.map (·.number)).Nodup → ∀ (c : Cache) (f : Str → UInt64 × UInt64),
      ls.foldl (addSegment P paths) (c, paths.map f) =
        (ls.foldl (fun c l => c.insert l.number (c.entry P l)) c,
          paths.map fun path => ls.foldl (fun o l =>
            (o.1 + ((c.entry P l).subtree (l.view P) path).1,
              o.2 + ((c.entry P l).subtree (l.view P) path).2)) (f path)) := by
  induction ls with
  | nil => exact fun _ c f => rfl
  | cons l ls ih =>
    intro hnodup c f
    rw [List.map_cons, List.nodup_cons] at hnodup
    have hone : addSegment P paths (c, paths.map f) l =
        (c.insert l.number (c.entry P l), paths.map fun path =>
          ((f path).1 + ((c.entry P l).subtree (l.view P) path).1,
            (f path).2 + ((c.entry P l).subtree (l.view P) path).2)) := by
      unfold addSegment
      dsimp only
      rw [List.zip_map_left, List.map_map, map_zip_self]
      rfl
    rw [List.foldl_cons, hone, ih hnodup.2, List.foldl_cons]
    -- a later segment's sums are another number's
    have hlater : ∀ m ∈ ls, (c.insert l.number (c.entry P l)).entry P m = c.entry P m := by
      intro m hm
      have hne : m.number ≠ l.number := fun heq => hnodup.1 (heq ▸ List.mem_map_of_mem hm)
      rw [entry_eq, get?_insert, if_neg hne, ← entry_eq]
    refine Prod.ext rfl (List.map_congr_left fun path _ => ?_)
    refine List.foldl_ext _ _ _ fun o m hm => ?_
    rw [hlater m hm]

/-- Each segment's figures, added up. -/
theorem foldl_add_toNat (g : Held → UInt64 × UInt64) (t : Held → Nat × Nat) (ls : List Held)
    (h : ∀ l ∈ ls, (g l).1.toNat = (t l).1 ∧ (g l).2.toNat = (t l).2) :
    ∀ o : UInt64 × UInt64, o.1.toNat + (ls.map fun l => (t l).1).sum < 2 ^ 64 →
      o.2.toNat + (ls.map fun l => (t l).2).sum < 2 ^ 64 →
      (ls.foldl (fun o l => (o.1 + (g l).1, o.2 + (g l).2)) o).1.toNat =
          o.1.toNat + (ls.map fun l => (t l).1).sum ∧
        (ls.foldl (fun o l => (o.1 + (g l).1, o.2 + (g l).2)) o).2.toNat =
          o.2.toNat + (ls.map fun l => (t l).2).sum := by
  induction ls with
  | nil => exact fun o _ _ => ⟨rfl, rfl⟩
  | cons l ls ih =>
    intro o h₁ h₂
    obtain ⟨hl₁, hl₂⟩ := h l List.mem_cons_self
    rw [List.map_cons, List.sum_cons] at h₁ h₂
    have ho₁ : (o.1 + (g l).1).toNat = o.1.toNat + (t l).1 := by
      rw [UInt64.toNat_add, hl₁, Nat.mod_eq_of_lt (by omega)]
    have ho₂ : (o.2 + (g l).2).toNat = o.2.toNat + (t l).2 := by
      rw [UInt64.toNat_add, hl₂, Nat.mod_eq_of_lt (by omega)]
    obtain ⟨hr₁, hr₂⟩ := ih (fun m hm => h m (List.mem_cons_of_mem _ hm))
      (o.1 + (g l).1, o.2 + (g l).2) (by rw [ho₁]; omega) (by rw [ho₂]; omega)
    rw [List.foldl_cons, List.map_cons, List.map_cons, List.sum_cons, List.sum_cons, hr₁, hr₂, ho₁, ho₂]
    omega

/-! ### Tables -/

/-- The sums of a segment with their table, from what the cache has of it. -/
def freshFrom (P : Platform) (l : Held) : Option Prefix → Option Prefix
  | none => none
  | some p =>
    let p := p.refresh (l.view P) l.deaths
    some (if p.rowsReady then p.refreshRows else p.buildRows (l.view P))

theorem get?_freshen (c : Cache) (l : Held) :
    (c.freshen P l).get? l.number = freshFrom P l (c.get? l.number) := by
  unfold freshen
  cases hc : c.get? l.number with
  | none => exact hc
  | some p =>
    dsimp only
    rw [get?_insert, if_pos rfl]
    rfl

theorem get?_freshen_of_ne (c : Cache) (l : Held) (n : Nat) (h : n ≠ l.number) :
    (c.freshen P l).get? n = c.get? n := by
  unfold freshen
  cases hc : c.get? l.number with
  | none => rfl
  | some p =>
    dsimp only
    rw [get?_insert, if_neg h]

theorem mem_freshen (c : Cache) (l : Held) (e : Nat × Prefix) (h : e ∈ c.freshen P l) :
    e.1 = l.number ∨ e ∈ c := by
  unfold freshen at h
  cases hc : c.get? l.number with
  | none =>
    rw [hc] at h
    exact Or.inr h
  | some p =>
    rw [hc] at h
    exact mem_insert h

end

end Cache

/-! ## Runs -/

section
variable {P : Platform}

/-- What holds of an index and its cache throughout a run. -/
structure Inv (P : Platform) (w : World) : Prop where
  nodup : (w.segments.map (·.number)).Nodup
  used : ∀ l ∈ w.segments, l.number ∈ w.used
  cached : ∀ e ∈ w.cache, e.1 ∈ w.used
  whole : ∀ l ∈ w.segments, l.Whole
  tracks : ∀ l ∈ w.segments, ∀ p, w.cache.get? l.number = some p → Tracks P l p

theorem get?_subtrees (w : World) (hw : Inv P w) (paths : List Str) :
    (∀ l ∈ w.segments, (w.cache.subtrees P w.segments paths).1.get? l.number =
        some (Cache.entryFrom P l (w.cache.get? l.number))) ∧
      (∀ e ∈ (w.cache.subtrees P w.segments paths).1, e.1 ∈ w.used) ∧
      (w.cache.subtrees P w.segments paths).2 = paths.map fun path => w.segments.foldl (fun o l =>
        (o.1 + ((Cache.entryFrom P l (w.cache.get? l.number)).subtree (l.view P) path).1,
          o.2 + ((Cache.entryFrom P l (w.cache.get? l.number)).subtree (l.view P) path).2)) (0, 0) := by
  -- what the retirement leaves of the segments' sums is all of it
  have hkept : ∀ l ∈ w.segments, Cache.get? (w.cache.filter fun e =>
      w.segments.any (·.number == e.1)) l.number = w.cache.get? l.number := by
    intro l hl
    refine Cache.get?_filter _ l.number (fun e he => ?_) w.cache
    rw [List.any_eq_true]
    exact ⟨l, hl, by rw [he, beq_self_eq_true]⟩
  have hfold := Cache.foldl_addSegment (P := P) paths w.segments hw.nodup
    (w.cache.filter fun e => w.segments.any (·.number == e.1)) fun _ => (0, 0)
  obtain ⟨hin, -, hmem⟩ := Cache.get?_foldl (fun c l => c.insert l.number (c.entry P l))
    (fun l o => some (Cache.entryFrom P l o))
    (fun c l => by rw [Cache.get?_insert, if_pos rfl, Cache.entry_eq])
    (fun c l n hn => by rw [Cache.get?_insert, if_neg hn])
    (fun c l e he => Cache.mem_insert he) w.segments hw.nodup
    (w.cache.filter fun e => w.segments.any (·.number == e.1))
  unfold Cache.subtrees
  rw [hfold]
  refine ⟨fun l hl => ?_, fun e he => ?_, List.map_congr_left fun path _ => ?_⟩
  · rw [hin l hl, hkept l hl]
  · rcases hmem e he with ⟨l, hl, heq⟩ | he
    · rw [heq]
      exact hw.used l hl
    · exact hw.cached e (List.mem_filter.mp he).1
  · refine List.foldl_ext _ _ _ fun o l hl => ?_
    rw [Cache.entry_eq, hkept l hl]

theorem get?_freshRows (w : World) (hw : Inv P w) :
    (∀ l ∈ w.segments, (w.cache.freshRows P w.segments).get? l.number =
        Cache.freshFrom P l (w.cache.get? l.number)) ∧
      ∀ e ∈ w.cache.freshRows P w.segments, e.1 ∈ w.used := by
  obtain ⟨hin, -, hmem⟩ := Cache.get?_foldl (Cache.freshen P) (Cache.freshFrom P) Cache.get?_freshen
    Cache.get?_freshen_of_ne Cache.mem_freshen w.segments hw.nodup w.cache
  refine ⟨hin, fun e he => ?_⟩
  rcases hmem e he with ⟨l, hl, heq⟩ | he
  · rw [heq]
    exact hw.used l hl
  · exact hw.cached e he

theorem fresh_entryFrom {w : World} (hw : Inv P w) {l : Held} (hl : l ∈ w.segments)
    (hfits : ((l.files P).map share).sum < 2 ^ 64) :
    Fresh P l (Cache.entryFrom P l (w.cache.get? l.number)) := by
  cases hp : w.cache.get? l.number with
  | none => exact fresh_rebuild (hw.whole l hl) hfits
  | some p => exact (hw.tracks l hl p hp).refresh (hw.whole l hl) hfits

/-! ### Steps -/

theorem Inv.kill {w : World} (hw : Inv P w) (number row : Nat) :
    Inv P { w with segments := w.segments.map fun l =>
      if l.number = number then Sizes.kill l row else l } := by
  have hnumber : ∀ l : Held, (if l.number = number then Sizes.kill l row else l).number = l.number := by
    intro l
    split
    · exact number_kill l row
    · rfl
  have hmap : (w.segments.map fun l => if l.number = number then Sizes.kill l row else l).map
      (·.number) = w.segments.map (·.number) := by
    rw [List.map_map]
    exact List.map_congr_left fun l _ => hnumber l
  refine ⟨hmap ▸ hw.nodup, fun m hm => ?_, hw.cached, fun m hm => ?_, fun m hm p hp => ?_⟩
  · obtain ⟨l, hl, rfl⟩ := List.mem_map.mp hm
    rw [hnumber]
    exact hw.used l hl
  · obtain ⟨l, hl, rfl⟩ := List.mem_map.mp hm
    split
    · exact (hw.whole l hl).kill row
    · exact hw.whole l hl
  · obtain ⟨l, hl, rfl⟩ := List.mem_map.mp hm
    rw [hnumber] at hp
    have ht := hw.tracks l hl p hp
    split
    · exact ht.kill (hw.whole l hl) row
    · exact ht

theorem Inv.open_ {w : World} (hw : Inv P w) {l : Held} (hnew : l.number ∉ w.used) (hl : l.Whole) :
    Inv P { w with segments := w.segments ++ [l], used := l.number :: w.used } := by
  have hmem : ∀ m ∈ w.segments ++ [l], m ∈ w.segments ∨ m = l := fun m hm => by
    rwa [List.mem_append, List.mem_singleton] at hm
  refine ⟨?_, fun m hm => ?_, fun e he => List.mem_cons_of_mem _ (hw.cached e he), fun m hm => ?_,
    fun m hm p hp => ?_⟩
  · rw [List.map_append, List.nodup_append]
    refine ⟨hw.nodup, List.nodup_singleton _, ?_⟩
    intro a ha b hb hab
    obtain ⟨m, hm, rfl⟩ := List.mem_map.mp ha
    rw [List.map_singleton, List.mem_singleton] at hb
    exact hnew (hb ▸ hab ▸ hw.used m hm)
  · rcases hmem m hm with hm | rfl
    · exact List.mem_cons_of_mem _ (hw.used m hm)
    · exact List.mem_cons_self
  · rcases hmem m hm with hm | rfl
    · exact hw.whole m hm
    · exact hl
  · rcases hmem m hm with hm | rfl
    · exact hw.tracks m hm p hp
    · -- a number never given out has nothing in the cache
      unfold Cache.get? at hp
      rw [Option.map_eq_some_iff] at hp
      obtain ⟨e, he, -⟩ := hp
      have hkey := List.find?_some he
      rw [beq_iff_eq] at hkey
      exact absurd (hkey ▸ hw.cached e (List.mem_of_find?_eq_some he)) hnew

theorem Inv.retire {w : World} (hw : Inv P w) (number : Nat) :
    Inv P { w with segments := w.segments.filter (·.number != number) } := by
  have hmem : ∀ l ∈ w.segments.filter (·.number != number), l ∈ w.segments := fun l hl =>
    (List.mem_filter.mp hl).1
  exact
    { nodup := hw.nodup.sublist (List.filter_sublist.map _)
      used := fun l hl => hw.used l (hmem l hl)
      cached := hw.cached
      whole := fun l hl => hw.whole l (hmem l hl)
      tracks := fun l hl => hw.tracks l (hmem l hl) }

theorem Inv.subtrees {w : World} (hw : Inv P w) (paths : List Str) (hfits : Fits P w (.subtrees paths)) :
    Inv P { w with cache := (w.cache.subtrees P w.segments paths).1 } := by
  obtain ⟨hget, hcached, -⟩ := get?_subtrees w hw paths
  refine ⟨hw.nodup, hw.used, hcached, hw.whole, fun l hl p hp => ?_⟩
  rw [hget l hl, Option.some.injEq] at hp
  rw [← hp]
  exact (fresh_entryFrom hw hl (hfits.1 l hl)).toTracks

/-- What a call for the rows' totals leaves of a segment. -/
theorem fresh_freshFrom {w : World} (hw : Inv P w) (hfits : Fits P w .freshRows) {l : Held}
    (hl : l ∈ w.segments) {q : Prefix} (hq : Cache.freshFrom P l (w.cache.get? l.number) = some q) :
    Fresh P l q ∧ q.rowsDeaths = q.deaths ∧ ∃ rows, q.Table (l.view P) rows := by
  cases hp : w.cache.get? l.number with
  | none =>
    rw [hp] at hq
    cases hq
  | some p =>
    rw [hp] at hq
    have hfit := (hfits l hl (by rw [hp]; rfl)).1
    have hfresh := (hw.tracks l hl p hp).refresh (hw.whole l hl) hfit
    have hrows := hfresh.rows (hw.whole l hl)
    unfold Cache.freshFrom at hq
    rw [Option.some.injEq] at hq
    rw [← hq]
    exact hrows

theorem Inv.freshRows {w : World} (hw : Inv P w) (hfits : Fits P w .freshRows) :
    Inv P { w with cache := w.cache.freshRows P w.segments } := by
  obtain ⟨hget, hcached⟩ := get?_freshRows w hw
  refine ⟨hw.nodup, hw.used, hcached, hw.whole, fun l hl p hp => ?_⟩
  rw [hget l hl] at hp
  exact (fresh_freshFrom hw hfits hl hp).1.toTracks

/-- One step keeps it. -/
theorem Inv.step {w w' : World} {a : Act} (hw : Inv P w) (hfits : Fits P w a)
    (h : step P w a = some w') : Inv P w' := by
  cases a with
  | kill number row =>
    cases h
    exact hw.kill number row
  | open_ number entries alive =>
    unfold Sizes.step at h
    dsimp only at h
    by_cases hc : number ∉ w.used ∧ entries.length < 2 ^ 32 ∧ alive.length = (entries.length + 7) / 8
    · rw [if_pos hc] at h
      cases h
      exact hw.open_ (l := ⟨number, 0, entries, alive⟩) hc.1 ⟨hc.2.1, hc.2.2⟩
    · rw [if_neg hc] at h
      cases h
  | retire number =>
    cases h
    exact hw.retire number
  | subtrees paths =>
    cases h
    exact hw.subtrees paths hfits
  | freshRows =>
    cases h
    exact hw.freshRows hfits

/-- And so does a run. -/
theorem Reached.inv {w : World} (h : Reached P (Fits P) w) : Inv P w := by
  induction h with
  | start => exact ⟨List.nodup_nil, nofun, nofun, nofun, nofun⟩
  | step w w' a _ hfits hstep ih => exact ih.step hfits hstep

/-! ### The answers -/

theorem tells_subtrees {w : World} (hw : Inv P w) {paths : List Str}
    (hfits : Fits P w (.subtrees paths)) : Tells P w (.subtrees paths) := by
  obtain ⟨-, -, hout⟩ := get?_subtrees w hw paths
  unfold Tells
  dsimp only
  rw [hout, List.map_map]
  refine List.map_congr_left fun path hpath => ?_
  obtain ⟨hdisk, hfiles⟩ := hfits.2 path hpath
  have hz : (0 : UInt64).toNat = 0 := rfl
  obtain ⟨h₁, h₂⟩ := Cache.foldl_add_toNat
    (fun l => (Cache.entryFrom P l (w.cache.get? l.number)).subtree (l.view P) path)
    (fun l => l.total P path) w.segments
    (fun l hl => (fresh_entryFrom hw hl (hfits.1 l hl)).subtree (hw.whole l hl) path) (0, 0)
    (by rw [hz, Nat.zero_add]; exact hdisk) (by rw [hz, Nat.zero_add]; exact hfiles)
  rw [hz, Nat.zero_add] at h₁ h₂
  exact Prod.ext h₁ h₂

theorem tells_freshRows {w : World} (hw : Inv P w) (hfits : Fits P w .freshRows) :
    Tells P w .freshRows := by
  obtain ⟨hget, -⟩ := get?_freshRows w hw
  intro l hl table htable row e he hlive hdir
  unfold Cache.rowsOf at htable
  rw [hget l hl, Option.map_eq_some_iff] at htable
  obtain ⟨q, hq, rfl⟩ := htable
  obtain ⟨hfresh, hd, rows, ht⟩ := fresh_freshFrom hw hfits hl hq
  have hcached : (w.cache.get? l.number).isSome = true := by
    cases hp : w.cache.get? l.number with
    | none =>
      rw [hp] at hq
      cases hq
    | some p => rfl
  exact hfresh.listed (hw.whole l hl) ht hd he hlive hdir ((hfits l hl hcached).2 row e he hlive hdir)

/-- **Cached folder sizes stay true**, in every run whose calls work with figures that fit. -/
theorem sizes_stay_true (P : Platform) (w : World) (h : Reached P (Fits P) w) (a : Act)
    (hfits : Fits P w a) : Tells P w a := by
  cases a with
  | kill number row => trivial
  | open_ number entries alive => trivial
  | retire number => trivial
  | subtrees paths => exact tells_subtrees h.inv hfits
  | freshRows => exact tells_freshRows h.inv hfits

/-- A folder and a file in it that holds a block. -/
def oneFile : List Entry :=
  [{ Entry.file "/a" with isDir := true },
    { Entry.file "/a/f" with info := { Meta.UNKNOWN with disk := 4096 } }]

/-- The folder was asked about, and then the file died. -/
def oneDead : World :=
  ⟨[⟨7, 1, oneFile, [1]⟩], (Cache.subtrees .plain [] [⟨7, 0, oneFile, [3]⟩] [str "/a"]).1, [7]⟩

theorem sizes_stay_true_oneDead : Tells .plain oneDead (.subtrees [str "/a"]) := by
  refine sizes_stay_true .plain oneDead ?_ _ ⟨by decide +kernel, by decide +kernel⟩
  refine .step ⟨[⟨7, 0, oneFile, [3]⟩], (Cache.subtrees .plain [] [⟨7, 0, oneFile, [3]⟩] [str "/a"]).1, [7]⟩
    oneDead (.kill 7 1) ?_ trivial rfl
  refine .step ⟨[⟨7, 0, oneFile, [3]⟩], [], [7]⟩ _ (.subtrees [str "/a"]) ?_
    ⟨by decide +kernel, by decide +kernel⟩ rfl
  exact .step _ _ (.open_ 7 oneFile [3]) .start trivial rfl

/-- A file as large as a file can be. -/
def huge (path : String) : Entry :=
  { Entry.file path with info := { Meta.UNKNOWN with disk := 2 ^ 63 - 1 } }

/-- Three such files: the sums pass `2^64` before the third folder, which then weighs nothing. -/
theorem not_sizes_stay_true :
    ¬ ∀ (P : Platform) (w : World), Reached P (fun _ _ => True) w → ∀ a, Tells P w a := by
  intro h
  have hrun : Reached .plain (fun _ _ => True)
      ⟨[⟨7, 0, [huge "/a/x", huge "/b/x", huge "/c/x"], [7]⟩], [], [7]⟩ :=
    .step _ _ (.open_ 7 [huge "/a/x", huge "/b/x", huge "/c/x"] [7]) .start trivial rfl
  have htells := h .plain _ hrun (.subtrees [str "/c"])
  unfold Tells at htells
  dsimp only at htells
  revert htells
  decide +kernel

end

end Sizes

end Scour
