import Mathlib.Tactic.Ring
import Scour.WalkCounted

/-!
# What a walk hands over

Whichever way a walk goes over the rows, what it hands over leaves out only rows with a page of
others before them, by what they sort by in full and then by row (`hands_walk`).  One order is an
exception: the path order read from its end turns the rows of one path around (`turned`).
-/

namespace Scour

/-! ## The key of a text -/

/-- The first `n` bytes as a number, padded with zeroes. -/
def headDigits : Nat → Str → Nat
  | 0, _ => 0
  | _ + 1, [] => 0
  | n + 1, b :: t => b.toNat * 256 ^ n + headDigits n t

theorem headDigits_lt (n : Nat) : ∀ t : Str, headDigits n t < 256 ^ n := by
  induction n with
  | zero => exact fun _ => Nat.one_pos
  | succ n ih =>
    intro t
    cases t with
    | nil => exact Nat.pos_of_ne_zero (by simp)
    | cons b t =>
      have hb := b.toNat_lt
      have ht := ih t
      rw [headDigits, Nat.pow_succ]
      have : b.toNat * 256 ^ n ≤ 255 * 256 ^ n := Nat.mul_le_mul_right _ (by omega)
      omega

theorem headDigits_mono (n : Nat) : ∀ {a b : Str}, a < b → headDigits n a ≤ headDigits n b := by
  induction n with
  | zero => exact fun _ => le_refl _
  | succ n ih =>
    intro a b hab
    cases a with
    | nil => exact Nat.zero_le _
    | cons x a =>
      cases b with
      | nil => exact absurd hab (List.not_lt_nil _)
      | cons y b =>
        rw [headDigits, headDigits]
        rcases List.cons_lt_cons_iff.mp hab with hlt | ⟨rfl, hlt⟩
        · have hxy : x.toNat + 1 ≤ y.toNat := UInt8.lt_iff_toNat_lt.mp hlt
          have hmul := Nat.mul_le_mul_right (256 ^ n) hxy
          have := headDigits_lt n a
          rw [Nat.add_mul] at hmul
          omega
        · have := ih hlt
          omega

theorem foldl_head (n : Nat) : ∀ (t : Str) (v : Nat),
    (t.take n ++ List.replicate (n - t.length) 0).foldl (fun v (b : UInt8) => v * 256 + b.toNat) v =
      v * 256 ^ n + headDigits n t := by
  induction n with
  | zero => simp [headDigits]
  | succ n ih =>
    intro t v
    cases t with
    | nil =>
      have h := ih [] (v * 256 + 0)
      simp only [List.take_nil, List.length_nil, Nat.sub_zero, List.nil_append] at h ⊢
      rw [List.replicate_succ, List.foldl_cons]
      refine h.trans ?_
      cases n with
      | zero => simp [headDigits]
      | succ n =>
        simp only [headDigits]
        ring
    | cons b t =>
      rw [List.take_succ_cons, List.length_cons, Nat.add_sub_add_right, List.cons_append,
        List.foldl_cons, ih, headDigits]
      ring

theorem head_mono {a b : Str} (h : a < b) : head a ≤ head b := by
  have hdigits : ∀ t, head t = headDigits 16 t := fun t => by
    unfold head
    rw [foldl_head 16 t 0, Nat.zero_mul, Nat.zero_add]
  rw [hdigits, hdigits]
  exact headDigits_mono 16 h

/-! ## What a row sorts by in full -/

/-- What a row sorts by, an abbreviated key being what it abbreviates. -/
def View.fullKey (v : View) (row : Nat) (sort : SortKey) (terms : List Str) (folders : Folders) :
    SortValue :=
  match sort with
  | .name => .text (v.foldedName row)
  | .ext => .text (foldedExtension (v.seg.names.getD row []) (v.foldedName row))
  | sort => sortValue v row (v.foldedName row) sort terms folders

theorem head_lt_head (a b : Nat) : SortValue.head a < SortValue.head b ↔ a < b := by
  change SortValue.rank (.head a) < SortValue.rank (.head b) ↔ a < b
  simp [SortValue.rank, Prod.Lex.toLex_lt_toLex]

theorem text_lt_text (a b : Str) : SortValue.text a < SortValue.text b ↔ a < b := by
  change SortValue.rank (.text a) < SortValue.rank (.text b) ↔ a < b
  simp [SortValue.rank, Prod.Lex.toLex_lt_toLex]

/-- The head of a smaller text is no larger. -/
theorem text_lt_of_head_lt {a b : Str} (h : SortValue.head (head a) < .head (head b)) : a < b := by
  rw [head_lt_head] at h
  rcases lt_trichotomy a b with hlt | heq | hgt
  · exact hlt
  · rw [heq] at h
    omega
  · have := head_mono hgt
    omega

theorem View.fullKey_exact {sort : SortKey} (h : keyIsExact sort = true) (v : View) (row : Nat)
    (terms : List Str) (folders : Folders) :
    v.fullKey row sort terms folders = sortValue v row (v.foldedName row) sort terms folders := by
  unfold keyIsExact at h
  revert h
  cases sort <;> simp [View.fullKey]

/-- Keys in order are of rows in order. -/
theorem View.fullKey_lt {v x : View} {sort : SortKey} {a b : Nat} {terms terms' : List Str}
    {folders folders' : Folders}
    (h : sortValue v a (v.foldedName a) sort terms folders <
      sortValue x b (x.foldedName b) sort terms' folders') :
    v.fullKey a sort terms folders < x.fullKey b sort terms' folders' := by
  cases hsort : sort with
  | name =>
    rw [hsort] at h
    exact (text_lt_text _ _).mpr (text_lt_of_head_lt h)
  | ext =>
    rw [hsort] at h
    exact (text_lt_text _ _).mpr (text_lt_of_head_lt h)
  | _ =>
    rw [hsort] at h
    exact h

/-! ## What one segment hands over -/

namespace SegmentWalk

variable {P : Platform} {w : SegmentWalk P}

def full (w : SegmentWalk P) (row : Nat) : SortValue :=
  w.seg.fullKey row w.want.sort w.scoreTerms w.folders

/-- Which of two rows of the segment is first in the order asked for. -/
def Before (w : SegmentWalk P) (a b : Nat) : Prop :=
  keyLt w.want.descending (w.full a) (w.full b) ∨ (w.full a = w.full b ∧ a < b)

/-- The path order is read from its end. -/
def turned (w : SegmentWalk P) : Bool := w.pathStream && w.want.descending

/-- Which of two rows a walk comes to first. -/
def Reads (w : SegmentWalk P) (a b : Nat) : Prop :=
  keyLt w.want.descending (w.full a) (w.full b) ∨
    (w.full a = w.full b ∧ if w.turned then b < a else a < b)

instance decidableBefore : DecidableRel w.Before := fun a b => by
  unfold Before
  infer_instance

instance decidableReads : DecidableRel w.Reads := fun a b => by
  unfold Reads
  infer_instance

theorem reads_iff_before (h : w.turned = false) (a b : Nat) : w.Reads a b ↔ w.Before a b := by
  unfold Reads Before
  rw [h]
  simp

theorem Reads.asymm (a b : Nat) (h : w.Reads a b) : ¬ w.Reads b a := by
  unfold Reads at *
  rintro (hba | ⟨hba, hrow⟩)
  · rcases h with h | ⟨h, -⟩
    · exact keyLt_irrefl _ (keyLt_trans h hba)
    · exact keyLt_irrefl _ (h ▸ hba)
  · rcases h with h | ⟨-, h⟩
    · exact keyLt_irrefl _ (hba ▸ h)
    · split at h
      · rw [if_pos ‹_›] at hrow
        omega
      · rw [if_neg ‹_›] at hrow
        omega

/-- The rows that are read before this one, of those that are shown. -/
def ahead (w : SegmentWalk P) (row : Nat) : Nat := w.shownRows.countP fun y => decide (w.Reads y row)

/-- The rows a walk hands over: what is not among them has a page of others read before it. -/
structure Hands (w : SegmentWalk P) (ranked : List Keyed) (rows : List Nat) : Prop where
  entries : ranked = rows.map w.entry
  nodup : rows.Nodup
  sub : rows ⊆ w.shownRows
  rest : ∀ row ∈ w.shownRows, row ∈ rows ∨ w.need ≤ w.ahead row

/-- Rows that come in the order they are read are handed over from the first on. -/
theorem hands_stored (hback : w.backwards = false) (hmode : w.storedOrder = true)
    {name : Nat → Str} (hname : ∀ row, w.shows row (name row) = w.shown row) {s : Walked}
    {rows : List Nat} (hs : s = w.visitAll name w.start rows)
    (hperm : (rows.filter w.shown).Perm w.shownRows)
    (hsorted : (rows.filter w.shown).Pairwise w.Reads) : ∃ kept, w.Hands (w.ranked s) kept := by
  obtain ⟨hkept, -, -⟩ := storing_spec hback hmode name rows fun row _ => hname row
  rw [← hs] at hkept
  refine ⟨(rows.filter w.shown).take w.need, by rw [ranked_stored hmode, hkept], ?_,
    fun row hrow => hperm.subset (List.mem_of_mem_take hrow), fun row hrow => ?_⟩
  · exact (hperm.nodup_iff.mpr nodup_shownRows).sublist (List.take_sublist _ _)
  · rw [Search.mem_take_iff_countP hsorted Reads.asymm (hperm.symm.subset hrow), hperm.countP_eq]
    exact Nat.lt_or_ge _ _

/-- What is cut from a page comes after the page. -/
theorem reads_of_cut (hturned : w.turned = false) {a b : Nat}
    (h : ¬ cutLe w.want.descending w.exact (w.entry b) (w.entry a)) : w.Reads a b := by
  have hlt : keyLt w.want.descending (w.key a) (w.key b) →
      keyLt w.want.descending (w.full a) (w.full b) := by
    unfold keyLt
    split <;> exact View.fullKey_lt
  rw [reads_iff_before hturned]
  unfold cutLe at h
  split at h
  · rename_i hexact
    have hfull : ∀ row, w.full row = w.key row := fun row =>
      View.fullKey_exact hexact w.seg row w.scoreTerms w.folders
    unfold pageLe entry at h
    dsimp only at h
    rw [not_or, not_and, not_le] at h
    unfold Before
    rcases @keyLt_tri w.want.descending (w.key a) (w.key b) with hk | hk | hk
    · exact Or.inl (hlt hk)
    · exact Or.inr ⟨by rw [hfull, hfull, hk], h.2 hk.symm⟩
    · exact absurd hk h.1
  · exact Or.inl (hlt (not_not.mp h))

/-- Entries that leave out only what is cut from a page. -/
theorem hands_of_keeps (hturned : w.turned = false) {ranked : List Keyed} (hnodup : ranked.Nodup)
    (hkeeps : Search.Keeps (cutLe w.want.descending w.exact) w.need (w.shownRows.map w.entry) ranked) :
    ∃ kept, w.Hands ranked kept := by
  have hentry : ∀ e ∈ ranked, ∃ row ∈ w.shownRows, w.entry row = e :=
    fun e he => List.mem_map.mp (hkeeps.sub he)
  have hself : ∀ e ∈ ranked, w.entry e.2 = e := by
    intro e he
    obtain ⟨row, -, rfl⟩ := hentry e he
    rfl
  refine ⟨ranked.map (·.2), ?_, ?_, ?_, ?_⟩
  · rw [List.map_map]
    exact (List.map_id _).symm.trans (List.map_congr_left fun e he => (hself e he).symm)
  · refine hnodup.map_on fun a ha b hb hab => ?_
    rw [← hself a ha, ← hself b hb, hab]
  · intro row hrow
    obtain ⟨e, he, rfl⟩ := List.mem_map.mp hrow
    obtain ⟨row, hshown, rfl⟩ := hentry e he
    exact hshown
  · intro row hrow
    rcases hkeeps.rest (w.entry row) (List.mem_map_of_mem hrow) with hin | hbefore
    · exact Or.inl (List.mem_map.mpr ⟨w.entry row, hin, rfl⟩)
    · right
      refine hbefore.trans ?_
      unfold Search.before ahead
      rw [List.countP_map]
      refine List.countP_mono_left fun y _ hy => ?_
      rw [Function.comp_apply, Bool.not_eq_true', decide_eq_false_iff_not] at hy
      exact decide_eq_true (reads_of_cut hturned hy)

/-- A walk that selects hands over a page, and what may tie with the end of it. -/
theorem hands_narrow (hturned : w.turned = false) (hmode : w.storedOrder = false) {s : Walked}
    (hnodup : s.keyed.Nodup)
    (hkeeps : Search.Keeps (cutLe w.want.descending w.exact) w.need (w.shownRows.map w.entry)
      s.keyed) : ∃ kept, w.Hands (w.ranked s) kept := by
  have hranked : w.ranked s = narrow s.keyed w.need w.want.descending w.exact := by
    unfold ranked
    rw [if_neg (by simp [hmode])]
  have hnarrow := @narrow_subperm w.want.descending w.exact s.keyed w.need
  rw [hranked]
  refine hands_of_keeps hturned ?_ ?_
  · obtain ⟨l, hp, hl⟩ := hnarrow
    exact hp.nodup_iff.mp (hl.nodup hnodup)
  · exact hkeeps.shrink (List.subperm_of_subset hnodup hkeeps.sub) hnarrow.subset
      (narrow_drops _ hnodup _)

theorem not_turned (h : w.positionStream = false) : w.turned = false := by
  unfold positionStream at h
  simp only [Bool.or_eq_false_iff] at h
  unfold turned
  rw [h.1, Bool.false_and]

/-- Of no page nothing is handed over. -/
theorem hands_none (hneed : w.need = 0) (s : Walked) (hkept : w.storedOrder = true → s.kept = []) :
    ∃ kept, w.Hands (w.ranked s) kept := by
  refine ⟨[], ?_, List.nodup_nil, List.nil_subset _, fun row _ => Or.inr (hneed ▸ Nat.zero_le _)⟩
  unfold ranked
  split
  · rename_i hmode
    rw [hkept hmode]
    rfl
  · rw [hneed]
    rfl

/-- The rows as they lie: in the order they are stored in, or selected from. -/
theorem hands_lying (hcomplete : w.Complete) (hposition : w.positionStream = false)
    (hdates : ∀ i j, i ≤ j → j < w.seg.rows → w.seg.mtime j ≤ w.seg.mtime i) :
    ∃ kept, w.Hands (w.ranked w.asTheyLie) kept := by
  have hturned := not_turned hposition
  have hfilter : (w.blocks.flatMap w.blockRows).filter w.shown = w.shownRows := hcomplete.eq
  have hlying := w.asTheyLie_eq
  cases hback : w.backwards with
  | true =>
    have hsort : w.want.sort = .modified := by
      unfold backwards at hback
      simp only [Bool.and_eq_true, beq_iff_eq] at hback
      exact hback.1.1
    have hmode : w.storedOrder = true := by
      unfold storedOrder
      simp [hback]
    have hreverse : (w.blocks.flatMap w.blockRows).reverse.filter w.shown = w.shownRows.reverse := by
      rw [List.filter_reverse, hfilter]
    rw [hback, if_pos rfl] at hlying
    obtain ⟨hkeeps, hsub, -, -⟩ := backKeeping_spec hback w.walkName
      (w.blocks.flatMap w.blockRows).reverse (fun row _ => shows_name row) (by
        rw [hreverse, List.pairwise_reverse]
        exact (List.pairwise_lt_range.filter w.shown).imp_of_mem fun {i j} _ hj hij =>
          hdates i j hij.le (mem_shownRows.mp hj).1)
    rw [← hlying, hreverse] at hkeeps hsub
    rw [ranked_stored hmode]
    refine hands_of_keeps hturned ?_ ?_
    · exact nodup_entries (hsub.nodup (List.nodup_reverse.mpr nodup_shownRows))
    · have hcut : cutLe w.want.descending w.exact = pageLe w.want.descending := by
        funext a b
        unfold cutLe exact
        rw [hsort]
        exact if_pos (by decide)
      have hperm : (w.shownRows.reverse.map w.entry).Perm (w.shownRows.map w.entry) :=
        (List.reverse_perm _).map _
      simpa only [hcut] using hkeeps.perm hperm (List.Perm.refl _)
  | false =>
    rw [hback, if_neg (by simp)] at hlying
    cases hmode : w.storedOrder with
    | true =>
      refine hands_stored hback hmode shows_name hlying (List.Perm.of_eq hfilter) ?_
      rw [hfilter]
      have hforward : w.storedForward = true := by
        unfold storedOrder at hmode
        simpa [hback, hposition] using hmode
      refine (List.pairwise_lt_range.filter w.shown).imp_of_mem fun {i j} _ hj hij => ?_
      rw [reads_iff_before hturned]
      unfold storedForward at hforward
      simp only [Bool.or_eq_true, Bool.and_eq_true, beq_iff_eq, List.isEmpty_iff] at hforward
      unfold Before full
      rcases hforward with ⟨hsort, hdesc⟩ | ⟨hsort, hterms⟩
      · have hdate := hdates i j hij.le (mem_shownRows.mp hj).1
        have hkey : ∀ row, w.seg.fullKey row w.want.sort w.scoreTerms w.folders =
            .num (w.seg.mtime row) := fun row => by
          rw [hsort]
          rfl
        rw [hkey, hkey, keyLt_num, SortValue.num.injEq, hdesc]
        unfold zoneKey
        simp only [if_true]
        omega
      · right
        refine ⟨?_, hij⟩
        rw [hsort, hterms]
        rfl
    | false =>
      rcases Nat.eq_zero_or_pos w.need with h0 | hneed
      · exact hands_none h0 _ fun h => by rw [hmode] at h; cases h
      have hkeeping := (keeping_start hneed).visitAll hneed hmode w.walkName
        (w.blocks.flatMap w.blockRows) (fun row _ => shows_name row)
        (fun row _ => sortValue_name hmode row) (by
          rw [List.nil_append, hfilter]
          exact nodup_shownRows)
      rw [List.nil_append, hfilter, ← hlying] at hkeeping
      refine hands_narrow hturned hmode ?_ hkeeping.keeps
      obtain ⟨l, hp, hl⟩ := hkeeping.sub
      exact hp.nodup_iff.mp (hl.nodup (nodup_entries nodup_shownRows))

/-- A row of a text before another, in the direction asked for. -/
theorem reads_of_text {value : Nat → Str} (hfull : ∀ row, w.full row = .text (value row)) {a b : Nat}
    (h : if w.turned then TextOrder false value b a else TextOrder w.want.descending value a b) :
    w.Reads a b := by
  unfold Reads keyLt
  rw [hfull, hfull, text_lt_text, text_lt_text]
  unfold TextOrder at h
  split at h
  · rename_i hturned
    have hdesc : w.want.descending = true := by
      unfold turned at hturned
      rw [Bool.and_eq_true] at hturned
      exact hturned.2
    rw [if_pos hdesc, if_pos hturned]
    rw [if_neg (by simp)] at h
    exact h.imp_right fun ⟨heq, hrow⟩ => ⟨by rw [heq], hrow⟩
  · rename_i hturned
    rw [if_neg hturned]
    exact h.imp_right fun ⟨heq, hrow⟩ => ⟨by rw [heq], hrow⟩

/-- No page ends among rows that share a key. -/
def Whole (w : SegmentWalk P) : Prop :=
  ∀ row ∈ w.shownRows,
    w.need ≤ w.shownRows.countP (fun y => decide (keyLt w.want.descending (w.full y) (w.full row))) ∨
      w.shownRows.countP (fun y => !decide (keyLt w.want.descending (w.full row) (w.full y))) ≤ w.need

/-- What is not handed over has a page before it, unless an order is turned around where a page
ends. -/
theorem Hands.before {ranked : List Keyed} {rows : List Nat} (h : w.Hands ranked rows)
    (hwhole : w.turned = true → w.Whole) : ∀ row ∈ w.shownRows,
      row ∈ rows ∨ w.need ≤ w.shownRows.countP fun y => decide (w.Before y row) := by
  intro row hrow
  refine (h.rest row hrow).imp_right fun hahead => ?_
  cases hturned : w.turned with
  | false =>
    refine hahead.trans (List.countP_mono_left fun y _ hy => ?_)
    rw [decide_eq_true_eq] at hy ⊢
    exact (reads_iff_before hturned y row).mp hy
  | true =>
    have hirrefl := @keyLt_irrefl w.want.descending (w.full row)
    have hlt : w.ahead row < w.shownRows.countP fun y =>
        !decide (keyLt w.want.descending (w.full row) (w.full y)) := by
      refine Search.countP_lt_countP (fun y _ hy => ?_) hrow
        (decide_eq_false fun hself => Reads.asymm row row hself hself) (by simp [hirrefl])
      rw [decide_eq_true_eq] at hy
      rw [Bool.not_eq_true', decide_eq_false_iff_not]
      rcases hy with hy | ⟨hy, -⟩
      · exact fun hback => keyLt_irrefl _ (keyLt_trans hy hback)
      · rw [hy]
        exact hirrefl
    refine ((hwhole hturned row hrow).resolve_right (by omega)).trans ?_
    refine List.countP_mono_left fun y _ hy => ?_
    rw [decide_eq_true_eq] at hy ⊢
    exact Or.inl hy

/-- **What a walk hands over**, whichever way it goes over the rows. -/
theorem hands_walk (hw : w.Sound)
    (hdates : ∀ i j, i ≤ j → j < w.seg.rows → w.seg.mtime j ≤ w.seg.mtime i)
    (hnames : ∀ row, slash ∉ w.seg.seg.names.getD row []) {s : Walked} {skipped : Bool}
    (h : w.walkRows = some (s, skipped)) : ∃ kept, w.Hands (w.ranked s) kept := by
  have hstreams : ∀ {sort : SortKey} {rows : Option Nat}, w.streams sort rows = true →
      w.want.sort = sort := by
    intro sort rows h
    unfold streams at h
    simp only [Bool.and_eq_true, beq_iff_eq] at h
    exact h.1.1.1.1
  have hforward : w.want.sort ≠ .modified → w.backwards = false := by
    intro hsort
    unfold backwards
    rw [beq_false_of_ne hsort, Bool.false_and, Bool.false_and]
  cases went h with
  | grouped o hstream ho hs =>
    have hbuild : ∃ value, w.want.sort ≠ .modified ∧ w.want.sort ≠ .path ∧
        o = .build w.seg.rows value ∧ ∀ row, w.full row = .text (value row) := by
      rcases ho with ⟨ho, hsort⟩ | ⟨ho, hsort⟩
      · refine ⟨_, by rw [hsort]; decide, by rw [hsort]; decide, hw.built.norder o ho, fun row => ?_⟩
        unfold full
        rw [hsort]
        rfl
      · refine ⟨_, by rw [hsort]; decide, by rw [hsort]; decide, hw.built.eorder o ho, fun row => ?_⟩
        unfold full
        rw [hsort]
        rfl
    obtain ⟨value, hmodified, hpath, rfl, hfull⟩ := hbuild
    have hturned : w.turned = false := by
      unfold turned pathStream streams
      rw [beq_false_of_ne hpath]
      rfl
    have hmode : w.storedOrder = true := by
      unfold storedOrder positionStream
      rw [hstream]
      simp
    refine hands_stored (hforward hmodified) hmode shows_streamName (stream_eq _ _ _ rfl hs)
      (shownRows_of_perm groupedRows_perm) (List.Pairwise.filter _ ?_)
    refine List.Pairwise.imp (fun {a b} hab => reads_of_text hfull (by
      rw [hturned]
      exact hab)) (R := TextOrder w.want.descending value) ?_
    unfold groupedRows
    rw [GroupedOrder.build_length]
    cases w.want.descending with
    | true => exact GroupedOrder.down_sorted
    | false =>
      have hread := read_forwards (@GroupedOrder.build_row_lt w.seg.rows value)
      rw [GroupedOrder.build_length] at hread
      rw [if_neg (by simp), hread]
      exact GroupedOrder.build_sorted
  | path o hstream ho hs =>
    obtain rfl := hw.built.porder o ho
    have hsort : w.want.sort = .path := hstreams hstream
    have hfull : ∀ row, w.full row =
        .text (joinPath (w.seg.seg.dirOf row) (w.seg.seg.names.getD row [])) := fun row => by
      unfold full
      rw [hsort]
      rfl
    have hmode : w.storedOrder = true := by
      unfold storedOrder positionStream
      rw [hstream]
      simp
    refine hands_stored (hforward (by rw [hsort]; decide)) hmode shows_streamName
      (stream_eq _ _ _ rfl hs) (shownRows_of_perm ?_) (List.Pairwise.filter _ ?_)
    · rw [← hw.rows]
      exact pathRows_perm _
    · have hsorted : (PathOrder.build w.seg.seg).order.Pairwise
          (TextOrder false fun row => joinPath (w.seg.seg.dirOf row) (w.seg.seg.names.getD row [])) := by
        rw [PathOrder.build_order _ hnames]
        exact sorted_insertionSort _
      have hperm : (PathOrder.build w.seg.seg).order.Perm (List.range w.seg.seg.rows) :=
        List.perm_insertionSort _ _
      have hread := @read_forwards (PathOrder.build w.seg.seg).order (by
        intro row hrow
        rw [hperm.length_eq, List.length_range]
        exact List.mem_range.mp (hperm.subset hrow))
      have hturned : w.turned = w.want.descending := by
        unfold turned
        rw [hstream, Bool.true_and]
      unfold pathRows
      dsimp only
      cases hdesc : w.want.descending with
      | true =>
        rw [if_pos rfl, List.filterMap_reverse, hread, List.pairwise_reverse]
        refine hsorted.imp fun {a b} hab => reads_of_text hfull ?_
        rw [hturned, hdesc]
        exact hab
      | false =>
        rw [if_neg (by simp), hread]
        refine hsorted.imp fun {a b} hab => reads_of_text hfull ?_
        rw [hturned, hdesc]
        exact hab
  | best c hc hbounded hs =>
    unfold bounded at hbounded
    simp only [Bool.and_eq_true, Bool.not_eq_true', decide_eq_true_eq] at hbounded
    obtain ⟨hkeeps, hnodup, -, -⟩ :=
      bestFirst_spec hw.complete hbounded.1.2 hbounded.1.1 hc hw.kinds hw.folders
    have hcut : cutLe w.want.descending w.exact = pageLe w.want.descending := by
      funext a b
      unfold cutLe
      rw [if_pos (exact_of_sortField hc)]
    have hturned : w.turned = false := by
      unfold turned pathStream streams
      cases hsort : w.want.sort <;> first | rfl | (rw [hsort] at hc; cases hc)
    rw [hs]
    refine hands_narrow hturned hbounded.1.1 hnodup ?_
    simpa only [hcut] using hkeeps
  | lying hposition _ hs =>
    rw [hs]
    exact hands_lying hw.complete hposition hdates

end SegmentWalk

end Scour
