import Mathlib.Algebra.Order.BigOperators.Group.List
import Scour.Rank
import Scour.Reference
import Scour.Usage

/-!
# A page reached is the page walked to

`reach` finds the date of the row at an offset by bisection over the date columns, each count taken
from a `LiveRank`, and merges the segments from there on, one cursor a segment.  Where it answers,
the page is the one cut from every live row in the stored order, as long as the newest and the oldest
date of the segments are less than `2^63` apart (`reach_exact_iff`).  Further apart, `high - low` is
not a number of 64 bits (`not_reach_exact`).
-/

namespace Scour

/-! ## Hits -/

/-- `Kind::from_u8`. -/
def Kind.fromU8 : Nat → Option Kind
  | 0 => some .file
  | 1 => some .dir
  | 2 => some .code
  | 3 => some .image
  | 4 => some .archive
  | 5 => some .doc
  | 6 => some .exec
  | 7 => some .media
  | 8 => some .audio
  | 9 => some .video
  | 10 => some .build
  | 11 => some .data
  | 12 => some .config
  | 13 => some .font
  | _ => none

@[simp] theorem Kind.fromU8_asU8 (k : Kind) : Kind.fromU8 k.asU8 = some k := by
  cases k <;> rfl

/-- A row of an answer.  What a directory holds is filled in by the engine. -/
structure Hit where
  source : SourceId
  path : Str
  isDir : Bool
  kind : Kind
  info : Meta
deriving DecidableEq

/-- The row of an answer an entry is. -/
def Entry.hit (P : Platform) (e : Entry) : Hit := ⟨e.source, e.path.bytes, e.isDir, e.kind P, e.info⟩

namespace View

def hit (v : View) (row : Nat) (name : Str) : Hit where
  source := v.seg.sourceOf row
  path := v.seg.path row name
  isDir := v.seg.num .isDir row != 0
  kind := (Kind.fromU8 (v.kind row % 256).toNat).getD .file
  info := v.seg.infoOf row

def mtime (v : View) (row : Nat) : Int := v.seg.num .mtime row

/-- The path of a row, as the merge compares it. -/
def joined (v : View) (row : Nat) : Str := joinPath (v.seg.dirOf row) ((v.seg.names[row]?).getD [])

/-- The next live row at or after `from_`, or one past the end. -/
def nextLive (v : View) (from_ : Nat) : Nat :=
  ((List.range' from_ (v.seg.rows - from_)).find? v.isAlive).getD v.seg.rows

end View

/-! ## Finding the date -/

/-- The first row whose value is not above `bound`, in a column that never rises with the row. -/
def firstAtOrBelow (rows : Nat) (bound : Int) (at_ : Nat → Int) : Nat :=
  Search.partitionPoint rows fun row => bound < at_ row

/-- How many live rows are newer than `t`. -/
def newer (views : List View) (t : Int) : Nat :=
  (views.map fun v =>
    (LiveRank.build v.alive v.seg.rows).upto v.alive (firstAtOrBelow v.seg.rows t v.mtime)).sum

/-- One segment of the loop that brackets the dates. -/
def widen (b : Int × Int) (v : View) : Int × Int :=
  if 0 < v.seg.rows then (min b.1 (v.mtime (v.seg.rows - 1)), max b.2 (v.mtime 0)) else b

/-- The oldest date in any segment and the newest in any. -/
def bracket (views : List View) : Int × Int := views.foldl widen (2 ^ 63 - 1, -2 ^ 63)

/-- The bisection, each round halving the bracket.  Nothing where `high - low` is past what 64 bits
hold, or the rounds run out, which 64 never do (`bisect_spec`). -/
def bisect (views : List View) (offset : Nat) : Nat → Int → Int → Option Int
  | 0, _, _ => none
  | fuel + 1, low, high =>
      if low < high then
        if 2 ^ 63 ≤ high - low then none
        else
          let mid := low + (high - low) / 2
          if newer views mid ≤ offset then bisect views offset fuel low mid
          else bisect views offset fuel (mid + 1) high
      else some high

/-! ## Merging from there -/

/-- A segment and where the merge stands in it. -/
abbrev Cursor := View × Nat

/-- Whether `a` comes before `b` in the merged stored order. -/
def firstOf (a b : Cursor × Nat) : Bool :=
  let ((v, row), i) := a
  let ((w, other), j) := b
  if w.mtime other < v.mtime row then true
  else if v.mtime row < w.mtime other then false
  -- inside one segment the row number is the path order
  else if i = j then row < other
  else v.joined row < w.joined other

/-- One cursor of the loop that looks for the first. -/
def pick (best : Option (Cursor × Nat)) (c : Cursor × Nat) : Option (Cursor × Nat) :=
  if c.1.1.seg.rows ≤ c.1.2 then best
  else
    match best with
    | none => some c
    | some b => if firstOf c b then some c else some b

/-- The cursor the next row is taken from. -/
def best (cursors : List (Cursor × Nat)) : Option (Cursor × Nat) := cursors.foldl pick none

/-- The rows of the page, `fuel` bounding the rows stepped through. -/
def mergePage : Nat → List Cursor → Nat → Nat → List Hit
  | 0, _, _, _ => []
  | fuel + 1, cursors, skip, limit =>
      if limit = 0 then []
      else
        match best cursors.zipIdx with
        | none => []
        | some ((v, row), i) =>
            let next := cursors.set i (v, v.nextLive (row + 1))
            if 0 < skip then mergePage fuel next (skip - 1) limit
            else
              match v.seg.names[row]? with
              | some name => v.hit row name :: mergePage fuel next skip (limit - 1)
              | none => mergePage fuel next skip limit

/-- How far the merge will step through rows that share a date. -/
def TIE_STEPS : Nat := 100000

/-- What a search answers with. -/
structure Page where
  hits : List Hit
  total : Nat
  capped : Bool
deriving DecidableEq

/-- How a reach ends. -/
inductive Reach where
  /-- A subtraction that does not fit in 64 bits. -/
  | overflow
  /-- `None`: the caller walks. -/
  | walk
  | page (p : Page)
deriving DecidableEq

def reach (views : List View) (offset limit cap : Nat) : Reach :=
  let counted := (views.map fun v => (LiveRank.build v.alive v.seg.rows).total v.alive).sum
  let page (hits : List Hit) : Reach := .page ⟨hits, min counted cap, decide (cap ≤ counted)⟩
  if counted ≤ offset then page []
  else
    let (low, high) := bracket views
    if high < low then page []
    else
      match bisect views offset 64 low high with
      | none => .overflow
      | some when_ =>
          let above := newer views when_
          -- `offset.checked_sub(above)?`
          if offset < above then .walk
          else
            let skip := offset - above
            if TIE_STEPS < skip then .walk
            else
              let cursors := views.map fun v =>
                (v, v.nextLive (firstAtOrBelow v.seg.rows when_ v.mtime))
              page (mergePage ((views.map (·.seg.rows)).sum + 1) cursors skip limit)

/-! ## The live rows of a segment -/

/-- The live rows from a row on. -/
def View.liveFrom (v : View) (row : Nat) : List Entry :=
  ((List.range' row (v.seg.rows - row)).filter v.isAlive).filterMap v.seg.entry

/-- The live rows of a segment, in the stored order. -/
def View.liveEntries (v : View) : List Entry :=
  ((List.range v.seg.rows).filter v.isAlive).filterMap v.seg.entry

/-- Every live row, in the stored order. -/
def walked (views : List View) : List Entry :=
  (views.flatMap View.liveEntries).insertionSort storedLe

/-- What an entry read back is made of. -/
theorem Segment.parts_of_entry {s : Segment} {row : Nat} {name : Str} {e : Entry}
    (hname : s.names[row]? = some name) (he : s.entry row = some e) :
    s.sourceOf row = e.source ∧ s.path row name = e.path.bytes ∧
      (s.num .isDir row != 0) = e.isDir ∧ s.infoOf row = e.info := by
  unfold Segment.entry at he
  rw [hname] at he
  simp only at he
  split at he
  · rw [← Option.some.inj he]
    exact ⟨rfl, rfl, rfl, rfl⟩
  · cases he

namespace View

section
variable (v : View) {row : Nat}

theorem liveFrom_end (h : v.seg.rows ≤ row) : v.liveFrom row = [] := by
  unfold liveFrom
  rw [show v.seg.rows - row = 0 by omega]
  rfl

theorem liveFrom_dead (h : row < v.seg.rows) (hd : v.isAlive row = false) :
    v.liveFrom row = v.liveFrom (row + 1) := by
  unfold liveFrom
  rw [show v.seg.rows - row = v.seg.rows - (row + 1) + 1 by omega, List.range'_succ,
    List.filter_cons_of_neg (by rw [hd]; decide)]

theorem liveFrom_live (h : row < v.seg.rows) (hl : v.isAlive row = true) {e : Entry}
    (he : v.seg.entry row = some e) : v.liveFrom row = e :: v.liveFrom (row + 1) := by
  unfold liveFrom
  rw [show v.seg.rows - row = v.seg.rows - (row + 1) + 1 by omega, List.range'_succ,
    List.filter_cons_of_pos hl, List.filterMap_cons_some he]

theorem nextLive_end (h : v.seg.rows ≤ row) : v.nextLive row = v.seg.rows := by
  unfold nextLive
  rw [show v.seg.rows - row = 0 by omega]
  rfl

theorem nextLive_dead (h : row < v.seg.rows) (hd : v.isAlive row = false) :
    v.nextLive row = v.nextLive (row + 1) := by
  unfold nextLive
  rw [show v.seg.rows - row = v.seg.rows - (row + 1) + 1 by omega, List.range'_succ,
    List.find?_cons_of_neg (by rw [hd]; decide)]

theorem nextLive_live (h : row < v.seg.rows) (hl : v.isAlive row = true) :
    v.nextLive row = row := by
  unfold nextLive
  rw [show v.seg.rows - row = v.seg.rows - (row + 1) + 1 by omega, List.range'_succ,
    List.find?_cons_of_pos hl]
  rfl

/-- Where a cursor comes to rest: at a live row or past the end, and no live row is passed. -/
theorem nextLive_spec (n : Nat) : ∀ row, v.seg.rows - row ≤ n →
    v.liveFrom (v.nextLive row) = v.liveFrom row ∧
      (v.nextLive row < v.seg.rows → v.isAlive (v.nextLive row) = true) := by
  induction n with
  | zero =>
    intro row h
    rw [v.nextLive_end (by omega), v.liveFrom_end (le_refl _), v.liveFrom_end (by omega)]
    exact ⟨rfl, fun h => absurd h (lt_irrefl _)⟩
  | succ n ih =>
    intro row h
    by_cases hrow : row < v.seg.rows
    · cases hl : v.isAlive row with
      | true =>
        rw [v.nextLive_live hrow hl]
        exact ⟨rfl, fun _ => hl⟩
      | false =>
        rw [v.nextLive_dead hrow hl, v.liveFrom_dead hrow hl]
        exact ih (row + 1) (by omega)
    · apply ih
      omega

theorem liveFrom_nextLive (row : Nat) : v.liveFrom (v.nextLive row) = v.liveFrom row :=
  (v.nextLive_spec _ row (le_refl _)).1

theorem isAlive_nextLive (row : Nat) (h : v.nextLive row < v.seg.rows) :
    v.isAlive (v.nextLive row) = true :=
  (v.nextLive_spec _ row (le_refl _)).2 h

end

section
variable {P : Platform} {s : List Entry × Str} {row : Nat} {e : Entry}

theorem opened_rows : (View.opened P s).seg.rows = s.1.length :=
  Scour.buildSorted_rows s.1

theorem opened_entry (row : Nat) : (View.opened P s).seg.entry row = s.1[row]? :=
  buildSorted_entry_eq row

theorem opened_mtime (he : s.1[row]? = some e) : (View.opened P s).mtime row = e.info.mtime :=
  buildSorted_num he .mtime (by decide)

theorem opened_joined (he : s.1[row]? = some e) :
    (View.opened P s).joined row = e.path.bytes := by
  unfold joined
  rw [show (View.opened P s).seg.dirOf row = e.parent from buildSorted_dirOf he,
    show (View.opened P s).seg.names[row]? = some e.name from buildSorted_name he]
  exact joinPath_splitPath e.path

theorem opened_name (he : s.1[row]? = some e) :
    (View.opened P s).seg.names[row]? = some e.name :=
  buildSorted_name he

theorem opened_hit (he : s.1[row]? = some e) : (View.opened P s).hit row e.name = e.hit P := by
  obtain ⟨hsource, hpath, hdir, hinfo⟩ :=
    Segment.parts_of_entry (opened_name (P := P) he) ((opened_entry row).trans he)
  have hkind : (View.opened P s).kind row = ((e.kind P).asU8 : Int) := by
    show List.getD (List.map _ s.1) row 0 = _
    rw [List.getD_eq_getElem?_getD, List.getElem?_map, he]
    rfl
  have hlt := (e.kind P).asU8_lt
  unfold hit Entry.hit
  rw [hsource, hpath, hdir, hinfo, hkind,
    show (((e.kind P).asU8 : Int) % 256).toNat = (e.kind P).asU8 by omega, Kind.fromU8_asU8]
  rfl

end

/-! ## Either side of a date -/

section
variable {P : Platform} {s : List Entry × Str}

/-- The dates fall with the row. -/
theorem downTo_mtime (hs : s.1.Pairwise storedLe) (t : Int) :
    Search.DownTo (View.opened P s).seg.rows fun row => t < (View.opened P s).mtime row := by
  intro i j hij hj h
  rw [opened_rows] at hj
  simp only [decide_eq_true_eq] at h ⊢
  rw [opened_mtime (List.getElem?_eq_getElem hj)] at h
  rw [opened_mtime (List.getElem?_eq_getElem (show i < s.1.length by omega))]
  rcases Nat.eq_or_lt_of_le hij with rfl | hlt
  · exact h
  · have hle := List.pairwise_iff_getElem.mp hs i j (by omega) hj hlt
    unfold storedLe at hle
    omega

theorem length_of_live (rows : List Nat) (h : ∀ row ∈ rows, row < s.1.length) :
    ((rows.filter (View.opened P s).isAlive).filterMap (View.opened P s).seg.entry).length =
      rows.countP (View.opened P s).isAlive := by
  rw [List.length_filterMap_eq_countP, List.countP_filter]
  apply List.countP_congr
  intro row hrow
  rw [opened_entry, List.getElem?_eq_getElem (h row hrow)]
  simp

/-- The live rows newer than a date, as many as the rank says, and then the others. -/
theorem liveEntries_split (hs : s.1.Pairwise storedLe) (t : Int) :
    let v := View.opened P s
    let at_ := firstAtOrBelow v.seg.rows t v.mtime
    ∃ above : List Entry, v.liveEntries = above ++ v.liveFrom at_ ∧
      above.length = (LiveRank.build v.alive v.seg.rows).upto v.alive at_ ∧
      (∀ e ∈ above, t < e.info.mtime) ∧ ∀ e ∈ v.liveFrom at_, e.info.mtime ≤ t := by
  intro v at_
  have hdown := downTo_mtime (P := P) hs t
  have hle : at_ ≤ v.seg.rows := Search.partitionPoint_le _ _ hdown
  have hlt := Search.lt_partitionPoint_iff _ _ hdown
  have hrows : v.seg.rows = s.1.length := opened_rows
  have hmtime : ∀ row e, v.seg.entry row = some e → v.mtime row = e.info.mtime := fun row e he =>
    opened_mtime ((opened_entry row).symm.trans he)
  refine ⟨((List.range at_).filter v.isAlive).filterMap v.seg.entry, ?_, ?_, ?_, ?_⟩
  · unfold liveEntries liveFrom
    rw [← List.filterMap_append, ← List.filter_append, List.range_eq_range', List.range_eq_range']
    have h := List.range'_append_1 (s := 0) (m := at_) (n := v.seg.rows - at_)
    rw [Nat.zero_add, show at_ + (v.seg.rows - at_) = v.seg.rows by omega] at h
    rw [h]
  · rw [LiveRank.upto_eq, Nat.min_eq_left hle]
    apply length_of_live
    intro row hrow
    have := List.mem_range.mp hrow
    omega
  · intro e he
    obtain ⟨row, hrow, he⟩ := List.mem_filterMap.mp he
    have hrow := List.mem_range.mp (List.mem_of_mem_filter hrow)
    rw [← hmtime row e he]
    simpa using (hlt row (show row < v.seg.rows by omega)).mp hrow
  · intro e he
    obtain ⟨row, hrow, he⟩ := List.mem_filterMap.mp he
    have hrow := List.mem_range'_1.mp (List.mem_of_mem_filter hrow)
    rw [← hmtime row e he]
    by_contra hgt
    have : row < at_ := (hlt row (show row < v.seg.rows by omega)).mpr (by simpa using hgt)
    omega

theorem liveFrom_firstAtOrBelow (hs : s.1.Pairwise storedLe) (t : Int) :
    (View.opened P s).liveFrom
        (firstAtOrBelow (View.opened P s).seg.rows t (View.opened P s).mtime) =
      (View.opened P s).liveEntries.filter fun e => !decide (t < e.info.mtime) := by
  obtain ⟨above, hsplit, -, habove, hbelow⟩ := liveEntries_split (P := P) hs t
  rw [hsplit, List.filter_append, List.filter_eq_nil_iff.mpr, List.filter_eq_self.mpr]
  · rfl
  · intro e he
    simpa using hbelow e he
  · intro e he
    simpa using habove e he

theorem upto_firstAtOrBelow (hs : s.1.Pairwise storedLe) (t : Int) :
    (LiveRank.build (View.opened P s).alive (View.opened P s).seg.rows).upto
        (View.opened P s).alive
        (firstAtOrBelow (View.opened P s).seg.rows t (View.opened P s).mtime) =
      (View.opened P s).liveEntries.countP fun e => decide (t < e.info.mtime) := by
  obtain ⟨above, hsplit, hlength, habove, hbelow⟩ := liveEntries_split (P := P) hs t
  rw [← hlength, hsplit, List.countP_append, List.countP_eq_length.mpr, List.countP_eq_zero.mpr]
  · rfl
  · intro e he
    simpa using hbelow e he
  · intro e he
    simpa using habove e he

theorem total_opened :
    (LiveRank.build (View.opened P s).alive (View.opened P s).seg.rows).total
        (View.opened P s).alive = (View.opened P s).liveEntries.length := by
  unfold LiveRank.total
  rw [LiveRank.build_rows, LiveRank.upto_eq, Nat.min_self]
  symm
  apply length_of_live
  intro row hrow
  rw [← opened_rows (P := P)]
  exact List.mem_range.mp hrow

end

end View

/-! ## The stored order -/

theorem storedLe_total (a b : Entry) : storedLe a b ∨ storedLe b a := by
  unfold storedLe
  rcases lt_trichotomy a.info.mtime b.info.mtime with h | h | h
  · exact Or.inr (Or.inl h)
  · rcases le_total a.path.bytes b.path.bytes with hp | hp
    · exact Or.inl (Or.inr ⟨h, hp⟩)
    · exact Or.inr (Or.inr ⟨h.symm, hp⟩)
  · exact Or.inl (Or.inl h)

theorem storedLe_trans {a b c : Entry} (hab : storedLe a b) (hbc : storedLe b c) :
    storedLe a c := by
  unfold storedLe at *
  rcases hab with hab | ⟨hab, hp⟩ <;> rcases hbc with hbc | ⟨hbc, hq⟩
  · exact Or.inl (by omega)
  · exact Or.inl (by omega)
  · exact Or.inl (by omega)
  · exact Or.inr ⟨by omega, hp.trans hq⟩

/-- Neither of two entries comes first only where they are at one path. -/
theorem path_of_storedLe {a b : Entry} (hab : storedLe a b) (hba : storedLe b a) :
    a.path = b.path := by
  unfold storedLe at *
  rcases hab with hab | ⟨hab, hp⟩ <;> rcases hba with hba | ⟨hba, hq⟩
  · omega
  · omega
  · omega
  · have hbytes := le_antisymm hp hq
    cases ha : a.path
    cases hb : b.path
    rw [ha, hb] at hbytes
    simpa using hbytes

theorem pairwise_stored (es : List Entry) : (es.insertionSort storedLe).Pairwise storedLe :=
  @List.pairwise_insertionSort _ storedLe _ ⟨storedLe_total⟩ ⟨fun _ _ _ => storedLe_trans⟩ es

/-- Along a sorted list, what a predicate inherited leftwards does not hold of is all that follows
what it holds of. -/
theorem drop_countP {α : Type*} {R : α → α → Prop} (p : α → Bool)
    (hp : ∀ a b, R a b → p b = true → p a = true) :
    ∀ l : List α, l.Pairwise R → l.drop (l.countP p) = l.filter fun a => !p a := by
  intro l
  induction l with
  | nil => simp
  | cons a l ih =>
    intro hl
    rw [List.pairwise_cons] at hl
    cases ha : p a with
    | true =>
      rw [List.countP_cons_of_pos ha, List.drop_succ_cons, ih hl.2,
        List.filter_cons_of_neg (by simp [ha])]
    | false =>
      have hall : ∀ b ∈ a :: l, p b = false := by
        intro b hb
        rcases List.mem_cons.mp hb with rfl | hb
        · exact ha
        · by_contra h
          rw [hp a b (hl.1 b hb) (by simpa using h)] at ha
          cases ha
      rw [List.countP_eq_zero.mpr fun b hb => by simp [hall b hb], List.drop_zero,
        List.filter_eq_self.mpr fun b hb => by simp [hall b hb]]

/-! ## Taking the first row -/

/-- Where the row of one cursor is not after that of another. -/
def rowLe (a b : Cursor × Nat) : Prop :=
  b.1.1.mtime b.1.2 < a.1.1.mtime a.1.2 ∨
    (a.1.1.mtime a.1.2 = b.1.1.mtime b.1.2 ∧ a.1.1.joined a.1.2 ≤ b.1.1.joined b.1.2)

theorem rowLe_refl (a : Cursor × Nat) : rowLe a a := Or.inr ⟨rfl, le_refl _⟩

theorem rowLe_trans {a b c : Cursor × Nat} (hab : rowLe a b) (hbc : rowLe b c) : rowLe a c := by
  unfold rowLe at *
  rcases hab with hab | ⟨hab, hp⟩ <;> rcases hbc with hbc | ⟨hbc, hq⟩
  · exact Or.inl (by omega)
  · exact Or.inl (by omega)
  · exact Or.inl (by omega)
  · exact Or.inr ⟨by omega, hp.trans hq⟩

/-- Cursors of one number are one cursor. -/
def Numbered (cs : List (Cursor × Nat)) : Prop := ∀ a ∈ cs, ∀ b ∈ cs, a.2 = b.2 → a = b

theorem rowLe_of_firstOf {cs : List (Cursor × Nat)} (hcs : Numbered cs) {a b : Cursor × Nat}
    (ha : a ∈ cs) (hb : b ∈ cs) :
    (firstOf a b = true → rowLe a b) ∧ (firstOf a b = false → rowLe b a) := by
  have hsame := hcs a ha b hb
  obtain ⟨⟨v, row⟩, i⟩ := a
  obtain ⟨⟨w, other⟩, j⟩ := b
  unfold firstOf rowLe
  simp only at hsame ⊢
  by_cases h1 : w.mtime other < v.mtime row
  · rw [if_pos h1]
    exact ⟨fun _ => Or.inl h1, fun h => absurd h (by decide)⟩
  · rw [if_neg h1]
    by_cases h2 : v.mtime row < w.mtime other
    · rw [if_pos h2]
      exact ⟨fun h => absurd h (by decide), fun _ => Or.inl h2⟩
    · rw [if_neg h2]
      have heq : v.mtime row = w.mtime other := by omega
      by_cases hij : i = j
      · rw [if_pos hij]
        have h := hsame hij
        simp only [Prod.mk.injEq] at h
        obtain ⟨⟨rfl, rfl⟩, -⟩ := h
        exact ⟨fun _ => Or.inr ⟨rfl, le_refl _⟩, fun _ => Or.inr ⟨rfl, le_refl _⟩⟩
      · rw [if_neg hij]
        constructor
        · intro h
          exact Or.inr ⟨heq, le_of_lt (by simpa using h)⟩
        · intro h
          exact Or.inr ⟨heq.symm, le_of_not_gt (by simpa using h)⟩

/-- The loop keeps a cursor none of those it has seen comes before. -/
theorem foldl_pick {all : List (Cursor × Nat)} (hall : Numbered all) :
    ∀ (cs : List (Cursor × Nat)) (acc : Option (Cursor × Nat)), (∀ c ∈ cs, c ∈ all) →
      (∀ a, acc = some a → a ∈ all ∧ a.1.2 < a.1.1.seg.rows) →
      (cs.foldl pick acc = none → acc = none ∧ ∀ c ∈ cs, c.1.1.seg.rows ≤ c.1.2) ∧
      ∀ b, cs.foldl pick acc = some b → (b ∈ all ∧ b.1.2 < b.1.1.seg.rows) ∧
        (∀ a, acc = some a → rowLe b a) ∧ ∀ c ∈ cs, c.1.2 < c.1.1.seg.rows → rowLe b c := by
  intro cs
  induction cs with
  | nil =>
    intro acc _ hacc
    refine ⟨fun h => ⟨h, by simp⟩, fun b hb => ⟨hacc b hb, ?_, by simp⟩⟩
    intro a ha
    rw [List.foldl_nil, ha] at hb
    rw [Option.some.inj hb]
    exact rowLe_refl b
  | cons c cs ih =>
    intro acc hmem hacc
    have hc := hmem c List.mem_cons_self
    have hrest := fun d hd => hmem d (List.mem_cons_of_mem c hd)
    rw [List.foldl_cons]
    by_cases hend : c.1.1.seg.rows ≤ c.1.2
    · -- a cursor past the end is passed over
      have hpick : pick acc c = acc := if_pos hend
      rw [hpick]
      obtain ⟨h1, h2⟩ := ih acc hrest hacc
      refine ⟨fun h => ⟨(h1 h).1, ?_⟩, fun b hb => ⟨(h2 b hb).1, (h2 b hb).2.1, ?_⟩⟩
      · intro d hd
        rcases List.mem_cons.mp hd with rfl | hd
        · exact hend
        · exact (h1 h).2 d hd
      · intro d hd hopen
        rcases List.mem_cons.mp hd with rfl | hd
        · omega
        · exact (h2 b hb).2.2 d hd hopen
    · -- the better of the two is before both
      obtain ⟨k, hpick, hk, hkacc, hkc⟩ : ∃ k, pick acc c = some k ∧
          (k ∈ all ∧ k.1.2 < k.1.1.seg.rows) ∧ (∀ a, acc = some a → rowLe k a) ∧ rowLe k c := by
        unfold pick
        rw [if_neg hend]
        cases hb : acc with
        | none =>
          exact ⟨c, rfl, ⟨hc, by omega⟩, fun a ha => absurd ha (by simp), rowLe_refl c⟩
        | some a =>
          obtain ⟨hta, hfa⟩ := rowLe_of_firstOf hall hc (hacc a hb).1
          cases hf : firstOf c a with
          | true =>
            refine ⟨c, by simp [hf], ⟨hc, by omega⟩, fun a' ha => ?_, rowLe_refl c⟩
            rw [← Option.some.inj ha]
            exact hta hf
          | false =>
            refine ⟨a, by simp [hf], hacc a hb, fun a' ha => ?_, hfa hf⟩
            rw [← Option.some.inj ha]
            exact rowLe_refl a
      rw [hpick]
      obtain ⟨h1, h2⟩ := ih (some k) hrest fun a ha => Option.some.inj ha ▸ hk
      refine ⟨fun h => absurd (h1 h).1 (by simp), fun b hb => ?_⟩
      obtain ⟨hb1, hb2, hb3⟩ := h2 b hb
      have hbk := hb2 k rfl
      refine ⟨hb1, fun a ha => rowLe_trans hbk (hkacc a ha), fun d hd hopen => ?_⟩
      rcases List.mem_cons.mp hd with rfl | hd
      · exact rowLe_trans hbk hkc
      · exact hb3 d hd hopen

theorem numbered_zipIdx (cursors : List Cursor) : Numbered cursors.zipIdx := by
  rintro ⟨a, i⟩ ha ⟨b, j⟩ hb hij
  simp only at hij
  subst hij
  rw [List.mem_zipIdx_iff_getElem?] at ha hb
  rw [ha] at hb
  rw [show a = b from Option.some.inj hb]

theorem best_none {cursors : List Cursor} (h : best cursors.zipIdx = none) :
    ∀ c ∈ cursors, c.1.seg.rows ≤ c.2 := by
  have hall := (foldl_pick (numbered_zipIdx cursors) cursors.zipIdx none (fun _ h => h)
    (fun a ha => absurd ha (by simp))).1 h
  intro c hc
  obtain ⟨i, hi⟩ := List.mem_iff_getElem?.mp hc
  exact hall.2 (c, i) (List.mem_zipIdx_iff_getElem?.mpr hi)

theorem best_some {cursors : List Cursor} {b : Cursor × Nat} (h : best cursors.zipIdx = some b) :
    cursors[b.2]? = some b.1 ∧ b.1.2 < b.1.1.seg.rows ∧
      ∀ c ∈ cursors, c.2 < c.1.seg.rows → ∀ i, rowLe b (c, i) := by
  obtain ⟨⟨hmem, hopen⟩, -, hle⟩ := (foldl_pick (numbered_zipIdx cursors) cursors.zipIdx none
    (fun _ h => h) (fun a ha => absurd ha (by simp))).2 b h
  refine ⟨List.mem_zipIdx_iff_getElem?.mp hmem, hopen, fun c hc hrow i => ?_⟩
  obtain ⟨j, hj⟩ := List.mem_iff_getElem?.mp hc
  exact hle (c, j) (List.mem_zipIdx_iff_getElem?.mpr hj) hrow

/-! ## The merge -/

/-- What a cursor has yet to give. -/
def left (c : Cursor) : List Entry := c.1.liveFrom c.2

variable {P : Platform}

/-- A cursor over a segment in the stored order, at a live row or past the end. -/
def Settled (P : Platform) (c : Cursor) : Prop :=
  ∃ s : List Entry × Str, c.1 = View.opened P s ∧ s.1.Pairwise storedLe ∧
    (c.2 < c.1.seg.rows → c.1.isAlive c.2 = true)

theorem settled_nextLive {s : List Entry × Str} (hs : s.1.Pairwise storedLe) (row : Nat) :
    Settled P (View.opened P s, (View.opened P s).nextLive row) :=
  ⟨s, rfl, hs, (View.opened P s).isAlive_nextLive row⟩

theorem pairwise_left {c : Cursor} (hc : Settled P c) : (left c).Pairwise storedLe := by
  obtain ⟨s, hv, hs, -⟩ := hc
  unfold left View.liveFrom
  rw [hv]
  refine List.Pairwise.filterMap _ ?_ ((List.pairwise_lt_range' ..).filter _)
  intro i j hij a ha b hb
  rw [View.opened_entry] at ha hb
  obtain ⟨hi, rfl⟩ := List.getElem?_eq_some_iff.mp ha
  obtain ⟨hj, rfl⟩ := List.getElem?_eq_some_iff.mp hb
  exact List.pairwise_iff_getElem.mp hs i j hi hj hij

/-- The row under a cursor is the first it has yet to give. -/
theorem left_open {c : Cursor} (hc : Settled P c) (hrow : c.2 < c.1.seg.rows) :
    ∃ e, left c = e :: c.1.liveFrom (c.2 + 1) ∧ c.1.seg.names[c.2]? = some e.name ∧
      c.1.hit c.2 e.name = e.hit P ∧ c.1.mtime c.2 = e.info.mtime ∧
      c.1.joined c.2 = e.path.bytes := by
  obtain ⟨s, hv, -, halive⟩ := hc
  have hlive := halive hrow
  obtain ⟨v, row⟩ := c
  simp only at hv hrow hlive ⊢
  subst hv
  have hlt : row < s.1.length := View.opened_rows (P := P) (s := s) ▸ hrow
  have he := List.getElem?_eq_getElem hlt
  refine ⟨s.1[row], ?_, View.opened_name he, View.opened_hit he, View.opened_mtime he,
    View.opened_joined he⟩
  exact View.liveFrom_live _ hrow hlive ((View.opened_entry row).trans he)

theorem left_end {c : Cursor} (h : c.1.seg.rows ≤ c.2) : left c = [] := c.1.liveFrom_end h

/-- Where the loop picks no cursor nothing is left. -/
theorem left_of_none {cursors : List Cursor} (h : best cursors.zipIdx = none) :
    cursors.flatMap left = [] := by
  rw [List.flatMap_eq_nil_iff]
  exact fun c hc => left_end (best_none h c hc)

/-- The row under the cursor the loop picks is before every other that is left. -/
theorem best_least {cursors : List Cursor} (hset : ∀ c ∈ cursors, Settled P c) {v : View}
    {row i : Nat} (h : best cursors.zipIdx = some ((v, row), i)) :
    ∃ e, cursors[i]? = some (v, row) ∧ left (v, row) = e :: v.liveFrom (row + 1) ∧
      v.seg.names[row]? = some e.name ∧ v.hit row e.name = e.hit P ∧
      ∀ x ∈ cursors.flatMap left, storedLe e x := by
  obtain ⟨hget, hrow, hle⟩ := best_some h
  simp only at hget hrow
  obtain ⟨e, he, hname, hhit, hem, hej⟩ := left_open (hset _ (List.mem_of_getElem? hget)) hrow
  refine ⟨e, hget, he, hname, hhit, fun x hx => ?_⟩
  obtain ⟨c, hc, hxc⟩ := List.mem_flatMap.mp hx
  have hopen : c.2 < c.1.seg.rows := by
    by_contra hn
    rw [left_end (by omega)] at hxc
    cases hxc
  obtain ⟨y, hy, -, -, hym, hyj⟩ := left_open (hset c hc) hopen
  -- the row picked is not after the first of the cursor that holds `x`, nor that after `x`
  have hey : storedLe e y := by
    have hrows := hle c hc hopen i
    unfold rowLe at hrows
    simp only at hrows hem hej
    rw [hem, hej, hym, hyj] at hrows
    exact hrows
  have hsort := pairwise_left (hset c hc)
  rw [hy] at hsort hxc
  rcases List.mem_cons.mp hxc with rfl | hin
  · exact hey
  · exact storedLe_trans hey ((List.pairwise_cons.mp hsort).1 x hin)

/-- Taking the row under one cursor takes it from what is left. -/
theorem perm_set {cursors : List Cursor} {v : View} {row i : Nat} {e : Entry}
    (hget : cursors[i]? = some (v, row)) (hleft : left (v, row) = e :: v.liveFrom (row + 1)) :
    (cursors.flatMap left).Perm
      (e :: (cursors.set i (v, v.nextLive (row + 1))).flatMap left) := by
  obtain ⟨hi, hcur⟩ := List.getElem?_eq_some_iff.mp hget
  have hsplit : cursors = cursors.take i ++ (v, row) :: cursors.drop (i + 1) := by
    have h := List.set_eq_take_append_cons_drop (l := cursors) (i := i) (a := cursors[i])
    rw [if_pos hi, List.set_getElem_self, hcur] at h
    exact h
  rw [List.set_eq_take_append_cons_drop, if_pos hi]
  conv_lhs => rw [hsplit]
  rw [List.flatMap_append, List.flatMap_cons, List.flatMap_append, List.flatMap_cons, hleft,
    show left (v, v.nextLive (row + 1)) = v.liveFrom (row + 1) from v.liveFrom_nextLive _]
  exact List.perm_middle

theorem settled_set {cursors : List Cursor} (hset : ∀ c ∈ cursors, Settled P c) {v : View}
    {row i : Nat} (hget : cursors[i]? = some (v, row)) :
    ∀ c ∈ cursors.set i (v, v.nextLive (row + 1)), Settled P c := by
  intro c hc
  rcases List.mem_or_eq_of_mem_set hc with hc | rfl
  · exact hset c hc
  · obtain ⟨s, hv, hs, -⟩ := hset _ (List.mem_of_getElem? hget)
    simp only at hv
    rw [hv]
    exact settled_nextLive hs (row + 1)

/-- The merge gives the rows that are left in a stored order, from the one skipped to on; rows of one
date and path come in any order. -/
theorem mergePage_arranged (fuel : Nat) : ∀ (cursors : List Cursor) (skip limit : Nat),
    (∀ c ∈ cursors, Settled P c) → (cursors.flatMap left).length < fuel →
    ∃ S : List Entry, S.Perm (cursors.flatMap left) ∧ S.Pairwise storedLe ∧
      mergePage fuel cursors skip limit = ((S.drop skip).take limit).map (Entry.hit P) := by
  induction fuel with
  | zero =>
    intro _ _ _ _ h
    omega
  | succ fuel ih =>
    intro cursors skip limit hset hlen
    unfold mergePage
    by_cases hlimit : limit = 0
    · rw [if_pos hlimit, hlimit]
      exact ⟨_, List.perm_insertionSort storedLe _, pairwise_stored _, rfl⟩
    rw [if_neg hlimit]
    cases hb : best cursors.zipIdx with
    | none =>
      rw [left_of_none hb]
      exact ⟨[], List.Perm.refl _, List.Pairwise.nil, by simp⟩
    | some b =>
      obtain ⟨⟨v, row⟩, i⟩ := b
      obtain ⟨e, hget, hleft, hname, hhit, hleast⟩ := best_least hset hb
      have hperm := perm_set hget hleft
      have hlen' := hperm.length_eq
      rw [List.length_cons] at hlen'
      have hstep := fun skip limit => ih _ skip limit (settled_set hset hget) (by omega)
      -- what is left after the row, behind it
      have hcons : ∀ S : List Entry,
          S.Perm ((cursors.set i (v, v.nextLive (row + 1))).flatMap left) → S.Pairwise storedLe →
            (e :: S).Perm (cursors.flatMap left) ∧ (e :: S).Pairwise storedLe :=
        fun S hS hsorted => ⟨(hS.cons e).trans hperm.symm, List.pairwise_cons.mpr
          ⟨fun x hx => hleast x (hperm.symm.subset (List.mem_cons_of_mem _ (hS.subset hx))), hsorted⟩⟩
      simp only
      by_cases hskip : 0 < skip
      · obtain ⟨S, hS, hsorted, hpage⟩ := hstep (skip - 1) limit
        refine ⟨e :: S, (hcons S hS hsorted).1, (hcons S hS hsorted).2, ?_⟩
        rw [if_pos hskip, hpage, show skip = skip - 1 + 1 by omega, List.drop_succ_cons]
        rfl
      · obtain ⟨S, hS, hsorted, hpage⟩ := hstep skip (limit - 1)
        refine ⟨e :: S, (hcons S hS hsorted).1, (hcons S hS hsorted).2, ?_⟩
        rw [if_neg hskip, hname]
        simp only
        rw [hpage, hhit, show skip = 0 by omega, List.drop_zero, List.drop_zero,
          show limit = limit - 1 + 1 by omega, List.take_succ_cons]
        rfl

/-- Where no path comes twice, in the stored order. -/
theorem mergePage_eq {fuel : Nat} {cursors : List Cursor} (skip limit : Nat) {S : List Entry}
    (hset : ∀ c ∈ cursors, Settled P c) (hS : S.Pairwise storedLe)
    (hperm : S.Perm (cursors.flatMap left)) (hnd : (S.map (·.path)).Nodup) (hlen : S.length < fuel) :
    mergePage fuel cursors skip limit = ((S.drop skip).take limit).map (Entry.hit P) := by
  obtain ⟨T, hT, hsorted, hpage⟩ :=
    mergePage_arranged fuel cursors skip limit hset (hperm.length_eq ▸ hlen)
  have hTS := hT.trans hperm.symm
  rw [hpage, List.Perm.eq_of_pairwise (fun a b ha hb hab hba => ?_) hsorted hS hTS]
  exact List.inj_on_of_nodup_map hnd (hTS.subset ha) hb (path_of_storedLe hab hba)

/-! ## The bisection -/

/-- Within a bracket that fits, the rounds suffice and end at a date with few enough rows above. -/
theorem bisect_spec (views : List View) (offset : Nat) (fuel : Nat) (hfuel : fuel ≤ 63) :
    ∀ low high : Int, high - low < 2 ^ fuel → newer views high ≤ offset →
      ∃ t, bisect views offset (fuel + 1) low high = some t ∧ newer views t ≤ offset := by
  induction fuel with
  | zero =>
    intro low high h hnew
    refine ⟨high, ?_, hnew⟩
    unfold bisect
    rw [if_neg (by omega)]
  | succ fuel ih =>
    intro low high h hnew
    have hpow : (2 : Int) ^ (fuel + 1) = 2 * 2 ^ fuel := by rw [pow_succ, mul_comm]
    have hle : (2 : Int) ^ (fuel + 1) ≤ 2 ^ 63 := by
      have := Nat.pow_le_pow_right (show 0 < 2 by decide) hfuel
      exact_mod_cast this
    unfold bisect
    by_cases hlt : low < high
    · rw [if_pos hlt, if_neg (by omega)]
      simp only
      by_cases hmid : newer views (low + (high - low) / 2) ≤ offset
      · rw [if_pos hmid]
        exact ih (by omega) _ _ (by omega) hmid
      · rw [if_neg hmid]
        exact ih (by omega) _ _ (by omega) hnew
    · rw [if_neg hlt]
      exact ⟨high, rfl, hnew⟩

theorem bisect_wide (views : List View) (offset fuel : Nat) {low high : Int}
    (h : 2 ^ 63 ≤ high - low) : bisect views offset (fuel + 1) low high = none := by
  unfold bisect
  rw [if_pos (by omega), if_pos h]

/-! ## The bracket -/

/-- The fold goes down to the last rows and up to the first ones, and no further. -/
theorem bracket_foldl (views : List View) : ∀ b : Int × Int,
    let r := views.foldl widen b
    (r.1 ≤ b.1 ∧ b.2 ≤ r.2) ∧
      (∀ v ∈ views, 0 < v.seg.rows → r.1 ≤ v.mtime (v.seg.rows - 1) ∧ v.mtime 0 ≤ r.2) ∧
      (r.1 = b.1 ∨ ∃ v ∈ views, 0 < v.seg.rows ∧ r.1 = v.mtime (v.seg.rows - 1)) ∧
      (r.2 = b.2 ∨ ∃ v ∈ views, 0 < v.seg.rows ∧ r.2 = v.mtime 0) := by
  induction views with
  | nil => exact fun b => ⟨⟨le_refl _, le_refl _⟩, by simp, Or.inl rfl, Or.inl rfl⟩
  | cons w views ih =>
    intro b
    rw [List.foldl_cons]
    by_cases hw : 0 < w.seg.rows
    · rw [show widen b w = (min b.1 (w.mtime (w.seg.rows - 1)), max b.2 (w.mtime 0)) from if_pos hw]
      obtain ⟨⟨h1, h2⟩, h3, h4, h5⟩ := ih (min b.1 (w.mtime (w.seg.rows - 1)), max b.2 (w.mtime 0))
      refine ⟨⟨h1.trans (min_le_left _ _), (le_max_left _ _).trans h2⟩, fun v hv hrows => ?_, ?_, ?_⟩
      · rcases List.mem_cons.mp hv with rfl | hv
        · exact ⟨h1.trans (min_le_right _ _), (le_max_right _ _).trans h2⟩
        · exact h3 v hv hrows
      · rcases h4 with h4 | ⟨v, hv, hrows, h4⟩
        · rcases min_choice b.1 (w.mtime (w.seg.rows - 1)) with hm | hm
          · exact Or.inl (h4.trans hm)
          · exact Or.inr ⟨w, List.mem_cons_self, hw, h4.trans hm⟩
        · exact Or.inr ⟨v, List.mem_cons_of_mem _ hv, hrows, h4⟩
      · rcases h5 with h5 | ⟨v, hv, hrows, h5⟩
        · rcases max_choice b.2 (w.mtime 0) with hm | hm
          · exact Or.inl (h5.trans hm)
          · exact Or.inr ⟨w, List.mem_cons_self, hw, h5.trans hm⟩
        · exact Or.inr ⟨v, List.mem_cons_of_mem _ hv, hrows, h5⟩
    · rw [show widen b w = b from if_neg hw]
      obtain ⟨h12, h3, h4, h5⟩ := ih b
      refine ⟨h12, fun v hv hrows => ?_, ?_, ?_⟩
      · rcases List.mem_cons.mp hv with rfl | hv
        · omega
        · exact h3 v hv hrows
      · exact h4.imp_right fun ⟨v, hv, h⟩ => ⟨v, List.mem_cons_of_mem _ hv, h⟩
      · exact h5.imp_right fun ⟨v, hv, h⟩ => ⟨v, List.mem_cons_of_mem _ hv, h⟩

/-- Segments `build` wrote, each with its live bitmap. -/
def views (P : Platform) (segs : List (List Entry × Str)) : List View :=
  segs.map fun s => { View.build P s.1 with alive := s.2 }

/-- The rows of the segments, dead ones too. -/
def rowsOf (segs : List (List Entry × Str)) : List Entry := segs.flatMap (·.1)

/-- Dates as 64 bits hold them. -/
def Dated (segs : List (List Entry × Str)) : Prop :=
  ∀ e ∈ rowsOf segs, -2 ^ 63 ≤ e.info.mtime ∧ e.info.mtime < 2 ^ 63

section
variable {segs : List (List Entry × Str)}

theorem views_eq : views P segs =
    segs.map fun s => View.opened P (s.1.insertionSort storedLe, s.2) := rfl

/-- The bracket is from the oldest date to the newest. -/
theorem bracket_views (hdates : Dated segs) (hne : rowsOf segs ≠ []) :
    (∀ e ∈ rowsOf segs, (bracket (views P segs)).1 ≤ e.info.mtime ∧
      e.info.mtime ≤ (bracket (views P segs)).2) ∧
    (∃ e ∈ rowsOf segs, e.info.mtime = (bracket (views P segs)).1) ∧
      ∃ e ∈ rowsOf segs, e.info.mtime = (bracket (views P segs)).2 := by
  obtain ⟨-, hends, hlow, hhigh⟩ := bracket_foldl (views P segs) (2 ^ 63 - 1, -2 ^ 63)
  rw [show (views P segs).foldl widen _ = bracket (views P segs) from rfl] at hends hlow hhigh
  -- a row of a segment is one of the rows
  have hrow : ∀ v ∈ views P segs, ∀ i < v.seg.rows, ∃ e ∈ rowsOf segs, v.mtime i = e.info.mtime := by
    intro v hv i hi
    rw [views_eq] at hv
    obtain ⟨s, hs, rfl⟩ := List.mem_map.mp hv
    rw [View.opened_rows] at hi
    refine ⟨_, ?_, View.opened_mtime (List.getElem?_eq_getElem hi)⟩
    exact List.mem_flatMap.mpr ⟨s, hs, (List.mem_insertionSort _).mp (List.getElem_mem hi)⟩
  have hall : ∀ e ∈ rowsOf segs, (bracket (views P segs)).1 ≤ e.info.mtime ∧
      e.info.mtime ≤ (bracket (views P segs)).2 := by
    intro e he
    obtain ⟨s, hs, he⟩ := List.mem_flatMap.mp he
    obtain ⟨i, hi, rfl⟩ := List.mem_iff_getElem.mp ((List.mem_insertionSort storedLe).mpr he)
    have hv : View.opened P (s.1.insertionSort storedLe, s.2) ∈ views P segs := by
      rw [views_eq]
      exact List.mem_map.mpr ⟨s, hs, rfl⟩
    have hrows := View.opened_rows (P := P) (s := (s.1.insertionSort storedLe, s.2))
    simp only at hrows
    obtain ⟨h1, h2⟩ := hends _ hv (by omega)
    have hdown := fun t => View.downTo_mtime (P := P) (s := (s.1.insertionSort storedLe, s.2))
      (pairwise_stored s.1) t
    have hm := View.opened_mtime (P := P) (s := (s.1.insertionSort storedLe, s.2))
      (List.getElem?_eq_getElem hi)
    have hlast := hdown (s.1.insertionSort storedLe)[i].info.mtime i
      ((View.opened P (s.1.insertionSort storedLe, s.2)).seg.rows - 1) (by omega) (by omega)
    have hfirst := hdown ((View.opened P (s.1.insertionSort storedLe, s.2)).mtime 0) 0 i
      (by omega) (by omega)
    simp only [decide_eq_true_eq] at hlast hfirst
    constructor <;> by_contra hgt <;> omega
  obtain ⟨e, he⟩ := List.exists_mem_of_ne_nil _ hne
  refine ⟨hall, ?_, ?_⟩
  · rcases hlow with hlow | ⟨v, hv, hrows, hlow⟩
    · have h1 := hall e he
      have h2 := hdates e he
      simp only at hlow
      exact ⟨e, he, by omega⟩
    · obtain ⟨e, he, hm⟩ := hrow v hv _ (show v.seg.rows - 1 < v.seg.rows by omega)
      exact ⟨e, he, by rw [hlow, hm]⟩
  · rcases hhigh with hhigh | ⟨v, hv, hrows, hhigh⟩
    · have h1 := hall e he
      have h2 := hdates e he
      simp only at hhigh
      exact ⟨e, he, by omega⟩
    · obtain ⟨e, he, hm⟩ := hrow v hv 0 hrows
      exact ⟨e, he, by rw [hhigh, hm]⟩

/-! ## The page -/

theorem length_walked : (walked (views P segs)).length =
    ((views P segs).map fun v => (LiveRank.build v.alive v.seg.rows).total v.alive).sum := by
  unfold walked
  rw [List.length_insertionSort, List.length_flatMap, views_eq, List.map_map, List.map_map]
  congr 1
  apply List.map_congr_left
  intro s _
  exact View.total_opened.symm

/-- As many rows are newer as the walk meets before the date. -/
theorem newer_views (t : Int) :
    newer (views P segs) t = (walked (views P segs)).countP fun e => t < e.info.mtime := by
  unfold newer walked
  rw [(List.perm_insertionSort _ _).countP_eq, List.countP_flatMap, views_eq, List.map_map,
    List.map_map]
  congr 1
  apply List.map_congr_left
  intro s _
  exact View.upto_firstAtOrBelow (s := (s.1.insertionSort storedLe, s.2)) (pairwise_stored s.1) t

/-- The cursors a page is merged from, once its date is known. -/
def cursorsAt (vs : List View) (t : Int) : List Cursor :=
  vs.map fun v => (v, v.nextLive (firstAtOrBelow v.seg.rows t v.mtime))

theorem settled_cursorsAt (t : Int) : ∀ c ∈ cursorsAt (views P segs) t, Settled P c := by
  intro c hc
  unfold cursorsAt at hc
  rw [views_eq, List.map_map] at hc
  obtain ⟨s, -, rfl⟩ := List.mem_map.mp hc
  exact settled_nextLive (pairwise_stored s.1) _

/-- They leave the rows that are not newer. -/
theorem left_cursorsAt (t : Int) : ((walked (views P segs)).drop (newer (views P segs) t)).Perm
    ((cursorsAt (views P segs) t).flatMap left) := by
  have hsorted := pairwise_stored ((views P segs).flatMap View.liveEntries)
  have hdrop := drop_countP (fun e => decide (t < e.info.mtime)) (fun a b hab hb => by
    unfold storedLe at hab
    simp only [decide_eq_true_eq] at hb ⊢
    omega) _ hsorted
  rw [newer_views]
  unfold walked cursorsAt
  rw [hdrop]
  refine ((List.perm_insertionSort _ _).filter _).trans (List.Perm.of_eq ?_)
  rw [views_eq, List.map_map, List.filter_flatMap, List.flatMap_map, List.flatMap_map]
  congr 1
  funext s
  exact ((View.liveFrom_nextLive _ _).trans
    (View.liveFrom_firstAtOrBelow (pairwise_stored s.1) t)).symm

theorem length_walked_le :
    (walked (views P segs)).length ≤ ((views P segs).map (·.seg.rows)).sum := by
  rw [length_walked]
  apply List.sum_le_sum
  intro v _
  unfold LiveRank.total
  rw [LiveRank.build_rows, LiveRank.upto_eq, Nat.min_self]
  exact List.countP_le_length.trans (le_of_eq List.length_range)

/-- From a date on, the merge gives the rows that are not newer. -/
theorem mergePage_views (hnd : ((walked (views P segs)).map (·.path)).Nodup) (t : Int)
    (skip limit : Nat) :
    mergePage (((views P segs).map (·.seg.rows)).sum + 1)
        ((views P segs).map fun v => (v, v.nextLive (firstAtOrBelow v.seg.rows t v.mtime)))
        skip limit =
      ((((walked (views P segs)).drop (newer (views P segs) t)).drop skip).take limit).map
        (Entry.hit P) := by
  have hsub : List.Sublist ((walked (views P segs)).drop (newer (views P segs) t))
      (walked (views P segs)) := List.drop_sublist _ _
  refine mergePage_eq skip limit (settled_cursorsAt t) ((pairwise_stored _).sublist hsub)
    (left_cursorsAt t) (hnd.sublist (hsub.map _)) ?_
  have h1 := hsub.length_le
  have h2 := @length_walked_le P segs
  omega

end

/-- A page that says what the walk would, and no bisection that overflows. -/
def ReachExact (P : Platform) (vs : List View) (offset limit cap : Nat) : Prop :=
  reach vs offset limit cap ≠ .overflow ∧ ∀ p, reach vs offset limit cap = .page p →
    p.hits = (((walked vs).drop offset).take limit).map (Entry.hit P) ∧
      p.total = min cap (walked vs).length ∧ (p.capped = true ↔ cap ≤ (walked vs).length)

/-- Dates less than `2^63` apart. -/
def Close (segs : List (List Entry × Str)) : Prop :=
  ∀ a ∈ rowsOf segs, ∀ b ∈ rowsOf segs, b.info.mtime - a.info.mtime < 2 ^ 63

section
variable {segs : List (List Entry × Str)} {offset limit cap : Nat}

theorem rowsOf_ne_nil (h : offset < (walked (views P segs)).length) : rowsOf segs ≠ [] := by
  obtain ⟨e, he⟩ := List.exists_mem_of_length_pos (show 0 < (walked (views P segs)).length by omega)
  obtain ⟨v, hv, he⟩ := List.mem_flatMap.mp ((List.mem_insertionSort _).mp he)
  rw [views_eq] at hv
  obtain ⟨s, hs, rfl⟩ := List.mem_map.mp hv
  obtain ⟨i, -, he⟩ := List.mem_filterMap.mp he
  rw [View.opened_entry] at he
  have hmem := (List.mem_insertionSort _).mp (List.mem_of_getElem? he)
  exact List.ne_nil_of_mem (List.mem_flatMap.mpr ⟨s, hs, hmem⟩)

/-- Past the last row there is nothing to reach. -/
theorem reachExact_past (h : (walked (views P segs)).length ≤ offset) :
    ReachExact P (views P segs) offset limit cap := by
  have hreach : reach (views P segs) offset limit cap =
      .page ⟨[], min (walked (views P segs)).length cap,
        decide (cap ≤ (walked (views P segs)).length)⟩ := by
    unfold reach
    rw [← length_walked]
    exact if_pos h
  unfold ReachExact
  rw [hreach]
  refine ⟨by simp, fun p hp => ?_⟩
  rw [← Reach.page.inj hp, List.drop_eq_nil_of_le h, List.take_nil]
  exact ⟨rfl, Nat.min_comm _ _, by simp⟩

/-- Dates too far apart do not survive the first subtraction. -/
theorem reach_wide (hdates : Dated segs) (h : offset < (walked (views P segs)).length)
    (hfar : ¬ Close segs) : reach (views P segs) offset limit cap = .overflow := by
  obtain ⟨hall, -, -⟩ := bracket_views (P := P) hdates (rowsOf_ne_nil h)
  have hwide : 2 ^ 63 ≤ (bracket (views P segs)).2 - (bracket (views P segs)).1 := by
    by_contra hn
    apply hfar
    intro a ha b hb
    have := hall a ha
    have := hall b hb
    omega
  unfold reach
  rw [← length_walked]
  simp only
  rw [if_neg (by omega), if_neg (by omega), bisect_wide _ _ _ hwide]

/-- Within dates that are close the bisection ends. -/
theorem bisect_close (hdates : Dated segs) (h : offset < (walked (views P segs)).length)
    (hclose : Close segs) : ¬ (bracket (views P segs)).2 < (bracket (views P segs)).1 ∧
      ∃ t, bisect (views P segs) offset 64 (bracket (views P segs)).1 (bracket (views P segs)).2 =
        some t ∧ newer (views P segs) t ≤ offset := by
  obtain ⟨hall, ⟨a, ha, hlow⟩, b, hb, hhigh⟩ := bracket_views (P := P) hdates (rowsOf_ne_nil h)
  have hnewest : newer (views P segs) (bracket (views P segs)).2 = 0 := by
    rw [newer_views, List.countP_eq_zero]
    intro e he
    obtain ⟨v, hv, he⟩ := List.mem_flatMap.mp ((List.mem_insertionSort _).mp he)
    rw [views_eq] at hv
    obtain ⟨s, hs, rfl⟩ := List.mem_map.mp hv
    obtain ⟨i, -, he⟩ := List.mem_filterMap.mp he
    rw [View.opened_entry] at he
    have hmem := (List.mem_insertionSort _).mp (List.mem_of_getElem? he)
    have := hall e (List.mem_flatMap.mpr ⟨s, hs, hmem⟩)
    simp only [decide_eq_true_eq]
    omega
  have hfit : (bracket (views P segs)).2 - (bracket (views P segs)).1 < 2 ^ 63 := by
    rw [← hlow, ← hhigh]
    exact hclose a ha b hb
  have hle := hall a ha
  exact ⟨by omega, bisect_spec (views P segs) offset 63 (le_refl _)
    (bracket (views P segs)).1 (bracket (views P segs)).2 hfit (by omega)⟩

theorem reachExact_close (hdates : Dated segs) (h : offset < (walked (views P segs)).length)
    (hclose : Close segs) (hnd : ((walked (views P segs)).map (·.path)).Nodup) :
    ReachExact P (views P segs) offset limit cap := by
  obtain ⟨hbracket, t, hbisect, habove⟩ := bisect_close (P := P) hdates h hclose
  have hreach : reach (views P segs) offset limit cap =
      if TIE_STEPS < offset - newer (views P segs) t then .walk
      else .page ⟨(((walked (views P segs)).drop offset).take limit).map (Entry.hit P),
        min (walked (views P segs)).length cap, decide (cap ≤ (walked (views P segs)).length)⟩ := by
    unfold reach
    rw [← length_walked]
    simp only
    rw [if_neg (by omega), if_neg hbracket, hbisect]
    simp only
    rw [if_neg (by omega), mergePage_views hnd, List.drop_drop,
      show newer (views P segs) t + (offset - newer (views P segs) t) = offset by omega]
  unfold ReachExact
  rw [hreach]
  split
  · exact ⟨by simp, fun p hp => absurd hp (by simp)⟩
  · refine ⟨by simp, fun p hp => ?_⟩
    rw [← Reach.page.inj hp]
    exact ⟨rfl, Nat.min_comm _ _, by simp⟩

end

/-- A page is the page walked to, for every offset there is a row at, exactly where the dates of the
rows, dead ones too, are less than `2^63` apart. -/
theorem reach_exact_iff (P : Platform) (segs : List (List Entry × Str)) (offset limit cap : Nat)
    (hdates : Dated segs) (hnd : ((walked (views P segs)).map (·.path)).Nodup) :
    ReachExact P (views P segs) offset limit cap ↔
      (walked (views P segs)).length ≤ offset ∨ Close segs := by
  constructor
  · intro hexact
    by_contra hn
    push Not at hn
    exact hexact.1 (reach_wide hdates hn.1 hn.2)
  · rintro (hpast | hclose)
    · exact reachExact_past hpast
    · rcases Nat.lt_or_ge offset (walked (views P segs)).length with h | h
      · exact reachExact_close hdates h hclose hnd
      · exact reachExact_past h

/-! ## Every row live -/

/-- Without a bitmap every row is live. -/
theorem liveEntries_bare (es : List Entry) : (View.opened P (es, [])).liveEntries = es := by
  have hall : ∀ row ∈ List.range (View.opened P (es, [])).seg.rows,
      (View.opened P (es, [])).isAlive row = true := fun _ _ => rfl
  unfold View.liveEntries
  rw [List.filter_eq_self.mpr hall]
  exact buildSorted_table

theorem walked_bare (es : List Entry) : (walked (views P [(es, [])])).Perm es := by
  unfold walked
  refine (List.perm_insertionSort _ _).trans ?_
  rw [views_eq, List.map_singleton, List.flatMap_singleton, liveEntries_bare]
  exact List.perm_insertionSort _ _

/-- The page of the newest two of three files in two segments. -/
theorem reach_exact_iff_two :
    ReachExact .plain (views .plain [([.file "/b", .file "/c"], []), ([.file "/a"], [1])]) 1 2 9 ↔
      (walked (views .plain [([.file "/b", .file "/c"], []), ([.file "/a"], [1])])).length ≤ 1 ∨
        Close [([.file "/b", .file "/c"], []), ([.file "/a"], [1])] :=
  reach_exact_iff .plain _ 1 2 9 (by unfold Dated; decide) (by decide)

theorem rowsOf_singleton (es : List Entry) (alive : Str) : rowsOf [(es, alive)] = es :=
  List.append_nil es

theorem isPath_letters (n : Nat) : isPath (slash :: List.replicate (n + 1) 97) = true := by
  have hletters : ∀ n, noDouble (List.replicate (n + 1) 97) = true := by
    intro n
    induction n with
    | zero => rfl
    | succ n ih =>
      show (!(97 == slash && 97 == slash) && noDouble (List.replicate (n + 1) 97)) = true
      rw [ih]
      rfl
  show (some slash == some slash && (!(slash == slash && 97 == slash) &&
    noDouble (List.replicate (n + 1) 97))) = true
  rw [hletters]
  rfl

/-- Files `/a`, `/aa` and so on, the first as old as a date can be and the others as new. -/
def farFile (i : Nat) : Entry :=
  ⟨0, ⟨slash :: List.replicate (i + 1) 97, isPath_letters i⟩, false,
    { Meta.UNKNOWN with mtime := if i = 0 then -2 ^ 63 else 2 ^ 63 - 1 }⟩

def farFiles (n : Nat) : List Entry := (List.range n).map farFile

theorem nodup_farFiles (n : Nat) : ((farFiles n).map (·.path)).Nodup := by
  unfold farFiles
  rw [List.map_map]
  refine List.Nodup.map (fun i j hij => ?_) List.nodup_range
  have h := congrArg (fun p : Path => p.bytes.length) hij
  show i = j
  simpa [farFile] using h

/-- Deep in a segment of two thousand and one files, one of the oldest date and the others of the
newest, the bisection overflows. -/
theorem not_reach_exact :
    ¬ ∀ (P : Platform) (segs : List (List Entry × Str)) (offset limit cap : Nat),
      Dated segs → ((walked (views P segs)).map (·.path)).Nodup →
        ReachExact P (views P segs) offset limit cap := by
  intro h
  have hrows := rowsOf_singleton (farFiles 2001) []
  have hperm := walked_bare (P := .plain) (farFiles 2001)
  have hdates : Dated [(farFiles 2001, [])] := by
    unfold Dated
    rw [hrows]
    intro e he
    obtain ⟨i, -, rfl⟩ := List.mem_map.mp he
    have hm : (farFile i).info.mtime = if i = 0 then -2 ^ 63 else 2 ^ 63 - 1 := rfl
    rw [hm]
    split <;> decide
  have hlength : 2000 < (walked (views .plain [(farFiles 2001, [])])).length := by
    rw [hperm.length_eq, farFiles, List.length_map, List.length_range]
    decide
  have hfar : ¬ Close [(farFiles 2001, [])] := by
    unfold Close
    rw [hrows]
    intro hclose
    have hmem : ∀ i < 2001, farFile i ∈ farFiles 2001 := fun i hi =>
      List.mem_map.mpr ⟨i, List.mem_range.mpr hi, rfl⟩
    have hlt : (2 ^ 63 - 1 : Int) - (-2 ^ 63) < 2 ^ 63 :=
      hclose _ (hmem 0 (by decide)) _ (hmem 1 (by decide))
    exact absurd hlt (by decide)
  exact (h .plain [(farFiles 2001, [])] 2000 1 1 hdates
    ((hperm.map _).nodup_iff.mpr (nodup_farFiles 2001))).1 (reach_wide hdates hlength hfar)

end Scour
