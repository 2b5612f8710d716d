import Scour.Segment

/-!
# `Live`: an opened segment

Immutable parts and one mutable bitmap.  Every route to a dead row is `kill`, so a segment only
loses rows, and the death count says whether it did.

`entries` is what the segment holds.  Each way of killing is a filter of it: `killPaths` drops the
entries at the wanted identities, whichever of its two strategies it takes (`entries_killPaths`).
`sparePaths` answers with rows that hold the entry asked about, as it is (`sparePaths_sound`).
-/

namespace Scour

/-- An opened segment. -/
structure Live where
  number : Nat
  /-- The reconciliation pass this segment was written during. -/
  generation : Nat
  seg : Segment
  alive : List Bool
  /-- How many rows this segment has lost since it was opened. -/
  deaths : Nat

namespace Live

/-- Check the pieces agree with each other. -/
def assemble (number generation : Nat) (seg : Segment) (alive : List Bool) : Option Live :=
  let order (d : Derived) : Bool := (seg.derived d).all fun rows => rows.length == seg.rows
  -- a short bitmap is not "these rows are dead", and a short order would omit rows
  if alive.length == seg.rows && order .porder && order .norder && order .eorder then
    some { number, generation, seg, alive, deaths := 0 }
  else none

theorem assemble_stamp {number generation : Nat} {seg : Segment} {alive : List Bool} {l : Live}
    (h : assemble number generation seg alive = some l) :
    l.number = number ∧ l.generation = generation := by
  unfold assemble at h
  simp only at h
  split at h
  · rw [← Option.some.inj h]
    exact ⟨rfl, rfl⟩
  · cases h

theorem assemble_seg {number generation : Nat} {seg : Segment} {alive : List Bool} {l : Live}
    (h : assemble number generation seg alive = some l) : l.seg = seg := by
  unfold assemble at h
  simp only at h
  split at h
  · rw [← Option.some.inj h]
  · cases h

/-- A segment kept in memory. -/
def fromBytes (number generation : Nat) (b : SegmentBytes) : Option Live :=
  assemble number generation b.seg b.alive

/-- Everything a write needs, the live bits as they are now. -/
def bytes (l : Live) : SegmentBytes := { seg := l.seg, alive := l.alive }

/-- Take on another copy's live bits and its death count. -/
def adoptAlive (l other : Live) : Live :=
  { l with alive := other.alive, deaths := other.deaths }

def rows (l : Live) : Nat := l.seg.rows

def liveRows (l : Live) : Nat := l.alive.count true

def deadRows (l : Live) : Nat := l.rows - l.liveRows

def isAlive (l : Live) (row : Nat) : Bool := l.alive.getD row false

/-- Clear a row's live bit.  Says whether it was live before. -/
def kill (l : Live) (row : Nat) : Live × Bool :=
  if l.rows ≤ row then (l, false)
  else
    let was := l.isAlive row
    ({ l with alive := l.alive.set row false, deaths := l.deaths + was.toNat }, was)

/-- The loop every caller runs over its victims: the rows are killed, the ones that died counted. -/
def killAll (l : Live) : List Nat → Live × Nat
  | [] => (l, 0)
  | row :: rest =>
      let (l, was) := l.kill row
      let (l, gone) := l.killAll rest
      (l, was.toNat + gone)

/-- Every live entry, in stored order. -/
def entries (l : Live) : List Entry :=
  (List.range l.rows).filterMap fun row => if l.isAlive row then l.seg.entry row else none

/-- An identity to look for, under the key the table is sorted by. -/
abbrev Wanted := UInt32 × SourceId × Str

/-- `usize::ilog2(..).max(1)`: what one probe costs. -/
def probeCost (n : Nat) : Nat := max n.log2 1

/-- Kill the rows holding any of these paths, `wanted` sorted by key. -/
def killPaths (l : Live) (wanted : List Wanted) : Live × Nat :=
  if wanted.isEmpty || l.rows == 0 then (l, 0)
  else
    let ids := l.seg.ids
    let confirmed (pairs : List (Nat × SourceId × Str)) : List Nat :=
      (pairs.filter fun p => l.isAlive p.1 && l.seg.isAt p.1 p.2.1 p.2.2).map (·.1)
    if !ids.isEmpty && wanted.length * probeCost ids.length < ids.length then
      -- a binary search each
      l.killAll (confirmed (wanted.flatMap fun w => (l.seg.rowsFor w.1).map fun row => (row, w.2)))
    else
      -- one walk of the table
      l.killAll (confirmed (Search.mergeJoin ids wanted))

/-- One candidate of `sparePaths`: the entries settled so far and the matches found. -/
def spareStep (l : Live) (staged : List Entry) (acc : List Bool × List (Nat × Nat))
    (pair : Nat × Nat) : List Bool × List (Nat × Nat) :=
  let (row, at_) := pair
  match staged[at_]? with
  | none => acc
  | some e =>
      -- an entry settled by an earlier candidate is not asked again
      if acc.1.getD at_ false || !l.isAlive row then acc
      else if !l.seg.isAt row e.source e.path.bytes then acc
      else (acc.1.set at_ true,
        if l.seg.sameMeta row e.info e.isDir then acc.2 ++ [(at_, row)] else acc.2)

/-- Which of these entries this segment already holds, exactly as they are.  A row this segment
claims sets `decided` whether it matches or not, so an older segment cannot answer for it. -/
def sparePaths (l : Live) (keys : List (UInt32 × Nat)) (staged : List Entry)
    (decided : List Bool) : List Bool × List (Nat × Nat) :=
  let ids := l.seg.ids
  if keys.isEmpty || l.rows == 0 || ids.isEmpty then (decided, [])
  else
    let pairs : List (Nat × Nat) :=
      if keys.length * probeCost ids.length < ids.length then
        (keys.filter fun k => !decided.getD k.2 false).flatMap fun k =>
          (l.seg.rowsFor k.1).map fun row => (row, k.2)
      else (Search.mergeJoin ids keys).filter fun p => !decided.getD p.2 false
    -- in row order
    let pairs := pairs.insertionSort fun p q => p.1 < q.1 ∨ (p.1 = q.1 ∧ p.2 ≤ q.2)
    pairs.foldl (l.spareStep staged) (decided, [])

/-! ## Killing -/

/-- The same segment some kills later: it may only have lost rows, and the death count tells. -/
structure Later (l l' : Live) : Prop where
  number : l'.number = l.number
  generation : l'.generation = l.generation
  seg : l'.seg = l.seg
  length : l'.alive.length = l.alive.length
  alive : ∀ i, l'.isAlive i = true → l.isAlive i = true
  deaths : l.deaths ≤ l'.deaths
  same : l'.deaths = l.deaths → l'.alive = l.alive

theorem Later.refl (l : Live) : l.Later l :=
  ⟨rfl, rfl, rfl, rfl, fun _ h => h, le_refl _, fun _ => rfl⟩

theorem Later.trans {l₁ l₂ l₃ : Live} (h : l₁.Later l₂) (h' : l₂.Later l₃) : l₁.Later l₃ where
  number := h'.number.trans h.number
  generation := h'.generation.trans h.generation
  seg := h'.seg.trans h.seg
  length := h'.length.trans h.length
  alive i hi := h.alive i (h'.alive i hi)
  deaths := h.deaths.trans h'.deaths
  same heq := by
    have h1 := h.deaths
    have h2 := h'.deaths
    rw [h'.same (by omega), h.same (by omega)]

theorem kill_isAlive (l : Live) (hl : l.alive.length ≤ l.rows) (row i : Nat) :
    (l.kill row).1.isAlive i = (l.isAlive i && !decide (i = row)) := by
  unfold kill
  by_cases h : l.rows ≤ row
  · simp only [if_pos h]
    by_cases hi : i = row
    · subst hi
      simp [isAlive, List.getD_eq_getElem?_getD, List.getElem?_eq_none_iff.mpr (hl.trans h)]
    · simp [hi]
  · simp only [if_neg h, isAlive, List.getD_eq_getElem?_getD, List.getElem?_set]
    by_cases hi : i = row
    · subst hi
      by_cases hlt : i < l.alive.length <;> simp [hlt]
    · simp [hi, Ne.symm hi]

theorem kill_later (l : Live) (hl : l.alive.length ≤ l.rows) (row : Nat) :
    l.Later (l.kill row).1 where
  number := by unfold kill; split <;> rfl
  generation := by unfold kill; split <;> rfl
  seg := by unfold kill; split <;> rfl
  length := by unfold kill; split <;> simp
  alive i hi := by
    rw [kill_isAlive l hl, Bool.and_eq_true] at hi
    exact hi.1
  deaths := by unfold kill; split <;> simp
  same := by
    unfold kill
    split
    · exact fun _ => rfl
    · rename_i h
      intro hd
      have hdead : l.isAlive row = false := by
        cases hb : l.isAlive row
        · rfl
        · simp [hb] at hd
      apply List.ext_getElem?
      intro i
      simp only [List.getElem?_set]
      by_cases hi : row = i
      · subst hi
        by_cases hlt : row < l.alive.length
        · simp only [isAlive, List.getD_eq_getElem?_getD, List.getElem?_eq_getElem hlt,
            Option.getD_some] at hdead
          simp [hlt, hdead]
        · simp [hlt]
      · simp [hi]

@[simp] theorem kill_rows (l : Live) (row : Nat) : (l.kill row).1.rows = l.rows := by
  unfold kill
  split <;> rfl

theorem killAll_later (victims : List Nat) :
    ∀ l : Live, l.alive.length ≤ l.rows → l.Later (l.killAll victims).1 := by
  induction victims with
  | nil => exact fun l _ => Later.refl l
  | cons row rest ih =>
    intro l hl
    have h1 := kill_later l hl row
    exact h1.trans (ih _ (by rw [h1.length, kill_rows]; exact hl))

theorem killAll_isAlive (victims : List Nat) (i : Nat) :
    ∀ l : Live, l.alive.length ≤ l.rows →
      (l.killAll victims).1.isAlive i = (l.isAlive i && !decide (i ∈ victims)) := by
  induction victims with
  | nil => simp [killAll]
  | cons row rest ih =>
    intro l hl
    have h1 := ih (l.kill row).1 (by rw [(kill_later l hl row).length, kill_rows]; exact hl)
    simp only [killAll]
    rw [h1, kill_isAlive l hl]
    by_cases h : i = row <;> simp [h]

/-- The death count moves by what the loop returns. -/
theorem killAll_deaths (victims : List Nat) :
    ∀ l : Live, (l.killAll victims).1.deaths = l.deaths + (l.killAll victims).2 := by
  induction victims with
  | nil => exact fun l => rfl
  | cons row rest ih =>
    intro l
    simp only [killAll]
    rw [ih]
    unfold kill
    split
    · simp
    · simp only
      omega

theorem kill_liveRows (l : Live) (row : Nat) :
    (l.kill row).1.liveRows + (l.kill row).2.toNat = l.liveRows := by
  unfold kill
  split
  · simp
  · simp only [liveRows, isAlive]
    by_cases hlt : row < l.alive.length
    · have hpos : l.alive[row] = true → 0 < l.alive.count true := fun h =>
        List.count_pos_iff.mpr (h ▸ List.getElem_mem hlt)
      rw [List.count_set hlt, List.getD_eq_getElem?_getD, List.getElem?_eq_getElem hlt]
      cases hb : l.alive[row]
      · simp
      · have := hpos hb
        simp only [beq_self_eq_true, if_true, Option.getD_some, Bool.toNat_true]
        simp only [Bool.false_eq_true, beq_iff_eq, if_false]
        omega
    · rw [List.set_eq_of_length_le (Nat.le_of_not_lt hlt), List.getD_eq_getElem?_getD,
        List.getElem?_eq_none_iff.mpr (Nat.le_of_not_lt hlt)]
      simp

/-- The loop returns how many live bits it cleared. -/
theorem killAll_liveRows (victims : List Nat) :
    ∀ l : Live, (l.killAll victims).1.liveRows + (l.killAll victims).2 = l.liveRows := by
  induction victims with
  | nil => exact fun l => rfl
  | cons row rest ih =>
    intro l
    have h1 := kill_liveRows l row
    have h2 := ih (l.kill row).1
    simp only [killAll]
    omega

/-- Nothing died: nothing changed. -/
theorem killAll_eq_self (victims : List Nat) :
    ∀ l : Live, l.alive.length ≤ l.rows → (l.killAll victims).2 = 0 →
      (l.killAll victims).1 = l := by
  intro l hl h0
  have h := killAll_later victims l hl
  have hd := killAll_deaths victims l
  have ha := h.same (by omega)
  have hn := h.number
  have hg := h.generation
  have hs := h.seg
  cases hk : (l.killAll victims).1
  cases l
  simp_all

/-! ## What a segment holds -/

/-- A segment as `build` left it, with some bitmap over its rows. -/
def Ok (l : Live) : Prop :=
  ∃ es, l.seg = (buildSorted es).seg ∧ l.alive.length = es.length

theorem Later.ok {l l' : Live} (h : l.Later l') (hl : l.Ok) : l'.Ok := by
  obtain ⟨es, h1, h2⟩ := hl
  exact ⟨es, h.seg.trans h1, h.length.trans h2⟩

theorem Ok.length_le {l : Live} (hl : l.Ok) : l.alive.length ≤ l.rows := by
  obtain ⟨es, h1, h2⟩ := hl
  rw [Live.rows, h1, buildSorted_rows, h2]

theorem entries_congr {l l' : Live} (hs : l'.seg = l.seg) (ha : l'.alive = l.alive) :
    l'.entries = l.entries := by
  unfold entries rows isAlive
  rw [hs, ha]

theorem mem_entries_iff (l : Live) (hl : l.Ok) (e : Entry) :
    e ∈ l.entries ↔ ∃ row, l.isAlive row = true ∧ l.seg.entry row = some e := by
  obtain ⟨es, h1, h2⟩ := hl
  unfold entries
  rw [List.mem_filterMap]
  constructor
  · rintro ⟨row, -, h⟩
    split at h
    · rename_i ha
      exact ⟨row, ha, h⟩
    · cases h
  · rintro ⟨row, ha, he⟩
    refine ⟨row, ?_, by rw [if_pos ha, he]⟩
    rw [List.mem_range, Live.rows, h1, buildSorted_rows]
    rw [h1, buildSorted_entry_eq] at he
    exact (List.getElem?_eq_some_iff.mp he).1

/-- Killing the rows that hold what `p` picks is filtering it out. -/
theorem entries_killAll (l : Live) (hl : l.Ok) (victims : List Nat) (p : Entry → Bool)
    (hp : ∀ row e, l.isAlive row = true → l.seg.entry row = some e → (row ∈ victims ↔ p e = true)) :
    (l.killAll victims).1.entries = l.entries.filter fun e => !p e := by
  have hseg := (killAll_later victims l hl.length_le).seg
  have halive := fun row => killAll_isAlive victims row l hl.length_le
  generalize (l.killAll victims).1 = l' at hseg halive
  unfold entries
  rw [List.filter_filterMap]
  have hrows : l'.rows = l.rows := by unfold Live.rows; rw [hseg]
  rw [hrows, hseg]
  apply List.filterMap_congr
  intro row _
  rw [halive]
  cases ha : l.isAlive row with
  | false => simp
  | true =>
    cases he : l.seg.entry row with
    | none => simp
    | some e =>
      by_cases hv : row ∈ victims
      · have := (hp row e ha he).mp hv
        simp [hv, Option.filter, this]
      · have : p e = false := by
          rw [← Bool.not_eq_true]
          exact fun h => hv ((hp row e ha he).mpr h)
        simp [hv, Option.filter, this]

/-! ## By identity -/

/-- Is this entry at one of the identities? -/
def isWanted (wanted : List Wanted) (e : Entry) : Bool :=
  wanted.any fun w => w.2.1 == e.source && w.2.2 == e.path.bytes

/-- Every identity is a path, under its own key, and the list is sorted by it. -/
def Keyed (wanted : List Wanted) : Prop :=
  Search.ByKey wanted ∧ ∀ w ∈ wanted, w.1 = keyOf w.2.1 w.2.2 ∧ isPath w.2.2 = true

theorem isAt_iff {l : Live} (hl : l.Ok) {row : Nat} {e : Entry} (he : l.seg.entry row = some e)
    (source : SourceId) (q : Str) (hq : isPath q = true) :
    l.seg.isAt row source q = true ↔ source = e.source ∧ q = e.path.bytes := by
  obtain ⟨es, h1, -⟩ := hl
  rw [h1, buildSorted_entry_eq] at he
  have := buildSorted_isAt he source ⟨q, hq⟩
  rw [h1, this]
  constructor
  · rintro ⟨rfl, h⟩
    exact ⟨rfl, by rw [h]⟩
  · rintro ⟨rfl, h⟩
    refine ⟨rfl, ?_⟩
    cases hp : e.path
    simp only [hp] at h
    subst h
    rfl

/-- The identity table knows every row, under the key of its entry. -/
theorem mem_ids_iff {l : Live} (hl : l.Ok) (k : UInt32) (row : Nat) :
    (k, row) ∈ l.seg.ids ↔
      ∃ e, l.seg.entry row = some e ∧ keyOf e.source e.path.bytes = k := by
  obtain ⟨es, h1, -⟩ := hl
  rw [h1]
  show (k, row) ∈ writeIds es ↔ _
  rw [mem_writeIds]
  simp only [buildSorted_entry_eq]

theorem ids_byKey {l : Live} (hl : l.Ok) : Search.ByKey l.seg.ids := by
  obtain ⟨es, h1, -⟩ := hl
  rw [h1]
  exact writeIds_byKey es

/-- The rows a lookup confirms are the live ones at a wanted identity. -/
theorem mem_confirmed_iff {l : Live} (hl : l.Ok) (wanted : List Wanted) (hw : Keyed wanted)
    (pairs : List (Nat × SourceId × Str))
    (hpairs : ∀ row s q, (row, s, q) ∈ pairs ↔ ∃ k, (k, row) ∈ l.seg.ids ∧ (k, s, q) ∈ wanted)
    {row : Nat} {e : Entry} (ha : l.isAlive row = true) (he : l.seg.entry row = some e) :
    row ∈ (pairs.filter fun p => l.isAlive p.1 && l.seg.isAt p.1 p.2.1 p.2.2).map (·.1) ↔
      isWanted wanted e = true := by
  simp only [List.mem_map, List.mem_filter, Bool.and_eq_true, Prod.exists, exists_and_right,
    exists_eq_right, isWanted, List.any_eq_true, beq_iff_eq]
  constructor
  · rintro ⟨s, q, hm, -, hat⟩
    obtain ⟨k, -, hk⟩ := (hpairs row s q).mp hm
    obtain ⟨h1, h2⟩ := (isAt_iff hl he s q (hw.2 _ hk).2).mp hat
    exact ⟨k, s, q, hk, h1, h2⟩
  · rintro ⟨k, s, q, hk, rfl, rfl⟩
    obtain ⟨hkey, hpath⟩ := hw.2 _ hk
    refine ⟨e.source, e.path.bytes, ?_, ha, (isAt_iff hl he _ _ hpath).mpr ⟨rfl, rfl⟩⟩
    exact (hpairs row _ _).mpr ⟨k, (mem_ids_iff hl k row).mpr ⟨e, he, hkey.symm⟩, hk⟩

/-- Either way of looking them up, the live victims are the rows at a wanted identity. -/
theorem killPaths_victims (l : Live) (hl : l.Ok) (wanted : List Wanted) (hw : Keyed wanted) :
    ∃ victims, l.killPaths wanted = l.killAll victims ∧
      ∀ row e, l.isAlive row = true → l.seg.entry row = some e →
        (row ∈ victims ↔ isWanted wanted e = true) := by
  unfold killPaths
  split
  · rename_i h
    rw [Bool.or_eq_true, beq_iff_eq, List.isEmpty_iff] at h
    refine ⟨[], rfl, fun row e _ he => ?_⟩
    rcases h with rfl | h
    · simp [isWanted]
    · obtain ⟨es, h1, -⟩ := hl
      rw [rows, h1, buildSorted_rows, List.length_eq_zero_iff] at h
      rw [h1, buildSorted_entry_eq, h] at he
      cases he
  · simp only
    split
    · refine ⟨_, rfl, fun row e ha he => ?_⟩
      refine mem_confirmed_iff hl wanted hw _ (fun row s q => ?_) ha he
      simp only [List.mem_flatMap, List.mem_map, Prod.mk.injEq, mem_rowsFor_iff _ (ids_byKey hl),
        Prod.exists]
      constructor
      · rintro ⟨k, s', q', h1, r', h2, rfl, rfl, rfl⟩
        exact ⟨k, h2, h1⟩
      · rintro ⟨k, h2, h1⟩
        exact ⟨k, s, q, h1, row, h2, rfl, rfl, rfl⟩
    · refine ⟨_, rfl, fun row e ha he => ?_⟩
      refine mem_confirmed_iff hl wanted hw _ (fun row s q => ?_) ha he
      exact Search.mem_mergeJoin_iff _ _ (ids_byKey hl) hw.1 _ _

/-- The wanted identities are gone and nothing else is. -/
theorem entries_killPaths (l : Live) (hl : l.Ok) (wanted : List Wanted) (hw : Keyed wanted) :
    (l.killPaths wanted).1.entries = l.entries.filter fun e => !isWanted wanted e := by
  obtain ⟨victims, h, hv⟩ := killPaths_victims l hl wanted hw
  rw [h]
  exact entries_killAll l hl victims _ hv

theorem killPaths_later (l : Live) (hl : l.Ok) (wanted : List Wanted) :
    l.Later (l.killPaths wanted).1 := by
  unfold killPaths
  split
  · exact Later.refl l
  · simp only
    split <;> exact killAll_later _ l hl.length_le

theorem killPaths_eq_self (l : Live) (hl : l.Ok) (wanted : List Wanted)
    (h : (l.killPaths wanted).2 = 0) : (l.killPaths wanted).1 = l := by
  unfold killPaths at h ⊢
  split at h <;> rename_i hc
  · simp [hc]
  · simp only [hc] at h ⊢
    simp only [Bool.false_eq_true, if_false] at h ⊢
    split at h <;> rename_i hs
    · rw [if_pos hs]
      exact killAll_eq_self _ l hl.length_le h
    · rw [if_neg hs]
      exact killAll_eq_self _ l hl.length_le h

/-! ## What is unchanged -/

theorem spareStep_sound (l : Live) (staged : List Entry) (good : Nat × Nat → Prop)
    (hgood : ∀ row at_ e, staged[at_]? = some e → l.isAlive row = true →
      l.seg.isAt row e.source e.path.bytes = true → l.seg.sameMeta row e.info e.isDir = true →
      good (at_, row))
    (acc : List Bool × List (Nat × Nat)) (pair : Nat × Nat) (h : ∀ hit ∈ acc.2, good hit) :
    ∀ hit ∈ (l.spareStep staged acc pair).2, good hit := by
  obtain ⟨row, at_⟩ := pair
  unfold spareStep
  simp only
  split
  · exact h
  · rename_i e he
    split
    · exact h
    · rename_i h1
      split
      · exact h
      · rename_i h2
        simp only
        split
        · rename_i h3
          intro hit hm
          rcases List.mem_append.mp hm with hm | hm
          · exact h hit hm
          · rw [List.mem_singleton.mp hm]
            simp only [Bool.or_eq_true, Bool.not_eq_true', not_or] at h1
            exact hgood row at_ e he (by simpa using h1.2) (by simpa using h2) h3
        · exact h

/-- A match is a live row that holds the entry it answers for, as it is. -/
theorem sparePaths_sound (l : Live) (hl : l.Ok) (keys : List (UInt32 × Nat)) (staged : List Entry)
    (decided : List Bool) (at_ row : Nat) (h : (at_, row) ∈ (l.sparePaths keys staged decided).2) :
    ∃ e r, staged[at_]? = some e ∧ l.isAlive row = true ∧ l.seg.entry row = some r ∧
      r.key = e.key ∧ l.seg.sameMeta row e.info e.isDir = true := by
  let good : Nat × Nat → Prop := fun hit => ∃ e, staged[hit.1]? = some e ∧
    l.isAlive hit.2 = true ∧ l.seg.isAt hit.2 e.source e.path.bytes = true ∧
    l.seg.sameMeta hit.2 e.info e.isDir = true
  have hfold : ∀ (pairs : List (Nat × Nat)) (acc : List Bool × List (Nat × Nat)),
      (∀ hit ∈ acc.2, good hit) → ∀ hit ∈ (pairs.foldl (l.spareStep staged) acc).2, good hit := by
    intro pairs
    induction pairs with
    | nil => exact fun acc h => h
    | cons p pairs ih =>
      intro acc h
      exact ih _ (spareStep_sound l staged good
        (fun row at_ e h1 h2 h3 h4 => ⟨e, h1, h2, h3, h4⟩) acc p h)
  have hg : good (at_, row) := by
    unfold sparePaths at h
    simp only at h
    split at h
    · cases h
    · exact hfold _ _ (by simp) _ h
  obtain ⟨e, he, ha, hat, hs⟩ := hg
  -- a live row is one of the rows the segment was built from
  have hrow : ∃ r, l.seg.entry row = some r := by
    obtain ⟨es, h1, h2⟩ := hl
    have hlt : row < l.alive.length := by
      by_contra hge
      simp [isAlive, List.getD_eq_getElem?_getD, List.getElem?_eq_none_iff.mpr (Nat.le_of_not_lt hge)]
        at ha
    rw [h1, buildSorted_entry_eq, List.getElem?_eq_getElem (h2 ▸ hlt)]
    exact ⟨_, rfl⟩
  obtain ⟨r, hr⟩ := hrow
  obtain ⟨h1, h2⟩ := (isAt_iff hl hr _ _ e.path.ok).mp hat
  refine ⟨e, r, he, ha, hr, ?_, hs⟩
  unfold Entry.key
  rw [h1]
  congr 1
  cases hp : e.path
  cases hp' : r.path
  simp only [hp, hp'] at h2
  subst h2
  rfl

end Live

end Scour
