import Scour.Live

/-!
# Killing and sparing rows by the paths they hold

A batch of paths meets a segment in its identity table, by one walk of the table or by a probe a
path, and every candidate is confirmed against the path its row holds.  `killPaths` clears exactly
the live rows at a wanted path (`killPaths_isAlive`) and counts them (`killPaths_liveRows`).
`sparePaths` settles exactly the entries that have a live row here (`spared_decided`) and answers
with the rows that still say what the entry says (`mem_spared_iff`).

`same_meta` reads six columns and the kind of the row: a row last read at another time is the same
row.
-/

namespace Scour

namespace Live

/-- The live row `row` holds this path of this source. -/
def Holds (l : Live) (row : Nat) (source : SourceId) (path : Str) : Prop :=
  l.isAlive row = true ∧ ∃ r, l.seg.entry row = some r ∧ r.source = source ∧ r.path.bytes = path

/-- No two live rows hold one path of one source. -/
def Distinct (l : Live) : Prop :=
  ∀ i j source path, l.Holds i source path → l.Holds j source path → i = j

/-- Staged entries to ask for: each under the key of its path, the list sorted by it. -/
def Batch (staged : List Entry) (keys : List (UInt32 × Nat)) : Prop :=
  Search.ByKey keys ∧ ∀ k ∈ keys, ∃ e, staged[k.2]? = some e ∧ k.1 = keyOf e.source e.path.bytes

/-- The batch asks for `e`, the staged entry at `at_`. -/
def Asks (staged : List Entry) (keys : List (UInt32 × Nat)) (at_ : Nat) (e : Entry) : Prop :=
  staged[at_]? = some e ∧ ∃ k, (k, at_) ∈ keys

/-- What `same_meta` compares. -/
def Unmoved (r e : Entry) : Prop :=
  r.info.size = e.info.size ∧ r.info.mtime = e.info.mtime ∧ r.info.ctime = e.info.ctime ∧
    r.info.mode = e.info.mode ∧ r.info.uid = e.info.uid ∧ r.info.gid = e.info.gid ∧
    r.isDir = e.isDir

theorem exists_entry {l : Live} (hl : l.Ok) {row : Nat} (ha : l.isAlive row = true) :
    ∃ r, l.seg.entry row = some r := by
  obtain ⟨es, h1, h2⟩ := hl
  have hlt : row < l.alive.length := by
    by_contra hge
    have hnone := List.getElem?_eq_none_iff.mpr (Nat.le_of_not_lt hge)
    rw [isAlive, List.getD_eq_getElem?_getD, hnone] at ha
    cases ha
  rw [h1, buildSorted_entry_eq, List.getElem?_eq_getElem (h2 ▸ hlt)]
  exact ⟨_, rfl⟩

theorem isAt_iff_holds {l : Live} (hl : l.Ok) {row : Nat} (ha : l.isAlive row = true)
    (source : SourceId) (q : Str) (hq : isPath q = true) :
    l.seg.isAt row source q = true ↔ l.Holds row source q := by
  obtain ⟨r, hr⟩ := exists_entry hl ha
  rw [isAt_iff hl hr source q hq]
  constructor
  · rintro ⟨h1, h2⟩
    exact ⟨ha, r, hr, h1.symm, h2.symm⟩
  · rintro ⟨-, r', hr', h1, h2⟩
    rw [hr] at hr'
    cases hr'
    exact ⟨h1.symm, h2.symm⟩

theorem sameMeta_iff {s : Segment} {row : Nat} {r : Entry} (hr : s.entry row = some r)
    (e : Entry) : s.sameMeta row e.info e.isDir = true ↔ Unmoved r e := by
  unfold Segment.entry at hr
  split at hr
  · cases hr
  · split at hr
    · cases hr
      simp [Segment.sameMeta, Unmoved, Segment.infoOf, and_assoc]
    · cases hr

/-! ## Killing -/

theorem isWanted_iff_holds {l : Live} {row : Nat} {r : Entry} (ha : l.isAlive row = true)
    (hr : l.seg.entry row = some r) (wanted : List Wanted) :
    isWanted wanted r = true ↔ ∃ w ∈ wanted, l.Holds row w.2.1 w.2.2 := by
  simp only [isWanted, List.any_eq_true, Bool.and_eq_true, beq_iff_eq]
  constructor
  · rintro ⟨w, hw, h1, h2⟩
    exact ⟨w, hw, ha, r, hr, h1.symm, h2.symm⟩
  · rintro ⟨w, hw, -, r', hr', h1, h2⟩
    rw [hr] at hr'
    cases hr'
    exact ⟨w, hw, h1.symm, h2.symm⟩

/-- Exactly the live rows at a wanted path die. -/
theorem killPaths_isAlive (l : Live) (hl : l.Ok) (wanted : List Wanted) (hw : Keyed wanted)
    (row : Nat) :
    (l.killPaths wanted).1.isAlive row = true ↔
      l.isAlive row = true ∧ ¬ ∃ w ∈ wanted, l.Holds row w.2.1 w.2.2 := by
  obtain ⟨victims, h, hv⟩ := killPaths_victims l hl wanted hw
  rw [h, killAll_isAlive victims row l hl.length_le, Bool.and_eq_true]
  refine and_congr_right fun ha => ?_
  obtain ⟨r, hr⟩ := exists_entry hl ha
  rw [← isWanted_iff_holds ha hr, ← hv row r ha hr]
  simp

theorem killPaths_liveRows (l : Live) (hl : l.Ok) (wanted : List Wanted) (hw : Keyed wanted) :
    (l.killPaths wanted).1.liveRows + (l.killPaths wanted).2 = l.liveRows := by
  obtain ⟨victims, h, -⟩ := killPaths_victims l hl wanted hw
  rw [h]
  exact killAll_liveRows victims l

/-! ## Sparing -/

/-- A candidate that is confirmed: the row is live and at the path of the staged entry. -/
def Confirmed (l : Live) (staged : List Entry) (pair : Nat × Nat) (e : Entry) : Prop :=
  staged[pair.2]? = some e ∧ l.isAlive pair.1 = true ∧
    l.seg.isAt pair.1 e.source e.path.bytes = true

/-- One candidate: an entry not settled yet is settled by a confirmed row, anything else is passed
over. -/
theorem spareStep_cases (l : Live) (staged : List Entry) (acc : List Bool × List (Nat × Nat))
    (pair : Nat × Nat) :
    (l.spareStep staged acc pair = acc ∧
      ∀ e, acc.1.getD pair.2 false = false → ¬ l.Confirmed staged pair e) ∨
    ∃ e, acc.1.getD pair.2 false = false ∧ l.Confirmed staged pair e ∧
      l.spareStep staged acc pair = (acc.1.set pair.2 true,
        if l.seg.sameMeta pair.1 e.info e.isDir then acc.2 ++ [(pair.2, pair.1)] else acc.2) := by
  obtain ⟨row, at_⟩ := pair
  unfold spareStep Confirmed
  dsimp only
  cases he : staged[at_]? with
  | none => exact Or.inl ⟨rfl, fun e _ h => by cases h.1⟩
  | some e =>
    dsimp only
    by_cases h1 : (acc.1.getD at_ false || !l.isAlive row) = true
    · rw [if_pos h1]
      refine Or.inl ⟨rfl, fun e' hd h => ?_⟩
      rw [hd, h.2.1] at h1
      cases h1
    · rw [if_neg h1]
      obtain ⟨hd, ha⟩ : acc.1.getD at_ false = false ∧ l.isAlive row = true := by simpa using h1
      by_cases h2 : l.seg.isAt row e.source e.path.bytes = true
      · rw [if_neg (by simp [h2])]
        exact Or.inr ⟨e, hd, ⟨rfl, ha, h2⟩, rfl⟩
      · rw [if_pos (by simpa using h2)]
        refine Or.inl ⟨rfl, fun e' _ h => h2 ?_⟩
        cases h.1
        exact h.2.2

theorem getD_set_true {decided : List Bool} {at' : Nat} (h : at' < decided.length) (at_ : Nat) :
    (decided.set at' true).getD at_ false = true ↔ decided.getD at_ false = true ∨ at_ = at' := by
  rw [List.getD_eq_getElem?_getD, List.getElem?_set]
  by_cases heq : at' = at_
  · subst heq
    simp [h]
  · simp [heq, Ne.symm heq, List.getD_eq_getElem?_getD]

/-- The candidates one after the other settle what one of them confirms. -/
theorem foldl_spareStep_decided (l : Live) (staged : List Entry) (at_ : Nat)
    (pairs : List (Nat × Nat)) :
    ∀ acc : List Bool × List (Nat × Nat), acc.1.length = staged.length →
      ((pairs.foldl (l.spareStep staged) acc).1.getD at_ false = true ↔
        acc.1.getD at_ false = true ∨ ∃ row e, (row, at_) ∈ pairs ∧ l.Confirmed staged (row, at_) e) := by
  induction pairs with
  | nil => simp
  | cons p pairs ih =>
    intro acc hlen
    obtain ⟨row, at'⟩ := p
    rw [List.foldl_cons]
    rcases spareStep_cases l staged acc (row, at') with ⟨hs, hno⟩ | ⟨e, hd, hc, hs⟩
    · rw [hs, ih acc hlen]
      constructor
      · rintro (h | ⟨r, e, hm, hc⟩)
        · exact Or.inl h
        · exact Or.inr ⟨r, e, List.mem_cons_of_mem _ hm, hc⟩
      · rintro (h | ⟨r, e, hm, hc⟩)
        · exact Or.inl h
        · rcases List.mem_cons.mp hm with heq | hm
          · cases heq
            left
            by_contra hf
            exact hno e (by simpa using hf) hc
          · exact Or.inr ⟨r, e, hm, hc⟩
    · have hlt : at' < acc.1.length := hlen ▸ (List.getElem?_eq_some_iff.mp hc.1).1
      rw [hs, ih _ (by simpa using hlen)]
      rw [getD_set_true hlt]
      constructor
      · rintro ((h | rfl) | ⟨r, e', hm, hc'⟩)
        · exact Or.inl h
        · exact Or.inr ⟨row, e, List.mem_cons_self, hc⟩
        · exact Or.inr ⟨r, e', List.mem_cons_of_mem _ hm, hc'⟩
      · rintro (h | ⟨r, e', hm, hc'⟩)
        · exact Or.inl (Or.inl h)
        · rcases List.mem_cons.mp hm with heq | hm
          · cases heq
            exact Or.inl (Or.inr rfl)
          · exact Or.inr ⟨r, e', hm, hc'⟩

/-- What the candidates answer with: the confirmed rows that are the same, of the entries that were
not settled before. -/
theorem mem_foldl_spareStep_iff (l : Live) (staged : List Entry)
    (hone : ∀ i j at_ e, l.Confirmed staged (i, at_) e → l.Confirmed staged (j, at_) e → i = j)
    (at_ row : Nat) (pairs : List (Nat × Nat)) :
    ∀ acc : List Bool × List (Nat × Nat), acc.1.length = staged.length →
      ((at_, row) ∈ (pairs.foldl (l.spareStep staged) acc).2 ↔
        (at_, row) ∈ acc.2 ∨ acc.1.getD at_ false = false ∧ (row, at_) ∈ pairs ∧
          ∃ e, l.Confirmed staged (row, at_) e ∧ l.seg.sameMeta row e.info e.isDir = true) := by
  induction pairs with
  | nil => simp
  | cons p pairs ih =>
    intro acc hlen
    obtain ⟨row', at'⟩ := p
    rw [List.foldl_cons]
    rcases spareStep_cases l staged acc (row', at') with ⟨hs, hno⟩ | ⟨e, hd, hc, hs⟩
    · rw [hs, ih acc hlen]
      refine or_congr_right (and_congr_right fun hd => ?_)
      constructor
      · rintro ⟨hm, h⟩
        exact ⟨List.mem_cons_of_mem _ hm, h⟩
      · rintro ⟨hm, e, hc, h⟩
        rcases List.mem_cons.mp hm with heq | hm
        · cases heq
          exact absurd hc (hno e hd)
        · exact ⟨hm, e, hc, h⟩
    · have hlt : at' < acc.1.length := hlen ▸ (List.getElem?_eq_some_iff.mp hc.1).1
      rw [hs, ih _ (by simpa using hlen)]
      have hset := getD_set_true hlt at_
      have hout : (at_, row) ∈ (if l.seg.sameMeta row' e.info e.isDir then acc.2 ++ [(at', row')]
          else acc.2) ↔ (at_, row) ∈ acc.2 ∨
            (at_ = at' ∧ row = row' ∧ l.seg.sameMeta row' e.info e.isDir = true) := by
        split <;> rename_i hsame <;> simp [hsame]
      dsimp only
      rw [hout]
      constructor
      · rintro ((h | ⟨rfl, rfl, h⟩) | ⟨hn, hm, h⟩)
        · exact Or.inl h
        · exact Or.inr ⟨hd, List.mem_cons_self, e, hc, h⟩
        · refine Or.inr ⟨?_, List.mem_cons_of_mem _ hm, h⟩
          by_contra hne
          rw [Bool.not_eq_false] at hne
          rw [hset.mpr (Or.inl hne)] at hn
          cases hn
      · rintro (h | ⟨hn, hm, e', hc', h⟩)
        · exact Or.inl (Or.inl h)
        · by_cases heq : at_ = at'
          · -- the entry this candidate settles: the other row is this one
            subst heq
            have he : e' = e := Option.some.inj (hc'.1.symm.trans hc.1)
            subst he
            have hrow := hone row row' at_ e' hc' hc
            subst hrow
            exact Or.inl (Or.inr ⟨rfl, rfl, h⟩)
          · have hm' : (row, at_) ∈ pairs := by
              rcases List.mem_cons.mp hm with h' | h'
              · cases h'
                exact absurd rfl heq
              · exact h'
            refine Or.inr ⟨?_, hm', e', hc', h⟩
            by_contra hne
            rcases hset.mp ((Bool.not_eq_false _).mp hne) with h1 | h1
            · rw [h1] at hn
              cases hn
            · exact heq h1

/-- An entry is answered for once. -/
theorem nodup_foldl_spareStep (l : Live) (staged : List Entry) (pairs : List (Nat × Nat)) :
    ∀ acc : List Bool × List (Nat × Nat), acc.1.length = staged.length →
      (acc.2.map (·.1)).Nodup → (∀ hit ∈ acc.2, acc.1.getD hit.1 false = true) →
      ((pairs.foldl (l.spareStep staged) acc).2.map (·.1)).Nodup := by
  induction pairs with
  | nil => exact fun _ _ h _ => h
  | cons p pairs ih =>
    intro acc hlen hnd hset
    rw [List.foldl_cons]
    rcases spareStep_cases l staged acc p with ⟨hs, -⟩ | ⟨e, hd, hc, hs⟩
    · rw [hs]
      exact ih acc hlen hnd hset
    · have hlt : p.2 < acc.1.length := hlen ▸ (List.getElem?_eq_some_iff.mp hc.1).1
      have hkeep : ∀ hit ∈ acc.2, (acc.1.set p.2 true).getD hit.1 false = true :=
        fun hit hm => (getD_set_true hlt hit.1).mpr (Or.inl (hset hit hm))
      rw [hs]
      refine ih _ (by simpa using hlen) ?_ ?_ <;> dsimp only <;> split
      · rw [List.map_append, List.nodup_append]
        refine ⟨hnd, List.nodup_singleton _, ?_⟩
        rintro a ha b hb rfl
        obtain ⟨hit, hm, rfl⟩ := List.mem_map.mp ha
        rw [List.map_singleton, List.mem_singleton] at hb
        have hdone := hset hit hm
        rw [hb, hd] at hdone
        cases hdone
      · exact hnd
      · intro hit hm
        rcases List.mem_append.mp hm with hm | hm
        · exact hkeep hit hm
        · rw [List.mem_singleton.mp hm]
          exact (getD_set_true hlt p.2).mpr (Or.inr rfl)
      · exact hkeep

/-- Either way of looking them up, the candidates are the rows under a key of the batch whose entry
is not settled. -/
theorem sparePaths_pairs (l : Live) (hl : l.Ok) (keys : List (UInt32 × Nat)) (staged : List Entry)
    (decided : List Bool) (hk : Search.ByKey keys) :
    ∃ pairs : List (Nat × Nat),
      l.sparePaths keys staged decided = pairs.foldl (l.spareStep staged) (decided, []) ∧
      ∀ row at_, (row, at_) ∈ pairs ↔
        decided.getD at_ false = false ∧ ∃ k, (k, row) ∈ l.seg.ids ∧ (k, at_) ∈ keys := by
  unfold sparePaths
  dsimp only
  split
  · rename_i h
    refine ⟨[], rfl, fun row at_ => ?_⟩
    rw [Bool.or_eq_true, Bool.or_eq_true, beq_iff_eq, List.isEmpty_iff, List.isEmpty_iff] at h
    have hnone : ¬ ∃ k, (k, row) ∈ l.seg.ids ∧ (k, at_) ∈ keys := by
      rintro ⟨k, h1, h2⟩
      rcases h with (rfl | h) | h
      · cases h2
      · obtain ⟨e, he, -⟩ := (mem_ids_iff hl k row).mp h1
        obtain ⟨es, hs, -⟩ := hl
        rw [rows, hs, buildSorted_rows, List.length_eq_zero_iff] at h
        rw [hs, buildSorted_entry_eq, h] at he
        cases he
      · rw [h] at h1
        cases h1
    simp [hnone]
  · refine ⟨_, rfl, fun row at_ => ?_⟩
    rw [(List.perm_insertionSort _ _).mem_iff]
    split
    · simp only [List.mem_flatMap, List.mem_filter, List.mem_map, Prod.mk.injEq,
        mem_rowsFor_iff _ (ids_byKey hl), Prod.exists, Bool.not_eq_true']
      constructor
      · rintro ⟨k, at', ⟨h1, h2⟩, r, h3, rfl, rfl⟩
        exact ⟨h2, k, h3, h1⟩
      · rintro ⟨h2, k, h3, h1⟩
        exact ⟨k, at_, ⟨h1, h2⟩, row, h3, rfl, rfl⟩
    · rw [List.mem_filter, Search.mem_mergeJoin_iff _ _ (ids_byKey hl) hk, and_comm,
        Bool.not_eq_true']

theorem confirmed_iff {l : Live} (hl : l.Ok) {staged : List Entry} {row at_ : Nat} {e : Entry} :
    l.Confirmed staged (row, at_) e ↔
      staged[at_]? = some e ∧ l.Holds row e.source e.path.bytes := by
  unfold Confirmed
  refine and_congr_right fun _ => ?_
  constructor
  · rintro ⟨ha, h⟩
    exact (isAt_iff_holds hl ha _ _ e.path.ok).mp h
  · intro h
    exact ⟨h.1, (isAt_iff_holds hl h.1 _ _ e.path.ok).mpr h⟩

/-- A row at the path of an entry the batch asks for is under a key of the batch. -/
theorem Batch.candidate {l : Live} (hl : l.Ok) {staged : List Entry} {keys : List (UInt32 × Nat)}
    (hb : Batch staged keys) {at_ : Nat} {e : Entry} (ha : Asks staged keys at_ e) {row : Nat}
    (h : l.Holds row e.source e.path.bytes) : ∃ k, (k, row) ∈ l.seg.ids ∧ (k, at_) ∈ keys := by
  obtain ⟨he, k, hk⟩ := ha
  obtain ⟨e', he', hkey⟩ := hb.2 _ hk
  cases he.symm.trans he'
  obtain ⟨-, r, hr, h1, h2⟩ := h
  exact ⟨k, (mem_ids_iff hl k row).mpr ⟨r, hr, by rw [h1, h2]; exact hkey.symm⟩, hk⟩

/-- The entries settled afterwards: those settled before and those with a live row here. -/
theorem spared_decided (l : Live) (hl : l.Ok) (staged : List Entry) (keys : List (UInt32 × Nat))
    (hb : Batch staged keys) (decided : List Bool) (hlen : decided.length = staged.length)
    (at_ : Nat) :
    (l.sparePaths keys staged decided).1.getD at_ false = true ↔
      decided.getD at_ false = true ∨
        ∃ e, Asks staged keys at_ e ∧ ∃ row, l.Holds row e.source e.path.bytes := by
  obtain ⟨pairs, h, hp⟩ := sparePaths_pairs l hl keys staged decided hb.1
  rw [h, foldl_spareStep_decided l staged at_ pairs _ hlen]
  simp only [hp, confirmed_iff hl]
  constructor
  · rintro (h | ⟨row, e, ⟨-, k, -, hk⟩, he, hh⟩)
    · exact Or.inl h
    · exact Or.inr ⟨e, ⟨he, k, hk⟩, row, hh⟩
  · rintro (h | ⟨e, ha, row, hh⟩)
    · exact Or.inl h
    · by_cases hd : decided.getD at_ false = true
      · exact Or.inl hd
      · exact Or.inr ⟨row, e, ⟨by simpa using hd, hb.candidate hl ha hh⟩, ha.1, hh⟩

/-- The rows answered with: of each entry asked for and not settled before, the live row at its path
that is the same in all `same_meta` reads. -/
theorem mem_spared_iff (l : Live) (hl : l.Ok) (hone : l.Distinct) (staged : List Entry)
    (keys : List (UInt32 × Nat)) (hb : Batch staged keys) (decided : List Bool)
    (hlen : decided.length = staged.length) (at_ row : Nat) :
    (at_, row) ∈ (l.sparePaths keys staged decided).2 ↔
      decided.getD at_ false = false ∧ ∃ e r, Asks staged keys at_ e ∧
        l.Holds row e.source e.path.bytes ∧ l.seg.entry row = some r ∧ Unmoved r e := by
  obtain ⟨pairs, h, hp⟩ := sparePaths_pairs l hl keys staged decided hb.1
  have hconf : ∀ i j at_ e, l.Confirmed staged (i, at_) e → l.Confirmed staged (j, at_) e → i = j :=
    fun i j at_ e hi hj =>
      hone i j _ _ ((confirmed_iff hl).mp hi).2 ((confirmed_iff hl).mp hj).2
  rw [h, mem_foldl_spareStep_iff l staged hconf at_ row pairs _ hlen]
  simp only [hp, confirmed_iff hl, List.not_mem_nil, false_or]
  refine and_congr_right fun hd => ?_
  constructor
  · rintro ⟨⟨-, k, -, hk⟩, e, ⟨he, hh⟩, hsame⟩
    obtain ⟨r, hr⟩ := exists_entry hl hh.1
    exact ⟨e, r, ⟨he, k, hk⟩, hh, hr, (sameMeta_iff hr e).mp hsame⟩
  · rintro ⟨e, r, ha, hh, hr, hsame⟩
    exact ⟨⟨hd, hb.candidate hl ha hh⟩, e, ⟨ha.1, hh⟩, (sameMeta_iff hr e).mpr hsame⟩

/-- A batch of paths meets exactly the rows that hold them, whichever way it is looked up: the wanted
rows die, are counted, and no other bit moves; an entry is settled when a live row here holds its
path, and is answered for with that row when nothing but its time of reading moved. -/
theorem batch_meets_rows (l : Live) (hl : l.Ok) (hone : l.Distinct) :
    (∀ wanted, Keyed wanted →
      (∀ row, (l.killPaths wanted).1.isAlive row = true ↔
        l.isAlive row = true ∧ ¬ ∃ w ∈ wanted, l.Holds row w.2.1 w.2.2) ∧
      (l.killPaths wanted).1.alive.length = l.alive.length ∧
      (l.killPaths wanted).1.seg = l.seg ∧
      (l.killPaths wanted).1.liveRows + (l.killPaths wanted).2 = l.liveRows) ∧
    ∀ staged keys decided, Batch staged keys → decided.length = staged.length →
      (∀ at_, (l.sparePaths keys staged decided).1.getD at_ false = true ↔
        decided.getD at_ false = true ∨
          ∃ e, Asks staged keys at_ e ∧ ∃ row, l.Holds row e.source e.path.bytes) ∧
      ((l.sparePaths keys staged decided).2.map (·.1)).Nodup ∧
      (∀ at_ row, (at_, row) ∈ (l.sparePaths keys staged decided).2 →
        decided.getD at_ false = false ∧ ∃ e r, Asks staged keys at_ e ∧
          l.Holds row e.source e.path.bytes ∧ l.seg.entry row = some r ∧ Unmoved r e) ∧
      ∀ at_ row e r, decided.getD at_ false = false → Asks staged keys at_ e →
        l.Holds row e.source e.path.bytes → l.seg.entry row = some r → r.isDir = e.isDir →
        { r.info with atime := e.info.atime } = e.info →
        (at_, row) ∈ (l.sparePaths keys staged decided).2 := by
  constructor
  · intro wanted hw
    have hlater := killPaths_later l hl wanted
    exact ⟨killPaths_isAlive l hl wanted hw, hlater.length, hlater.seg,
      killPaths_liveRows l hl wanted hw⟩
  · intro staged keys decided hb hlen
    have hmem := mem_spared_iff l hl hone staged keys hb decided hlen
    refine ⟨spared_decided l hl staged keys hb decided hlen, ?_, fun at_ row => (hmem at_ row).mp,
      fun at_ row e r hd ha hh hr hkind hmeta => ?_⟩
    · obtain ⟨pairs, h, -⟩ := sparePaths_pairs l hl keys staged decided hb.1
      rw [h]
      exact nodup_foldl_spareStep l staged pairs _ hlen (by simp) (by simp)
    · refine (hmem at_ row).mpr ⟨hd, e, r, ha, hh, hr, ?_⟩
      rw [Meta.ext_iff] at hmeta
      obtain ⟨h1, h2, h3, -, h4, h5, h6, -⟩ := hmeta
      exact ⟨h1, h2, h3, h4, h5, h6, hkind⟩

/-- A segment of one file. -/
def oneRow : Live where
  number := 1
  generation := 0
  seg := (build [.file "/f"]).seg
  alive := (build [.file "/f"]).alive
  deaths := 0

theorem oneRow_ok : oneRow.Ok := ⟨_, rfl, rfl⟩

theorem oneRow_distinct : oneRow.Distinct := by
  have hlive : ∀ i, oneRow.isAlive i = true → i = 0 := by
    intro i h
    cases i with
    | zero => rfl
    | succ i => cases h
  intro i j _ _ hi hj
  rw [hlive i hi.1, hlive j hj.1]

theorem batch_meets_rows_oneRow :
    (oneRow.killPaths [(keyOf 0 (str "/f"), 0, str "/f")]).1.liveRows +
      (oneRow.killPaths [(keyOf 0 (str "/f"), 0, str "/f")]).2 = oneRow.liveRows :=
  ((batch_meets_rows oneRow oneRow_ok oneRow_distinct).1 _
    ⟨List.pairwise_singleton _ _, by
      intro w hw
      rw [List.mem_singleton.mp hw]
      exact ⟨rfl, by decide⟩⟩).2.2.2

/-- The same file, read since. -/
def readSince : Entry := { Entry.file "/f" with info := { Meta.UNKNOWN with atime := 9 } }

/-- A row whose entry has moved is answered with: of all that is measured, the time of the last
reading is not compared. -/
theorem not_batch_meets_unmoved :
    (0, 0) ∈ (oneRow.sparePaths [(keyOf 0 (str "/f"), 0)] [readSince] [false]).2 ∧
      oneRow.seg.entry 0 = some (.file "/f") ∧ (Entry.file "/f").info ≠ readSince.info := by
  decide

end Live

end Scour
