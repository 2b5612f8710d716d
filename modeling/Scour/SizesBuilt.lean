import Scour.Bitmaps
import Scour.UsageExact

/-!
# The totals of one segment are true

`amount` is a sum over the live files of a segment, by the number of the directory they are in.
`Prefix.Sums` says that totals built from one bitmap, with the dead since, stand for the live bits as
of the last look; a build brings it about (`rebuild_sums`) and a refresh keeps it (`refresh_sums`).
From it a run of directories adds what its live files hold (`addRun_eq`, `addFiles_eq`), and so does
a subtree (`subtree_eq`).

All of it needs the segment's total to fit in 64 bits.
-/

namespace Scour

namespace Sizes

/-! ## A segment as it was opened -/

/-- A view of a segment that was written and opened: its directories are sorted, every row's is
among them, and the bitmap has a bit for every row. -/
structure Filed (v : View) : Prop where
  rows : v.rows < 2 ^ 32
  sorted : v.seg.dirs.Sorted
  dirs : ∀ row < v.rows, v.seg.dirs.paths[v.seg.dirId row]? = some (v.seg.dirOf row) ∧
    DirPath (v.seg.dirOf row)
  alive : v.alive.length = (v.rows + 7) / 8
  /-- Every directory is some row's. -/
  few : v.seg.dirs.paths.length ≤ v.rows

theorem Filed.dirId_lt {v : View} (hv : Filed v) {row : Nat} (h : row < v.rows) :
    v.seg.dirId row < v.seg.dirs.paths.length :=
  (List.getElem?_eq_some_iff.mp (hv.dirs row h).1).1

theorem Filed.isAlive {v : View} (hv : Filed v) {row : Nat} (h : row < v.rows) :
    v.isAlive row = bitAt v.alive row := by
  have hlen := hv.alive
  unfold View.isAlive bitAt
  rw [List.getElem?_eq_getElem (by omega)]

/-! ## Sums over the live files -/

/-- A sum over the files that are live in a bitmap and whose directory's number is selected. -/
def amount (v : View) (alive : Str) (g : Nat → Nat) (q : Nat → Bool) : Nat :=
  (((List.range v.rows).filter fun row =>
    bitAt alive row && (v.seg.num .isDir row == 0) && q (v.seg.dirId row)).map g).sum

/-- What a row's share is, as a number. -/
def held (v : View) (row : Nat) : Nat := (diskShare v row).toNat

/-- Every file counts once. -/
def one (_ : Nat) : Nat := 1

section
variable {v : View} {alive : Str} {g : Nat → Nat}

/-- Two selections with nothing in common. -/
theorem amount_add (q r : Nat → Bool) (h : ∀ d, q d = true → r d = false) :
    amount v alive g q + amount v alive g r = amount v alive g fun d => q d || r d := by
  unfold amount
  rw [sum_filter_or]
  · congr 2
    refine List.filter_congr fun row _ => ?_
    cases bitAt alive row <;> cases v.seg.num .isDir row == 0 <;> simp
  · intro row _ hq
    rw [Bool.and_eq_true] at hq
    rw [h _ hq.2, Bool.and_false]

theorem amount_congr {q r : Nat → Bool}
    (h : ∀ row < v.rows, q (v.seg.dirId row) = r (v.seg.dirId row)) :
    amount v alive g q = amount v alive g r := by
  unfold amount
  congr 2
  refine List.filter_congr fun row hrow => ?_
  rw [h row (List.mem_range.mp hrow)]

/-- Only the bits matter. -/
theorem amount_bits {other : Str} (h : ∀ row < v.rows, bitAt alive row = bitAt other row)
    (q : Nat → Bool) : amount v alive g q = amount v other g q := by
  unfold amount
  congr 2
  refine List.filter_congr fun row hrow => ?_
  rw [h row (List.mem_range.mp hrow)]

/-- A run is what is before its end, less what is before its start. -/
theorem amount_run {a b : Nat} (hab : a ≤ b) :
    amount v alive g (· < a) + amount v alive g (fun d => a ≤ d && d < b) =
      amount v alive g (· < b) := by
  rw [amount_add _ _ fun d hd => by simp_all]
  refine amount_congr fun row _ => ?_
  rw [Bool.eq_iff_iff]
  simp only [Bool.or_eq_true, Bool.and_eq_true, decide_eq_true_eq]
  omega

theorem amount_le (q : Nat → Bool) : amount v alive g q ≤ amount v alive g fun _ => true := by
  have := @amount_add v alive g q (fun d => !q d) fun d hd => by simp [hd]
  simp only [Bool.or_not_self] at this
  omega

/-- There are no more files than rows. -/
theorem amount_one_le (q : Nat → Bool) : amount v alive one q ≤ v.rows := by
  unfold amount
  rw [show (one : Nat → Nat) = fun _ => 1 from rfl, List.map_const', List.sum_replicate,
    nsmul_eq_mul, Nat.cast_id, Nat.mul_one]
  exact le_trans (List.length_filter_le _ _) (by simp)

/-- What was live is what is live and what died between. -/
theorem amount_died {now : Str} (hsub : ∀ row, bitAt now row = true → bitAt alive row = true)
    (q : Nat → Bool) :
    (((List.range v.rows).filter fun row =>
        diedAt alive now row && (v.seg.num .isDir row == 0) && q (v.seg.dirId row)).map g).sum +
      amount v now g q = amount v alive g q := by
  unfold amount
  rw [sum_filter_or]
  · congr 2
    refine List.filter_congr fun row _ => ?_
    have := hsub row
    unfold diedAt
    cases hn : bitAt now row with
    | true => simp [this hn]
    | false => cases bitAt alive row <;> simp
  · intro row _ h
    unfold diedAt at h
    cases hn : bitAt now row with
    | true => simp [hn] at h
    | false => simp

end

/-! ## What the totals stand for -/

/-- Totals built from the bitmap `built`, with the dead since, say what the last look saw. -/
structure Prefix.Sums (p : Prefix) (v : View) (built : Str) : Prop where
  length_disk : p.disk.length = v.seg.dirs.paths.length + 1
  length_files : p.files.length = v.seg.dirs.paths.length + 1
  disk : ∀ i ≤ v.seg.dirs.paths.length, ∃ x, p.disk[i]? = some x ∧
    x.toNat = amount v built (held v) (· < i)
  files : ∀ i ≤ v.seg.dirs.paths.length, ∃ x, p.files[i]? = some x ∧
    x.toNat = amount v built one (· < i)
  fits : amount v built (held v) (fun _ => true) < 2 ^ 64
  sorted : p.gone.Pairwise fun x y => x.1 ≤ y.1
  goneDisk : p.goneDisk = runs 0 p.gone
  gone : ∀ q : Nat → Bool, ((p.gone.filter fun x => q x.1).map (·.2.toNat)).sum +
    amount v p.seen (held v) q = amount v built (held v) q
  goneFiles : ∀ q : Nat → Bool, (p.gone.filter fun x => q x.1).length + amount v p.seen one q =
    amount v built one q

/-! ## A build -/

section
variable {v : View}

theorem foldl_charge (rows : List Nat) (hrows : ∀ row ∈ rows, v.seg.dirId row < v.seg.dirs.paths.length) :
    ∀ acc, rows.foldl (charge v) acc =
      ((rows.filter (counted v)).foldl
          (fun l row => l.modify (v.seg.dirId row) (· + diskShare v row)) acc.1,
        (rows.filter (counted v)).foldl (fun l row => l.modify (v.seg.dirId row) (· + 1)) acc.2) := by
  induction rows with
  | nil => exact fun acc => rfl
  | cons row rows ih =>
    intro acc
    have hrow := hrows row List.mem_cons_self
    rw [List.foldl_cons, ih fun r hr => hrows r (List.mem_cons_of_mem _ hr), List.filter_cons]
    by_cases hc : counted v row = true
    · have hcharge : charge v acc row = (acc.1.modify (v.seg.dirId row) (· + diskShare v row),
          acc.2.modify (v.seg.dirId row) (· + 1)) := by
        unfold counted at hc
        rw [Bool.and_eq_true, beq_iff_eq] at hc
        unfold charge
        rw [hc.1, hc.2, if_neg (by simp), if_neg (by simp), if_neg (by omega)]
      rw [if_pos hc, hcharge]
      rfl
    · have hcharge : charge v acc row = acc := by
        unfold counted at hc
        rw [Bool.and_eq_true, beq_iff_eq] at hc
        unfold charge
        by_cases ha : v.isAlive row = true
        · rw [ha, if_neg (by simp), if_pos fun h => hc ⟨ha, h⟩]
        · rw [Bool.not_eq_true] at ha
          rw [ha]
          rfl
      rw [if_neg hc, hcharge]

theorem counted_rows (hv : Filed v) (g : Nat → Nat) (q : Nat → Bool) :
    ((((List.range v.rows).filter (counted v)).filter fun row => q (v.seg.dirId row)).map g).sum =
      amount v v.alive g q := by
  unfold amount
  rw [List.filter_filter]
  congr 2
  refine List.filter_congr fun row hrow => ?_
  unfold counted
  rw [hv.isAlive (List.mem_range.mp hrow), Bool.and_comm]

/-- The slots of a build, shifted: each place holds what is before it. -/
theorem tally {α : Type} [Add α] [OfNat α 0] (val : α → Nat) (bound : Nat) (hzero : val 0 = 0)
    (hadd : ∀ x y, val x + val y < bound → val (x + y) = val x + val y) (hv : Filed v)
    (put : Nat → α) (hfits : amount v v.alive (fun row => val (put row)) (fun _ => true) < bound) :
    let own := ((List.range v.rows).filter (counted v)).foldl
      (fun l row => l.modify (v.seg.dirId row) (· + put row))
      (List.replicate (v.seg.dirs.paths.length + 1) (0 : α))
    (Search.sumsBefore 0 own).length = v.seg.dirs.paths.length + 1 ∧
      ∀ i ≤ v.seg.dirs.paths.length, ∃ x, (Search.sumsBefore 0 own)[i]? = some x ∧
        val x = amount v v.alive (fun row => val (put row)) (· < i) := by
  intro own
  have hnone : ∀ m, ((List.replicate m (0 : α)).map val).sum = 0 := by
    intro m
    simp [hzero]
  have hall := counted_rows hv (fun row => val (put row)) fun _ => true
  rw [List.filter_true] at hall
  obtain ⟨hlen, hsum⟩ := Search.foldl_modify val (fun row => v.seg.dirId row)
    (fun row => val (put row)) (fun row x => x + put row) bound (fun row x h => hadd x (put row) h)
    ((List.range v.rows).filter (counted v)) (List.replicate (v.seg.dirs.paths.length + 1) (0 : α))
    (fun row hrow => by
      have := hv.dirId_lt (List.mem_range.mp (List.mem_filter.mp hrow).1)
      rw [List.length_replicate]
      omega)
    (by
      rw [hnone, hall]
      omega)
  have hlen : own.length = v.seg.dirs.paths.length + 1 := by
    rw [← List.length_replicate (n := v.seg.dirs.paths.length + 1) (a := (0 : α)), ← hlen]
  have htake : ∀ i, ((own.take i).map val).sum =
      amount v v.alive (fun row => val (put row)) (· < i) := by
    intro i
    rw [hsum i, List.take_replicate, hnone, Nat.zero_add]
    exact counted_rows hv _ fun d => decide (d < i)
  refine ⟨by rw [Search.length_sumsBefore, hlen], fun i hi => ?_⟩
  have hle := @amount_le v v.alive (fun row => val (put row)) (· < v.seg.dirs.paths.length + 1)
  obtain ⟨x, hx, hval⟩ := Search.getElem?_sumsBefore val bound hadd own 0 i (by omega) (by
    have := htake (v.seg.dirs.paths.length + 1)
    rw [List.take_of_length_le (by omega)] at this
    rw [hzero, this]
    omega)
  exact ⟨x, hx, by rw [hval, hzero, Nat.zero_add, htake]⟩

/-- **A build says what is live.** -/
theorem rebuild_sums (hv : Filed v) (deaths : Nat)
    (hfits : amount v v.alive (held v) (fun _ => true) < 2 ^ 64) :
    (rebuild v deaths).Sums v v.alive := by
  have hfold := foldl_charge (v := v) (List.range v.rows)
    (fun row hrow => hv.dirId_lt (List.mem_range.mp hrow))
    (List.replicate (v.seg.dirs.paths.length + 1) 0, List.replicate (v.seg.dirs.paths.length + 1) 0)
  have hdisk := tally (v := v) UInt64.toNat (2 ^ 64) rfl
    (fun x y h => by rw [UInt64.toNat_add, Nat.mod_eq_of_lt h]) hv (diskShare v) hfits
  have hfiles := tally (v := v) UInt32.toNat (2 ^ 32) rfl
    (fun x y h => by rw [UInt32.toNat_add, Nat.mod_eq_of_lt h]) hv (fun _ => 1)
    (Nat.lt_of_le_of_lt (amount_one_le _) hv.rows)
  dsimp only at hdisk hfiles
  have hd : (rebuild v deaths).disk = Search.sumsBefore 0 (((List.range v.rows).filter (counted v)).foldl
      (fun l row => l.modify (v.seg.dirId row) (· + diskShare v row))
      (List.replicate (v.seg.dirs.paths.length + 1) 0)) := by
    unfold rebuild
    dsimp only
    rw [hfold]
  have hf : (rebuild v deaths).files = Search.sumsBefore 0 (((List.range v.rows).filter (counted v)).foldl
      (fun l row => l.modify (v.seg.dirId row) (· + 1))
      (List.replicate (v.seg.dirs.paths.length + 1) 0)) := by
    unfold rebuild
    dsimp only
    rw [hfold]
  exact
    { length_disk := hd ▸ hdisk.1
      length_files := hf ▸ hfiles.1
      disk := hd ▸ hdisk.2
      files := hf ▸ hfiles.2
      fits := hfits
      sorted := List.Pairwise.nil
      goneDisk := rfl
      gone := fun q => Nat.zero_add _
      goneFiles := fun q => Nat.zero_add _ }

end

/-! ## A refresh -/

section
variable {v : View}

theorem foldl_noteDeath (n : Nat) (rows : List Nat) :
    ∀ gone, rows.foldl (noteDeath v n) gone = gone ++ (rows.filter fun row =>
      decide (row < v.rows) && (v.seg.num .isDir row == 0) && decide (v.seg.dirId row < n)).map
        fun row => (v.seg.dirId row, diskShare v row) := by
  induction rows with
  | nil => exact fun gone => (List.append_nil gone).symm
  | cons row rows ih =>
    intro gone
    rw [List.foldl_cons, ih, List.filter_cons]
    unfold noteDeath
    by_cases h : row < v.rows ∧ v.seg.num .isDir row = 0
    · rw [if_neg (by simp only [ne_eq]; omega), h.2]
      by_cases hn : n ≤ v.seg.dirId row
      · rw [if_pos hn, if_neg (by simp; omega)]
      · rw [if_neg hn, if_pos (by simp; omega), List.map_cons, List.append_assoc]
        rfl
    · rw [if_pos (by simp only [ne_eq]; omega), if_neg (by simp; omega)]

/-- The deaths noted are those of the rows, below the end of the bitmap or not. -/
theorem noted_eq (hv : Filed v) (was : Str) (hlen : was.length = v.alive.length) (q : Nat → Bool) :
    ((died was v.alive).filter fun row => decide (row < v.rows) && (v.seg.num .isDir row == 0) &&
        decide (v.seg.dirId row < v.seg.dirs.paths.length)).filter (fun row => q (v.seg.dirId row)) =
      (List.range v.rows).filter fun row =>
        diedAt was v.alive row && (v.seg.num .isDir row == 0) && q (v.seg.dirId row) := by
  have halive := hv.alive
  rw [died_eq was v.alive hlen, List.filter_filter, List.filter_filter,
    show was.length * 8 = v.rows + (was.length * 8 - v.rows) by omega, List.range_add,
    List.filter_append]
  have hlast : ((List.range (was.length * 8 - v.rows)).map (v.rows + ·)).filter (fun row =>
      (q (v.seg.dirId row) && (decide (row < v.rows) && (v.seg.num .isDir row == 0) &&
        decide (v.seg.dirId row < v.seg.dirs.paths.length))) && diedAt was v.alive row) = [] := by
    rw [List.filter_eq_nil_iff]
    rintro _ hrow
    obtain ⟨k, -, rfl⟩ := List.mem_map.mp hrow
    simp
  rw [hlast, List.append_nil]
  refine List.filter_congr fun row hrow => ?_
  have hrow := List.mem_range.mp hrow
  rw [decide_eq_true hrow, decide_eq_true (hv.dirId_lt hrow)]
  cases diedAt was v.alive row <;> cases v.seg.num .isDir row == 0 <;> simp

/-- A refresh finds nothing to do, builds again, or adds the dead to the list. -/
theorem refresh_cases {p : Prefix} (hsorted : p.gone.Pairwise fun x y => x.1 ≤ y.1)
    (hruns : p.goneDisk = runs 0 p.gone) (deaths : Nat) :
    (deaths = p.deaths ∧ p.refresh v deaths = p) ∨ p.refresh v deaths = rebuild v deaths ∨
      deaths ≠ p.deaths ∧ ∃ gone, gone.Perm ((died p.seen v.alive).foldl (noteDeath v (p.disk.length - 1)) p.gone) ∧
        (gone.Pairwise fun x y => x.1 ≤ y.1) ∧
        p.refresh v deaths = { p with seen := v.alive, gone, goneDisk := runs 0 gone, deaths } := by
  unfold Prefix.refresh
  by_cases hd : deaths = p.deaths
  · exact Or.inl ⟨hd, if_pos hd⟩
  · rw [if_neg hd]
    by_cases hlen : v.alive.length = p.seen.length
    · rw [if_neg (not_not.mpr hlen)]
      dsimp only
      split
      · exact Or.inr (Or.inl rfl)
      · right
        right
        refine ⟨hd, ?_⟩
        split
        · exact ⟨_, List.perm_insertionSort _ _, List.pairwise_insertionSort _ _, rfl⟩
        · -- nothing was noted
          rename_i hsame
          refine ⟨p.gone, ?_, hsorted, by rw [← hruns]⟩
          rw [foldl_noteDeath] at hsame ⊢
          rw [ne_eq, not_not, List.length_append] at hsame
          rw [List.length_eq_zero_iff.mp (by omega : List.length (List.map _ _) = 0), List.append_nil]
    · rw [if_pos hlen]
      exact Or.inr (Or.inl rfl)

/-- A look at the segment again: what has to be so of the last one. -/
structure Prefix.Before (p : Prefix) (v : View) (deaths : Nat) : Prop where
  length : p.seen.length = v.alive.length
  /-- Rows only ever die. -/
  sub : ∀ row, bitAt v.alive row = true → bitAt p.seen row = true
  same : deaths = p.deaths → ∀ row, bitAt p.seen row = bitAt v.alive row

/-- **A refresh says what is live now.** -/
theorem refresh_sums (hv : Filed v) {p : Prefix} {built : Str} (hp : p.Sums v built) {deaths : Nat}
    (hb : p.Before v deaths) (hfits : amount v v.alive (held v) (fun _ => true) < 2 ^ 64) :
    (∃ built', (p.refresh v deaths).Sums v built') ∧ (p.refresh v deaths).deaths = deaths ∧
      (p.refresh v deaths).seen.length = v.alive.length ∧
      ∀ row, bitAt (p.refresh v deaths).seen row = bitAt v.alive row := by
  obtain ⟨hd, heq⟩ | heq | ⟨-, gone, hperm, hsorted, heq⟩ :=
    refresh_cases (v := v) hp.sorted hp.goneDisk deaths
  · rw [heq]
    exact ⟨⟨built, hp⟩, hd.symm, hb.length, hb.same hd⟩
  · rw [heq]
    exact ⟨⟨v.alive, rebuild_sums hv deaths hfits⟩, rfl, rfl, fun _ => rfl⟩
  · rw [heq]
    refine ⟨⟨built, ?_⟩, rfl, rfl, fun _ => rfl⟩
    rw [foldl_noteDeath, hp.length_disk, Nat.add_sub_cancel] at hperm
    -- the list holds what it held, and what died since
    have hfilter : ∀ q : Nat → Bool, (gone.filter fun x => q x.1).Perm
        ((p.gone.filter fun x => q x.1) ++ ((List.range v.rows).filter fun row =>
          diedAt p.seen v.alive row && (v.seg.num .isDir row == 0) && q (v.seg.dirId row)).map
            fun row => (v.seg.dirId row, diskShare v row)) := by
      intro q
      refine (hperm.filter _).trans ?_
      rw [List.filter_append, List.filter_map, ← noted_eq hv p.seen hb.length q]
      exact List.Perm.refl _
    exact
      { length_disk := hp.length_disk
        length_files := hp.length_files
        disk := hp.disk
        files := hp.files
        fits := hp.fits
        sorted := hsorted
        goneDisk := rfl
        gone := by
          intro q
          rw [((hfilter q).map _).sum_eq, List.map_append, List.sum_append, List.map_map, ← hp.gone q,
            ← amount_died hb.sub q, Nat.add_assoc]
          rfl
        goneFiles := by
          intro q
          have hlen : ∀ l : List Nat, l.length = (l.map one).sum := by
            intro l
            rw [show (one : Nat → Nat) = fun _ => 1 from rfl, List.map_const', List.sum_replicate,
              nsmul_eq_mul, Nat.cast_id, Nat.mul_one]
          rw [(hfilter q).length_eq, List.length_append, List.length_map, hlen (List.filter _ _),
            ← hp.goneFiles q, ← amount_died hb.sub q, Nat.add_assoc] }

end

/-! ## Lookups -/

theorem runs_eq (gone : List (Nat × UInt64)) :
    ∀ run, runs run gone = Search.sumsBefore run (gone.map (·.2) ++ [0]) := by
  induction gone with
  | nil => exact fun run => rfl
  | cons g gone ih => exact fun run => congrArg (run :: ·) (ih _)

section
variable {v : View} {p : Prefix} {built : Str}

/-- What is gone below a place. -/
theorem goneDisk_at (hp : p.Sums v built) (a : Nat) :
    (p.goneDisk.getD (Search.partitionPoint p.gone.length
        fun k => (p.gone[k]?).any fun x => x.1 < a) 0).toNat =
      ((p.gone.filter fun x => x.1 < a).map (·.2.toNat)).sum := by
  obtain ⟨hle, htake⟩ := Search.take_partitionPoint (fun x : Nat × UInt64 => x.1) a p.gone hp.sorted
  generalize Search.partitionPoint p.gone.length (fun k => (p.gone[k]?).any fun x => x.1 < a) = m
    at hle htake ⊢
  have hsum : ((p.gone.map (fun g => g.2) ++ [0] : List UInt64).map UInt64.toNat).sum =
      (p.gone.map (·.2.toNat)).sum := by
    rw [List.map_append, List.sum_append, List.map_map]
    exact Nat.add_zero _
  have hfits : (p.gone.map (·.2.toNat)).sum < 2 ^ 64 := by
    have := hp.gone fun _ => true
    rw [List.filter_true] at this
    have := hp.fits
    omega
  obtain ⟨x, hx, hval⟩ := Search.getElem?_sumsBefore UInt64.toNat (2 ^ 64)
    (fun x y h => by rw [UInt64.toNat_add, Nat.mod_eq_of_lt h])
    (p.gone.map (fun g => g.2) ++ [0] : List UInt64) 0 m
    (by
      rw [List.length_append, List.length_map]
      exact Nat.lt_succ_of_le hle)
    (by
      rw [hsum]
      exact (Nat.zero_add _).symm ▸ hfits)
  rw [hp.goneDisk, runs_eq, List.getD_eq_getElem?_getD, hx, Option.getD_some, hval,
    List.take_append_of_le_length (by rwa [List.length_map]), ← List.map_take, htake, List.map_map]
  exact Nat.zero_add _

theorem length_gone_lt (hp : p.Sums v built) (hv : Filed v) (q : Nat → Bool) :
    (p.gone.filter fun x => q x.1).length < 2 ^ 32 := by
  have := hp.goneFiles q
  have := @amount_one_le v built q
  have := hv.rows
  omega

/-- What is gone within a run: what is gone below its end, but not below its start. -/
theorem goneIn_eq (hp : p.Sums v built) {a b : Nat} (hab : a ≤ b) :
    (p.goneIn a b).1.toNat =
        ((p.gone.filter fun x => a ≤ x.1 && x.1 < b).map (·.2.toNat)).sum ∧
      (p.goneIn a b).2 = (p.gone.filter fun x => a ≤ x.1 && x.1 < b).length := by
  have hsplit : ∀ g : Nat × UInt64 → Nat,
      ((p.gone.filter fun x => x.1 < a).map g).sum +
        ((p.gone.filter fun x => a ≤ x.1 && x.1 < b).map g).sum =
      ((p.gone.filter fun x => x.1 < b).map g).sum := by
    intro g
    rw [sum_filter_or g p.gone _ _ fun x _ hx => by simp_all]
    congr 2
    refine List.filter_congr fun x _ => ?_
    rw [Bool.eq_iff_iff]
    simp only [Bool.or_eq_true, Bool.and_eq_true, decide_eq_true_eq]
    omega
  constructor
  · have ha := goneDisk_at hp a
    have hb := goneDisk_at hp b
    have := hsplit fun x => x.2.toNat
    show (_ - _ : UInt64).toNat = _
    rw [UInt64.toNat_sub_of_le _ _ (by
      rw [UInt64.le_iff_toNat_le, ha, hb]
      omega), ha, hb]
    omega
  · obtain ⟨hlea, htakea⟩ := Search.take_partitionPoint (fun x : Nat × UInt64 => x.1) a p.gone hp.sorted
    obtain ⟨hleb, htakeb⟩ := Search.take_partitionPoint (fun x : Nat × UInt64 => x.1) b p.gone hp.sorted
    have hones := hsplit fun _ => 1
    have ha := congrArg List.length htakea
    have hb := congrArg List.length htakeb
    rw [List.length_take, Nat.min_eq_left hlea] at ha
    rw [List.length_take, Nat.min_eq_left hleb] at hb
    simp only [List.map_const', List.sum_replicate, nsmul_eq_mul, Nat.cast_id, Nat.mul_one] at hones
    show _ - _ = _
    rw [ha, hb]
    omega

theorem toNat_saturatingSub (a b : UInt64) : (saturatingSub a b).toNat = a.toNat - b.toNat := by
  unfold saturatingSub
  by_cases h : b ≤ a
  · rw [if_pos h, UInt64.toNat_sub_of_le _ _ h]
  · rw [if_neg h]
    rw [UInt64.le_iff_toNat_le] at h
    exact (Nat.sub_eq_zero_of_le (by omega)).symm

/-- **A run of directories adds what its live files hold.** -/
theorem addRun_eq (hp : p.Sums v built) {a b : Nat} (hab : a ≤ b)
    (hb : b ≤ v.seg.dirs.paths.length) (total : UInt64)
    (hfits : total.toNat + amount v built (held v) (fun d => a ≤ d && d < b) < 2 ^ 64) :
    (p.addRun total a b).toNat = total.toNat + amount v p.seen (held v) fun d => a ≤ d && d < b := by
  obtain ⟨x, hx, hxa⟩ := hp.disk a (by omega)
  obtain ⟨y, hy, hyb⟩ := hp.disk b hb
  have hrun := @amount_run v built (held v) a b hab
  have hgone := hp.gone fun d => a ≤ d && d < b
  have hin := (goneIn_eq hp hab).1
  have hxy := toNat_saturatingSub y x
  unfold Prefix.addRun
  rw [hx, hy]
  dsimp only
  rw [toNat_saturatingSub, UInt64.toNat_add, Nat.mod_eq_of_lt (by omega)]
  omega

/-- And their number. -/
theorem addFiles_eq (hp : p.Sums v built) (hv : Filed v) {a b : Nat} (hab : a ≤ b)
    (hb : b ≤ v.seg.dirs.paths.length) (total : UInt64) (hsmall : total.toNat < 2 ^ 32) :
    (p.addFiles total a b).toNat = total.toNat + amount v p.seen one fun d => a ≤ d && d < b := by
  obtain ⟨x, hx, hxa⟩ := hp.files a (by omega)
  obtain ⟨y, hy, hyb⟩ := hp.files b hb
  have hrun := @amount_run v built one a b hab
  have hgone := hp.goneFiles fun d => a ≤ d && d < b
  have hin := (goneIn_eq hp hab).2
  have hlt := length_gone_lt hp hv fun d => a ≤ d && d < b
  have hle : x ≤ y := by
    rw [UInt32.le_iff_toNat_le]
    omega
  have hylt := y.toNat_lt
  unfold Prefix.addFiles
  rw [hx, hy]
  dsimp only
  rw [toNat_saturatingSub, UInt64.toNat_add, if_pos hle, UInt32.toNat_toUInt64,
    UInt32.toNat_sub_of_le _ _ hle, UInt64.toNat_ofNat', Nat.mod_eq_of_lt (by omega),
    Nat.mod_eq_of_lt (by omega)]
  omega

/-! ## Subtrees -/

/-- A directory is in the scope of a path when the path is above it or the same. -/
theorem contains_subtree (t : DirTable) (ht : t.Sorted) (path : Str) {i : Nat} {d : Str}
    (hi : t.paths[i]? = some d) (hd : DirPath d) :
    (t.subtree path).contains i = under d path := by
  rw [Bool.eq_iff_iff, DirTable.subtree_contains_iff t ht path i d hi, under_iff]
  refine ⟨Or.inr, fun h => ?_⟩
  rcases h with hroot | h
  · -- everything begins with the root
    right
    rw [hroot]
    rcases hd with rfl | ⟨hhead, -⟩
    · exact List.prefix_refl _
    · obtain ⟨rest, rfl⟩ := List.head?_eq_some_iff.mp hhead
      exact ⟨rest, rfl⟩
  · exact h

/-- A scope's own number is in the table, and its run below is another part of it. -/
theorem subtree_bounds (t : DirTable) (ht : t.Sorted) (path : Str) :
    (∀ own, (t.subtree path).own = some own → own < t.paths.length ∧
        ¬ ((t.subtree path).below.1 ≤ own ∧ own < (t.subtree path).below.2)) ∧
      (t.subtree path).below.1 ≤ (t.subtree path).below.2 ∧
      (t.subtree path).below.2 ≤ t.paths.length := by
  have h₁ := t.lowerBound_le ht (trimEnd path ++ [slash])
  have h₂ := t.lowerBound_le ht (trimEnd path ++ [slash + 1])
  refine ⟨fun own hown => ?_, Nat.le_max_right _ _, Nat.max_le.mpr ⟨h₂, h₁⟩⟩
  have hget := (t.exact_eq_some_iff ht _ own).mp hown
  rw [trimEnd_trimEnd] at hget
  refine ⟨(List.getElem?_eq_some_iff.mp hget).1, fun hin => ?_⟩
  have hbelow := (t.mem_below_iff ht path own _ hget).mp hin
  exact absurd hbelow.length_le (by simp)

/-- The two runs of a scope are what it holds. -/
theorem amount_scope (hv : Filed v) (alive : Str) (g : Nat → Nat) (path : Str) :
    (match (v.seg.dirs.subtree path).own with
      | some own => amount v alive g fun d => own ≤ d && d < own + 1
      | none => 0) +
      amount v alive g (fun d => (v.seg.dirs.subtree path).below.1 ≤ d &&
        d < (v.seg.dirs.subtree path).below.2) =
      amount v alive g fun d => (v.seg.dirs.subtree path).contains d := by
  obtain ⟨hown, -, -⟩ := subtree_bounds v.seg.dirs hv.sorted path
  have hcontains : ∀ d, (v.seg.dirs.subtree path).contains d = true ↔ _ := fun d =>
    DirScope.contains_iff (v.seg.dirs.subtree path) d
  cases ho : (v.seg.dirs.subtree path).own with
  | none =>
    dsimp only
    rw [Nat.zero_add]
    refine amount_congr fun row _ => ?_
    rw [Bool.eq_iff_iff, hcontains, ho]
    simp
  | some own =>
    have hnot := (hown own ho).2
    dsimp only
    rw [amount_add _ _ fun d hd => by
      simp only [Bool.and_eq_true, decide_eq_true_eq] at hd
      rw [show d = own by omega, Bool.and_eq_false_iff, decide_eq_false_iff_not,
        decide_eq_false_iff_not]
      omega]
    refine amount_congr fun row _ => ?_
    rw [Bool.eq_iff_iff, hcontains, ho]
    simp only [Bool.or_eq_true, Bool.and_eq_true, decide_eq_true_eq, Option.some.injEq]
    omega

/-- **A subtree is what its live files hold**, and their number. -/
theorem subtree_eq (hp : p.Sums v built) (hv : Filed v) (path : Str) :
    (p.subtree v path).1.toNat =
        amount v p.seen (held v) (fun d => (v.seg.dirs.subtree path).contains d) ∧
      (p.subtree v path).2.toNat =
        amount v p.seen one fun d => (v.seg.dirs.subtree path).contains d := by
  obtain ⟨hown, hle, hend⟩ := subtree_bounds v.seg.dirs hv.sorted path
  have hscope := amount_scope hv p.seen (held v) path
  have hfiles := amount_scope hv p.seen one path
  have hbuilt := amount_scope hv built (held v) path
  have hall := @amount_le v built (held v) fun d =>
    (v.seg.dirs.subtree path).contains d
  have hfits := hp.fits
  unfold Prefix.subtree
  dsimp only
  cases ho : (v.seg.dirs.subtree path).own with
  | none =>
    rw [ho] at hscope hfiles hbuilt
    dsimp only at hscope hfiles hbuilt ⊢
    rw [Nat.zero_add] at hscope hfiles hbuilt
    have hz : (0 : UInt64).toNat = 0 := rfl
    constructor
    · rw [addRun_eq hp hle hend 0 (by omega), ← hscope, hz, Nat.zero_add]
    · rw [addFiles_eq hp hv hle hend 0 (by omega), ← hfiles, hz, Nat.zero_add]
  | some own =>
    rw [ho] at hscope hfiles hbuilt
    dsimp only at hscope hfiles hbuilt ⊢
    have hz : (0 : UInt64).toNat = 0 := rfl
    have hlt := (hown own ho).1
    have hseen := hp.gone fun d => own ≤ d && d < own + 1
    have hfew := @amount_one_le v p.seen fun d => own ≤ d && d < own + 1
    have hrows := hv.rows
    constructor
    · have h₁ := addRun_eq hp (by omega : own ≤ own + 1) hlt 0 (by omega)
      rw [addRun_eq hp hle hend _ (by omega), h₁]
      omega
    · have h₁ := addFiles_eq hp hv (by omega : own ≤ own + 1) hlt 0 (by omega)
      rw [addFiles_eq hp hv hle hend _ (by omega), h₁]
      omega

theorem toInt_toInt64_of_lt {x : UInt64} (h : x.toNat < 2 ^ 63) : x.toInt64.toInt = x.toNat := by
  show x.toBitVec.toInt = _
  exact BitVec.toInt_eq_toNat_of_lt (by
    show 2 * x.toNat < 2 ^ 64
    omega)

/-- A directory row's total is its subtree's, while that fits. -/
theorem scopeTotal_eq (hp : p.Sums v built) (hv : Filed v) (path : Str)
    (hfits : amount v p.seen (held v) (fun d => (v.seg.dirs.subtree path).contains d) < 2 ^ 63) :
    (p.scopeTotal (bounds v.seg.dirs path)).toInt =
      amount v p.seen (held v) fun d => (v.seg.dirs.subtree path).contains d := by
  have hsub := (subtree_eq hp hv path).1
  obtain ⟨hown, -, -⟩ := subtree_bounds v.seg.dirs hv.sorted path
  have heq : p.scopeTotal (bounds v.seg.dirs path) = (p.subtree v path).1.toInt64 := by
    unfold Prefix.scopeTotal Prefix.subtree bounds
    dsimp only
    rcases Option.eq_none_or_eq_some (v.seg.dirs.subtree path).own with ho | ⟨own, ho⟩
    · simp [ho]
    · -- a directory's number is never the one that stands for none
      have hlt := (hown own ho).1
      have hfew := hv.few
      have hrows := hv.rows
      have hne : own ≠ NO_NUMBER := by
        have hNO : NO_NUMBER = 4294967295 := rfl
        omega
      simp [ho, hne]
  rw [heq, ← hsub]
  exact toInt_toInt64_of_lt (by omega)

end

end Sizes

end Scour
