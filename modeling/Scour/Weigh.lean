import Scour.Usage

/-!
# What a roll-up should answer

`Exact` is a roll-up that adds up: the figures of the root and of every reported child are the sums
over the charged rows at or below it, and where all children are reported they and the rows directly
in the scope make up the scope.  `charged` is those rows, and `View.weight` what one of them weighs,
in unbounded numbers.

`RollsUp` says when the answer is exact, in terms of the segments and the request alone.
-/

namespace Scour

/-- One figure of a total. -/
inductive Figure where
  | bytes | disk | files
  | age (k : Fin AGE_BANDS)
deriving DecidableEq

def Own.figure (o : Own) : Figure → UInt64
  | .bytes => o.bytes
  | .disk => o.disk
  | .files => o.files
  | .age k => o.age k

/-- One name's share of what a column says. -/
def View.part (v : View) (f : Field) (row : Nat) : Nat :=
  (max (v.numOf f row).toInt 0).toNat / (max (v.numOf .links row).toInt 1).toNat

/-- What a row weighs. -/
def View.weight (v : View) (now : Int64) (row : Nat) : Figure → Nat
  | .bytes => v.part .size row
  | .disk => v.part .disk row
  | .files => 1
  | .age k => if k = band (now - v.numOf .mtime row) then v.part .size row else 0

/-- Every row of every segment. -/
def allRows (segs : List View) : List (View × Nat) :=
  segs.flatMap fun v => (List.range v.rows).map fun row => (v, row)

/-- Is this a live matching row, and no directory? -/
def charges (P : Platform) (q : Ast) (x : View × Nat) : Bool :=
  x.1.isAlive x.2 && x.1.seg.num .isDir x.2 == 0 &&
    match (Plan.compile q x.1 : Except QueryError (Plan P)) with
    | .ok plan => plan.accepts x.1 x.2 (x.1.foldedName x.2)
    | .error _ => false

/-- The directory of a row. -/
def dirOfRow (x : View × Nat) : Str := x.1.seg.dirOf x.2

/-- The rows a request weighs. -/
def charged (P : Platform) (segs : List View) (q : Ast) (path : Str) : List (View × Nat) :=
  (allRows segs).filter fun x => charges P q x && under (dirOfRow x) path

/-- What a list of rows weighs. -/
def weigh (now : Int64) (k : Figure) (xs : List (View × Nat)) : Nat :=
  (xs.map fun x => x.1.weight now x.2 k).sum

/-- The figures of an answer are what the rows weigh. -/
structure Exact (now : Int64) (path : Str) (xs : List (View × Nat)) (resp : UsageResponse) : Prop where
  root : ∀ k, (resp.root.figure k).toNat = weigh now k xs
  children : ∀ c ∈ resp.children, ∀ k,
    (c.figure k).toNat = weigh now k (xs.filter fun x => under (dirOfRow x) c.path)
  /-- The children, when none is left out, and what is directly in the scope make up the scope. -/
  addUp : resp.children.length = resp.childCount → ∀ k,
    (resp.children.map fun c => (c.figure k).toNat).sum +
      weigh now k (xs.filter fun x => dirOfRow x == trimEnd path) = (resp.root.figure k).toNat

/-- A directory of some segment, at or below the path asked about. -/
def HeldDir (segs : List View) (path d : Str) : Prop :=
  (∃ v ∈ segs, d ∈ v.seg.dirs.paths) ∧ under d path = true

/-- The first held directory: the scope itself, where a row sits directly in it. -/
def First (segs : List View) (path d : Str) : Prop :=
  HeldDir segs path d ∧ ∀ e, HeldDir segs path e → d ≤ e

/-- The children of an answer: one level below the first held directory or, where the request names
no path, those with no ancestor held. -/
def Listed (segs : List View) (path d : Str) : Prop :=
  HeldDir segs path d ∧
    if trimEnd path = [] then ∀ e, HeldDir segs path e → under d e = true → d = e
    else ∃ r, First segs path r ∧ isChild d r = true

/-- When a roll-up is exact. -/
structure RollsUp (now : Int64) (segs : List View) (q : Ast) (path : Str)
    (xs : List (View × Nat)) : Prop where
  /-- The walk reaches every row: none is in the first block of a segment without a bitmap. -/
  walked : ∀ x ∈ xs, q.groups = [] ∨ x.1.alive ≠ [] ∨ BLOCK ≤ x.2
  /-- No figure overflows. -/
  fits : ∀ k, weigh now k xs < 2 ^ 64
  /-- Nothing overtakes what is below a directory that is reported. -/
  clear : ∀ d, Listed segs path d ∨ (trimEnd path ≠ [] ∧ First segs path d) →
    ∀ e, HeldDir segs path e → overtakes e d = true →
      ∀ x ∈ xs, under (dirOfRow x) d = true → dirOfRow x = d
  /-- Every row sits directly in the scope or at or below a child. -/
  placed : ∀ x ∈ xs, dirOfRow x = trimEnd path ∨
    ∃ d, Listed segs path d ∧ under (dirOfRow x) d = true

/-! ## Figures -/

@[simp] theorem Own.figure_zero (k : Figure) : (0 : Own).figure k = 0 := by
  cases k <;> rfl

@[simp] theorem Own.figure_add (a b : Own) (k : Figure) :
    (a + b).figure k = a.figure k + b.figure k := by
  cases k <;> rfl

/-- A total is the sum of the figures, as far as 64 bits hold it. -/
theorem Own.figure_sum (l : List Own) (k : Figure) :
    (l.sum.figure k).toNat = (l.map fun o => (o.figure k).toNat).sum % 2 ^ 64 := by
  induction l with
  | nil => simp
  | cons o l ih =>
    rw [List.sum_cons, Own.figure_add, UInt64.toNat_add, ih, List.map_cons, List.sum_cons]
    simp

/-- Clamping to a number that is not negative, and reading it unsigned. -/
theorem toNat_max_toUInt64 (a b : Int64) (hb : 0 ≤ b.toInt) :
    (max a b).toUInt64.toNat = (max a.toInt b.toInt).toNat := by
  have hmax : (max a b).toInt = max a.toInt b.toInt := by
    show (if a ≤ b then b else a).toInt = _
    split
    · rename_i h
      rw [max_eq_right (Int64.le_iff_toInt_le.mp h)]
    · rename_i h
      rw [Int64.le_iff_toInt_le] at h
      rw [max_eq_left (by omega)]
  have h0 : (0 : Int64) ≤ max a b := by
    rw [Int64.le_iff_toInt_le, hmax]
    exact le_trans hb (le_max_right _ _)
  rw [Int64.toNat_toUInt64_of_le h0, Int64.toNatClampNeg, hmax]

/-- What is charged for a row is what it weighs. -/
theorem View.share_figure (v : View) (now : Int64) (row : Nat) (k : Figure) :
    ((v.share now row).figure k).toNat = v.weight now row k := by
  have hpart : ∀ f, ((max (v.numOf f row) 0).toUInt64 /
      (max (v.numOf .links row) 1).toUInt64).toNat = v.part f row := by
    intro f
    rw [UInt64.toNat_div, toNat_max_toUInt64 _ _ (by decide), toNat_max_toUInt64 _ _ (by decide)]
    rfl
  cases k with
  | bytes => exact hpart .size
  | disk => exact hpart .disk
  | files => rfl
  | age k =>
    simp only [View.share, Own.figure, View.weight]
    split
    · exact hpart .size
    · rfl


/-- The rows of a request that the walk comes to. -/
def reachedRows (P : Platform) (segs : List View) (q : Ast) (path : Str) : List (View × Nat) :=
  (charged P segs q path).filter fun x => Rollup.walks q x.1 x.2

/-- What the accumulator holds after the segments: the held directories, each with what the rows
directly in it weigh. -/
structure Rollup.Holds (P : Platform) (segs : List View) (r : Rollup) : Prop where
  nodup : (r.own.map (·.1)).Nodup
  keys : ∀ d, d ∈ r.own.map (·.1) ↔ HeldDir segs r.scope d
  own : ∀ d, Rollup.ownAt r.own d = (((reachedRows P segs r.req.query r.scope).filter
    fun x => dirOfRow x == d).map fun x => x.1.share r.now x.2).sum

theorem allRows_append (segs segs' : List View) :
    allRows (segs ++ segs') = allRows segs ++ allRows segs' := List.flatMap_append

theorem reachedRows_append (P : Platform) (segs segs' : List View) (q : Ast) (path : Str) :
    reachedRows P (segs ++ segs') q path = reachedRows P segs q path ++ reachedRows P segs' q path := by
  unfold reachedRows charged
  rw [allRows_append, List.filter_append, List.filter_append]

/-- The rows reached in one segment. -/
theorem reachedRows_singleton {P : Platform} (v : View) (q : Ast) (path : Str) (p : Plan P)
    (hp : Plan.compile q v = .ok p) (d : Str) (g : View × Nat → Own) :
    (((reachedRows P [v] q path).filter fun x => dirOfRow x == d).map g).sum =
      (((Rollup.chargedRows q v p).filter fun row =>
        v.seg.num .isDir row == 0 && under d path && v.seg.dirOf row == d).map
          fun row => g (v, row)).sum := by
  unfold reachedRows charged allRows Rollup.chargedRows
  simp only [List.flatMap_cons, List.flatMap_nil, List.append_nil, List.filter_map,
    List.filter_filter, List.map_map, Function.comp_def, charges, hp, dirOfRow]
  congr 2
  apply List.filter_congr
  intro row _
  rw [Bool.eq_iff_iff]
  simp only [Bool.and_eq_true, beq_iff_eq]
  constructor
  · rintro ⟨hd, hw, ⟨⟨h1, h2⟩, h3⟩, h4⟩
    exact ⟨⟨⟨h2, hd ▸ h4⟩, hd⟩, ⟨h1, h3⟩, hw⟩
  · rintro ⟨⟨⟨h2, h4⟩, hd⟩, ⟨h1, h3⟩, hw⟩
    exact ⟨hd, hw, ⟨⟨h1, h2⟩, h3⟩, hd.symm ▸ h4⟩

theorem Rollup.Holds.addSegment {P : Platform} {segs : List View} {r r' : Rollup}
    (s : List Entry × Str) (hscope : trimEnd r.scope = r.scope) (hr : r.Holds P segs)
    (h : r.addSegment P (View.opened P s) = .ok r') :
    r'.Holds P (segs ++ [View.opened P s]) ∧ r'.req = r.req ∧ r'.now = r.now ∧
      r'.scope = r.scope := by
  obtain ⟨⟨h1, h2, h3⟩, h4, h5, p, hp, h6⟩ := addSegment_spec s r r' hscope h
  refine ⟨⟨h4 hr.nodup, fun d => ?_, fun d => ?_⟩, h1, h2, h3⟩
  · rw [h5, hr.keys, h3]
    unfold HeldDir
    constructor
    · rintro (⟨⟨v, hv, hd⟩, hu⟩ | ⟨hd, hu⟩)
      · exact ⟨⟨v, List.mem_append_left _ hv, hd⟩, hu⟩
      · exact ⟨⟨_, List.mem_append_right _ (List.mem_singleton.mpr rfl), hd⟩, hu⟩
    · rintro ⟨⟨v, hv, hd⟩, hu⟩
      rcases List.mem_append.mp hv with hv | hv
      · exact Or.inl ⟨⟨v, hv, hd⟩, hu⟩
      · rw [List.mem_singleton.mp hv] at hd
        exact Or.inr ⟨hd, hu⟩
  · rw [h6, hr.own, reachedRows_append, List.filter_append, List.map_append, List.sum_append, h1, h2, h3]
    congr 1
    exact (reachedRows_singleton (View.opened P s) r.req.query r.scope p hp d
      fun x => x.1.share r.now x.2).symm

theorem Rollup.Holds.foldlM {P : Platform} (rest : List (List Entry × Str)) :
    ∀ (segs : List View) (r r' : Rollup), trimEnd r.scope = r.scope → r.Holds P segs →
      (rest.map (View.opened P)).foldlM (fun r v => r.addSegment P v) r = .ok r' →
      r'.Holds P (segs ++ rest.map (View.opened P)) ∧ r'.req = r.req ∧ r'.now = r.now ∧
        r'.scope = r.scope := by
  induction rest with
  | nil =>
    intro segs r r' _ hr h
    cases h
    exact ⟨by simpa using hr, rfl, rfl, rfl⟩
  | cons s rest ih =>
    intro segs r r' hs hr h
    simp only [List.map_cons, List.foldlM_cons, bind, Except.bind] at h
    split at h
    · cases h
    · rename_i r₁ hr₁
      obtain ⟨g1, g2, g3, g4⟩ := hr.addSegment s hs hr₁
      obtain ⟨i1, i2, i3, i4⟩ := ih _ r₁ r' (by rw [g4, hs]) g1 h
      refine ⟨?_, i2.trans g2, i3.trans g3, i4.trans g4⟩
      simpa using i1

/-! ## The tree -/

/-- Summing over the directories that pass is summing over the rows in them. -/
theorem sum_dirs_eq {α : Type*} (dirs : List (Str × Own)) (hnd : (dirs.map (·.1)).Nodup)
    (ys : List α) (dir : α → Str) (g : α → Own) (hmem : ∀ y ∈ ys, dir y ∈ dirs.map (·.1))
    (hown : ∀ p ∈ dirs, p.2 = ((ys.filter fun y => dir y == p.1).map g).sum) (c : Str → Bool) :
    ((dirs.filter fun p => c p.1).map (·.2)).sum = ((ys.filter fun y => c (dir y)).map g).sum := by
  have hsum : ((dirs.filter fun p => c p.1).map (·.2)).sum = ((dirs.filter fun p => c p.1).map
      fun p => ((ys.filter fun y => dir y == p.1).map g).sum).sum := by
    congr 1
    apply List.map_congr_left
    intro p hp
    exact hown p (List.mem_filter.mp hp).1
  rw [hsum]
  clear hsum hown
  induction ys with
  | nil => simp
  | cons y ys ih =>
    have ih := ih fun z hz => hmem z (List.mem_cons_of_mem _ hz)
    have hsplit : ∀ p : Str × Own, (((y :: ys).filter fun y => dir y == p.1).map g).sum =
        (if dir y = p.1 then g y else 0) + ((ys.filter fun y => dir y == p.1).map g).sum := by
      intro p
      by_cases h : dir y = p.1 <;> simp [h]
    simp only [hsplit]
    rw [List.sum_map_add, ih]
    obtain ⟨p, hp, hpd⟩ := List.mem_map.mp (hmem y List.mem_cons_self)
    have hfnd : (dirs.filter fun p => c p.1).Nodup := (List.Nodup.of_map _ hnd).filter _
    have hone : ∀ q ∈ dirs, q.1 = dir y → q = p := fun q hq hqd =>
      List.inj_on_of_nodup_map hnd hq hp (hqd.trans hpd.symm)
    by_cases hc : c (dir y) = true
    · rw [Rollup.sum_map_single _ hfnd _ p (List.mem_filter.mpr ⟨hp, by rw [hpd]; exact hc⟩)]
      · simp [hpd, hc]
      · intro q hne hq
        exact if_neg fun h => hne (hone q (List.mem_filter.mp hq).1 h.symm)
    · rw [List.sum_eq_zero]
      · simp [hc]
      · intro o ho
        obtain ⟨q, hq, rfl⟩ := List.mem_map.mp ho
        obtain ⟨hq, hcq⟩ := List.mem_filter.mp hq
        exact if_neg fun h => hc (by rw [h]; exact hcq)

/-- The maximal directories of a sorted list. -/
theorem mem_tops_iff {paths : List Str} (hsorted : paths.Pairwise (· < ·))
    (hdir : ∀ p ∈ paths, DirPath p) :
    (Rollup.tops paths).Nodup ∧ ∀ i, i ∈ Rollup.tops paths ↔
      ∃ d, paths[i]? = some d ∧ ∀ e ∈ paths, under d e = true → d = e := by
  -- after a prefix: those that no earlier one is above
  have hfold : ∀ m, m ≤ paths.length →
      let out := (List.range m).foldl (fun tops i =>
        if tops.any fun t => strictlyBelow (paths.getD i []) (paths.getD t []) then tops
        else tops ++ [i]) []
      out.Nodup ∧ ∀ i, i ∈ out ↔
        i < m ∧ ∀ j < i, strictlyBelow (paths.getD i []) (paths.getD j []) = false := by
    intro m
    induction m with
    | zero => exact fun _ => ⟨List.nodup_nil, by simp⟩
    | succ m ih =>
      intro hm
      obtain ⟨h1, h2⟩ := ih (by omega)
      simp only [List.range_succ, List.foldl_append, List.foldl_cons, List.foldl_nil]
      generalize (List.range m).foldl (fun tops i =>
        if tops.any fun t => strictlyBelow (paths.getD i []) (paths.getD t []) then tops
        else tops ++ [i]) [] = out at h1 h2
      -- an ancestor seen before is below one that was kept
      have hany : (out.any fun t => strictlyBelow (paths.getD m []) (paths.getD t [])) = true ↔
          ∃ j < m, strictlyBelow (paths.getD m []) (paths.getD j []) = true := by
        rw [List.any_eq_true]
        constructor
        · rintro ⟨t, ht, hb⟩
          exact ⟨t, ((h2 t).mp ht).1, hb⟩
        · rintro ⟨j, hj, hb⟩
          induction j using Nat.strong_induction_on with
          | _ j ihj =>
            by_cases hjo : j ∈ out
            · exact ⟨j, hjo, hb⟩
            · have : ∃ j' < j, strictlyBelow (paths.getD j []) (paths.getD j' []) = true := by
                by_contra hno
                push Not at hno
                exact hjo ((h2 j).mpr ⟨hj, fun j' hj' => by simpa using hno j' hj'⟩)
              obtain ⟨j', hj', hb'⟩ := this
              exact ihj j' hj' (by omega) (strictlyBelow_trans _ _ _ hb hb')
      split
      · rename_i hcond
        obtain ⟨j, hj, hb⟩ := hany.mp hcond
        refine ⟨h1, fun i => (h2 i).trans ⟨fun ⟨a, b⟩ => ⟨by omega, b⟩, fun ⟨a, b⟩ => ⟨?_, b⟩⟩⟩
        by_contra hge
        obtain rfl : i = m := by omega
        rw [b j hj] at hb
        cases hb
      · rename_i hcond
        have hno : ∀ j < m, strictlyBelow (paths.getD m []) (paths.getD j []) = false := by
          intro j hj
          by_contra hb
          exact hcond (hany.mpr ⟨j, hj, by simpa using hb⟩)
        refine ⟨?_, fun i => ?_⟩
        · rw [List.nodup_append]
          refine ⟨h1, List.nodup_singleton _, ?_⟩
          intro a ha b hb
          rw [List.mem_singleton] at hb
          have := ((h2 a).mp ha).1
          omega
        · rw [List.mem_append, List.mem_singleton, h2]
          constructor
          · rintro (⟨a, b⟩ | rfl)
            · exact ⟨by omega, b⟩
            · exact ⟨by omega, hno⟩
          · rintro ⟨a, b⟩
            rcases Nat.lt_or_eq_of_le (Nat.le_of_lt_succ a) with h | h
            · exact Or.inl ⟨h, b⟩
            · exact Or.inr h
  obtain ⟨h1, h2⟩ := hfold paths.length (le_refl _)
  refine ⟨h1, fun i => (h2 i).trans ?_⟩
  have hgetD : ∀ i x, paths[i]? = some x → paths.getD i [] = x := fun i x hi => by
    rw [List.getD_eq_getElem?_getD, hi]
    rfl
  constructor
  · rintro ⟨hi, hno⟩
    refine ⟨paths[i], List.getElem?_eq_getElem hi, fun e he hu => ?_⟩
    obtain ⟨j, hj⟩ := List.mem_iff_getElem?.mp he
    by_contra hne
    have hb : strictlyBelow paths[i] e = true := by
      rw [strictlyBelow_iff]
      rw [under_iff] at hu
      rcases hu with h | h | h
      · exact Or.inl h
      · by_cases hroot : e = [slash]
        · exact Or.inl (by rw [hroot]; rfl)
        · rw [((hdir e he).resolve_left hroot).2] at h
          exact absurd h hne
      · exact Or.inr h
    have hji : j < i := by
      apply index_lt_of_lt hsorted hj (List.getElem?_eq_getElem hi)
      by_cases hroot : e = [slash]
      · rw [hroot]
        refine lt_of_le_of_ne (hdir _ (List.getElem_mem hi)).root_le fun h => hne ?_
        rw [hroot, h]
      · rcases (under_iff_of_dirPath (hdir e he) hroot).mp hu with h | h
        · exact absurd h hne
        · exact h.lt
    have := hno j hji
    rw [hgetD i _ (List.getElem?_eq_getElem hi), hgetD j e hj, hb] at this
    cases this
  · rintro ⟨d, hd, hmax⟩
    have hi := (List.getElem?_eq_some_iff.mp hd).1
    refine ⟨hi, fun j hj => ?_⟩
    have hjl : j < paths.length := by omega
    by_contra hb
    rw [Bool.not_eq_false, hgetD i d hd, hgetD j _ (List.getElem?_eq_getElem hjl),
      strictlyBelow_iff] at hb
    have heq := hmax _ (List.getElem_mem hjl) ((under_iff _ _).mpr (hb.imp id Or.inr))
    have := index_eq_of_eq hsorted hd (heq ▸ List.getElem?_eq_getElem hjl)
    omega

namespace Rollup

/-- The held directories, in the order of their paths. -/
def paths (r : Rollup) : List Str := r.dirs.map (·.1)

/-- What the total of a directory comes to. -/
def totalOf (r : Rollup) (ys : List (View × Nat)) (d : Str) : Own :=
  ((ys.filter fun x => counts r.paths d (dirOfRow x)).map fun x => x.1.share r.now x.2).sum

theorem perm_dirs (r : Rollup) : r.dirs.Perm r.own := List.perm_insertionSort _ _

theorem Holds.paths_sorted {P : Platform} {segs : List View} {r : Rollup} (hr : r.Holds P segs) :
    r.paths.Pairwise (· < ·) := by
  have hle : r.dirs.Pairwise fun a b => a.1 ≤ b.1 :=
    @List.pairwise_insertionSort _ (fun (a b : Str × Own) => a.1 ≤ b.1) _
      ⟨fun a b => le_total a.1 b.1⟩ ⟨fun _ _ _ => le_trans⟩ _
  have hnd : r.paths.Nodup := (r.perm_dirs.map _).nodup_iff.mpr hr.nodup
  exact ((List.pairwise_map.mpr hle).and hnd).imp fun h => lt_of_le_of_ne h.1 h.2

theorem Holds.mem_paths {P : Platform} {segs : List View} {r : Rollup} (hr : r.Holds P segs)
    (d : Str) : d ∈ r.paths ↔ HeldDir segs r.scope d := by
  rw [← hr.keys, paths, (r.perm_dirs.map _).mem_iff]

theorem Holds.dirPath {P : Platform} {s : List (List Entry × Str)} {r : Rollup}
    (hr : r.Holds P (s.map (View.opened P))) : ∀ d ∈ r.paths, DirPath d := by
  intro d hd
  obtain ⟨⟨v, hv, hdv⟩, -⟩ := (hr.mem_paths d).mp hd
  obtain ⟨s, -, rfl⟩ := List.mem_map.mp hv
  exact (View.opened_dirs s).2 d hdv

/-- The rows weighed sit in held directories. -/
theorem heldDir_of_charged {P : Platform} {s : List (List Entry × Str)} {q : Ast} {path : Str}
    {x : View × Nat} (hx : x ∈ charged P (s.map (View.opened P)) q path) :
    HeldDir (s.map (View.opened P)) path (dirOfRow x) := by
  unfold charged at hx
  rw [List.mem_filter, Bool.and_eq_true] at hx
  obtain ⟨hall, -, hu⟩ := hx
  obtain ⟨v, hv, hxv⟩ := List.mem_flatMap.mp hall
  obtain ⟨row, hrow, rfl⟩ := List.mem_map.mp hxv
  refine ⟨⟨v, hv, ?_⟩, hu⟩
  obtain ⟨s, -, rfl⟩ := List.mem_map.mp hv
  exact List.mem_of_getElem? (View.opened_dirOf s row (List.mem_range.mp hrow)).1

theorem Holds.total_eq {P : Platform} {s : List (List Entry × Str)} {r : Rollup}
    (hr : r.Holds P (s.map (View.opened P))) {i : Nat} {d : Str} (hd : r.paths[i]? = some d) :
    (Search.rollUp (fun i top => strictlyBelow (r.paths.getD i []) (r.paths.getD top []))
      (r.dirs.map (·.2))).getD i 0 =
      r.totalOf (reachedRows P (s.map (View.opened P)) r.req.query r.scope) d := by
  rw [rollUp_dirs r.dirs r.paths rfl hr.paths_sorted hr.dirPath i d hd]
  have hnd : (r.dirs.map (·.1)).Nodup := (r.perm_dirs.map _).nodup_iff.mpr hr.nodup
  refine sum_dirs_eq r.dirs hnd _ dirOfRow _ (fun x hx => ?_) (fun p hp => ?_) _
  · exact (hr.mem_paths _).mpr (heldDir_of_charged (List.mem_filter.mp hx).1)
  · rw [← hr.own, ownAt, ← ((r.perm_dirs.filter _).map _).sum_eq]
    have hone : r.dirs.filter (fun q => q.1 == p.1) = [p] := by
      have hsub : ∀ q ∈ r.dirs, q.1 = p.1 → q = p := fun q hq he =>
        List.inj_on_of_nodup_map hnd hq hp he
      have hmem : p ∈ r.dirs.filter (fun q => q.1 == p.1) := List.mem_filter.mpr ⟨hp, by simp⟩
      have hall : ∀ q ∈ r.dirs.filter (fun q => q.1 == p.1), q = p := fun q hq =>
        hsub q (List.mem_filter.mp hq).1 (by simpa using (List.mem_filter.mp hq).2)
      have hndf : (r.dirs.filter fun q => q.1 == p.1).Nodup := (List.Nodup.of_map _ hnd).filter _
      rw [List.eq_replicate_of_mem hall] at hndf hmem ⊢
      generalize (r.dirs.filter fun q => q.1 == p.1).length = n at hndf hmem
      rw [List.nodup_replicate] at hndf
      match n, hndf, hmem with
      | 1, _, _ => rfl
    rw [hone]
    simp

theorem inScope_eq (r : Rollup) (hs : trimEnd r.scope = r.scope) (d : Str) :
    r.inScope d = under d r.scope := by
  unfold inScope under
  rw [hs]

/-- **What the tree comes to**: the children are the listed directories, the root is the first held
one or, where the request names no path, the sum of the children. -/
theorem Holds.tree {P : Platform} {s : List (List Entry × Str)} {r : Rollup}
    (hr : r.Holds P (s.map (View.opened P))) (hs : trimEnd r.scope = r.scope)
    (ys : List (View × Nat))
    (hys : ys = reachedRows P (s.map (View.opened P)) r.req.query r.scope) :
    ∃ kids : List Str, kids.Nodup ∧
      (∀ d, d ∈ kids ↔ Listed (s.map (View.opened P)) r.scope d) ∧
      r.tree.2 = kids.map (fun d => { r.totalOf ys d with path := d }) ∧
      ((r.scope = [] ∧ r.tree.1 = { (kids.map (r.totalOf ys)).sum with path := [] }) ∨
        (r.scope ≠ [] ∧ ∃ f, First (s.map (View.opened P)) r.scope f ∧
          r.tree.1 = { r.totalOf ys f with path := f }) ∨
        (r.scope ≠ [] ∧ (∀ d, ¬ HeldDir (s.map (View.opened P)) r.scope d) ∧
          r.tree.1 = { (0 : Own) with path := [] })) := by
  have hsorted := hr.paths_sorted
  have hdir := hr.dirPath
  have hgetD : ∀ i x, r.paths[i]? = some x → r.paths.getD i [] = x := fun i x hi => by
    rw [List.getD_eq_getElem?_getD, hi]
    rfl
  have husage : ∀ i d, r.paths[i]? = some d →
      ({ (Search.rollUp (fun i top => strictlyBelow (r.paths.getD i []) (r.paths.getD top []))
        (r.dirs.map (·.2))).getD i 0 with path := r.paths.getD i [] } : DirUsage) =
        { r.totalOf ys d with path := d } := by
    intro i d hd
    rw [hr.total_eq hd, hgetD i d hd, hys]
  -- directories by number, and by name
  have hids : ∀ ids : List Nat, ids.Nodup → (∀ i ∈ ids, ∃ d, r.paths[i]? = some d) →
      (ids.map fun i => r.paths.getD i []).Nodup ∧
      (ids.map fun i => ({ (Search.rollUp (fun i top => strictlyBelow (r.paths.getD i [])
        (r.paths.getD top [])) (r.dirs.map (·.2))).getD i 0 with path := r.paths.getD i [] } :
          DirUsage)) =
        (ids.map fun i => r.paths.getD i []).map fun d => { r.totalOf ys d with path := d } := by
    intro ids hnd hget
    constructor
    · apply List.Nodup.map_on _ hnd
      intro i hi j hj hij
      obtain ⟨d, hd⟩ := hget i hi
      obtain ⟨e, he⟩ := hget j hj
      rw [hgetD i d hd, hgetD j e he] at hij
      exact index_eq_of_eq hsorted hd (hij ▸ he)
    · rw [List.map_map]
      apply List.map_congr_left
      intro i hi
      obtain ⟨d, hd⟩ := hget i hi
      rw [husage i d hd, Function.comp_apply, hgetD i d hd]
  have hmem := hr.mem_paths
  by_cases hscope : r.scope = []
  · obtain ⟨h1, h2⟩ := mem_tops_iff hsorted hdir
    obtain ⟨h3, h4⟩ := hids (tops r.paths) h1 fun i hi => by
      obtain ⟨d, hd, -⟩ := (h2 i).mp hi
      exact ⟨d, hd⟩
    have htree : r.tree = ({ ((tops r.paths).map fun i => (Search.rollUp (fun i top =>
        strictlyBelow (r.paths.getD i []) (r.paths.getD top [])) (r.dirs.map (·.2))).getD i 0).sum
          with path := [] }, (tops r.paths).map fun i => { (Search.rollUp (fun i top =>
        strictlyBelow (r.paths.getD i []) (r.paths.getD top [])) (r.dirs.map (·.2))).getD i 0
          with path := r.paths.getD i [] }) := by
      show (if r.scope.isEmpty then _ else _) = _
      rw [if_pos (by rw [hscope]; rfl)]
      rfl
    refine ⟨_, h3, fun d => ?_, by rw [htree]; exact h4, Or.inl ⟨hscope, ?_⟩⟩
    · rw [List.mem_map, Listed, hs, if_pos hscope, ← hmem]
      constructor
      · rintro ⟨i, hi, rfl⟩
        obtain ⟨d, hd, hmax⟩ := (h2 i).mp hi
        rw [hgetD i d hd]
        exact ⟨List.mem_of_getElem? hd, fun e he => hmax e ((hmem e).mpr he)⟩
      · rintro ⟨hd, hmax⟩
        obtain ⟨i, hi⟩ := List.mem_iff_getElem?.mp hd
        exact ⟨i, (h2 i).mpr ⟨d, hi, fun e he => hmax e ((hmem e).mp he)⟩, hgetD i d hi⟩
    · rw [htree, List.map_map]
      have : ((tops r.paths).map fun i => (Search.rollUp (fun i top =>
          strictlyBelow (r.paths.getD i []) (r.paths.getD top [])) (r.dirs.map (·.2))).getD i 0) =
          (tops r.paths).map (r.totalOf ys ∘ fun i => r.paths.getD i []) := by
        apply List.map_congr_left
        intro i hi
        obtain ⟨d, hd, -⟩ := (h2 i).mp hi
        rw [hr.total_eq hd, Function.comp_apply, hgetD i d hd, hys]
      rw [this]
  · -- the first directory is in scope, where there is one
    have hfind : ∀ f rest, r.paths = f :: rest →
        (List.range r.paths.length).find? (fun i => r.inScope (r.paths.getD i [])) = some 0 := by
      intro f rest hp
      rw [hp, List.length_cons, List.range_succ_eq_map, List.find?_cons_of_pos]
      rw [r.inScope_eq hs]
      exact ((hmem f).mp (by rw [hp]; exact List.mem_cons_self)).2
    have htree : r.tree =
        let root := (((List.range r.paths.length).find? fun i => r.inScope (r.paths.getD i [])).map
          fun i => ({ (Search.rollUp (fun i top => strictlyBelow (r.paths.getD i [])
            (r.paths.getD top [])) (r.dirs.map (·.2))).getD i 0 with path := r.paths.getD i [] } :
              DirUsage)).getD { (0 : Own) with path := [] }
        (root, ((List.range r.paths.length).filter fun i =>
          isChild (r.paths.getD i []) root.path).map fun i => { (Search.rollUp (fun i top =>
        strictlyBelow (r.paths.getD i []) (r.paths.getD top [])) (r.dirs.map (·.2))).getD i 0
          with path := r.paths.getD i [] }) := by
      show (if r.scope.isEmpty then _ else _) = _
      rw [if_neg (by simpa using hscope)]
      rfl
    cases hp : r.paths with
    | nil =>
      have hno : ∀ d, ¬ HeldDir (s.map (View.opened P)) r.scope d := by
        intro d hd
        have := (hmem d).mpr hd
        rw [hp] at this
        cases this
      refine ⟨[], List.nodup_nil, fun d => ?_, ?_, Or.inr (Or.inr ⟨hscope, hno, ?_⟩)⟩
      · constructor
        · intro h
          cases h
        · intro h
          exact absurd h.1 (hno d)
      · rw [htree, hp]
        rfl
      · rw [htree, hp]
        rfl
    | cons f rest =>
      have hf : First (s.map (View.opened P)) r.scope f := by
        refine ⟨(hmem f).mp (by rw [hp]; exact List.mem_cons_self), fun e he => ?_⟩
        have he := (hmem e).mpr he
        rw [hp] at he hsorted
        rcases List.mem_cons.mp he with rfl | he
        · exact le_refl _
        · exact le_of_lt ((List.pairwise_cons.mp hsorted).1 e he)
      have h0 : r.paths[0]? = some f := by rw [hp]; rfl
      have hroot : r.tree.1 = { r.totalOf ys f with path := f } := by
        rw [htree]
        simp only
        rw [hfind f rest hp, Option.map_some, Option.getD_some, husage 0 f h0]
      have hids' := hids ((List.range r.paths.length).filter fun i => isChild (r.paths.getD i []) f)
        (List.nodup_range.filter _) fun i hi =>
          ⟨_, List.getElem?_eq_getElem (List.mem_range.mp (List.mem_filter.mp hi).1)⟩
      refine ⟨_, hids'.1, fun d => ?_, ?_, Or.inr (Or.inl ⟨hscope, f, hf, hroot⟩)⟩
      · rw [List.mem_map, Listed, hs, if_neg hscope, ← hmem]
        constructor
        · rintro ⟨i, hi, rfl⟩
          obtain ⟨hi, hc⟩ := List.mem_filter.mp hi
          rw [List.mem_range] at hi
          refine ⟨?_, f, hf, hc⟩
          rw [hgetD i _ (List.getElem?_eq_getElem hi)]
          exact List.getElem_mem hi
        · rintro ⟨hd, f', hf', hc⟩
          obtain rfl : f' = f := le_antisymm (hf'.2 f hf.1) (hf.2 f' hf'.1)
          obtain ⟨i, hi⟩ := List.mem_iff_getElem?.mp hd
          refine ⟨i, List.mem_filter.mpr ⟨List.mem_range.mpr (List.getElem?_eq_some_iff.mp hi).1, ?_⟩,
            hgetD i d hi⟩
          rw [hgetD i d hi]
          exact hc
      · rw [← hids'.2, htree]
        simp only
        rw [hfind f rest hp, Option.map_some, Option.getD_some, hgetD 0 f h0]

end Rollup

end Scour
