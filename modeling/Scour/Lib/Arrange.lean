import Scour.Lib.Select

/-!
# Arrangements

A list in an order a comparison allows: sorted, and where elements compare equal, in any order.  A
window cut out by selection is a window of some arrangement (`window_arranged`), and one of a part
that leaves out only what has `k` elements before it is, up to `k`, one of the whole
(`Arranges.extend`).
-/

namespace Search

variable {α : Type} {cmp : α → α → Ordering}

/-- A list, in an order the comparison allows. -/
structure Arranges (cmp : α → α → Ordering) (l arranged : List α) : Prop where
  perm : arranged.Perm l
  sorted : arranged.Pairwise (CmpLe cmp)

theorem Compares.subset {l m : List α} (h : Compares cmp l) (hm : m ⊆ l) : Compares cmp m where
  total a ha b hb := h.total a (hm ha) b (hm hb)
  trans a ha b hb c hc := h.trans a (hm ha) b (hm hb) c (hm hc)

/-- Parts that follow one another, each arranged, are an arrangement of the list. -/
theorem Arranges.append {l m a b : List α} (ha : Arranges cmp l a) (hb : Arranges cmp m b)
    (hlm : ∀ x ∈ l, ∀ y ∈ m, CmpLe cmp x y) : Arranges cmp (l ++ m) (a ++ b) where
  perm := ha.perm.append hb.perm
  sorted := List.pairwise_append.mpr ⟨ha.sorted, hb.sorted,
    fun x hx y hy => hlm x (ha.perm.subset hx) y (hb.perm.subset hy)⟩

theorem Unstable.arranges (u : Unstable α) {l : List α} (h : Compares cmp l) :
    Arranges cmp l (u.sort cmp l) := ⟨u.sort_perm cmp l, u.sorted cmp l h⟩

/-- Selection cuts a list in two parts, of which one goes before the other. -/
theorem Unstable.select_parts (u : Unstable α) {l : List α} (h : Compares cmp l) {n : Nat}
    (hn : 0 < n) :
    ∀ x ∈ (u.select cmp (n - 1) l).take n, ∀ y ∈ (u.select cmp (n - 1) l).drop n, CmpLe cmp x y := by
  have hparts := u.parts cmp (n - 1) l h
  rwa [Nat.sub_add_cancel hn] at hparts

/-- The window of three parts is the second, cut to its length. -/
theorem drop_take_parts {a b c : List α} {offset limit : Nat}
    (ha : a.length = offset ∨ (a.length ≤ offset ∧ b = [] ∧ c = []))
    (hc : c = [] ∨ b.length = limit) :
    ((a ++ (b ++ c)).drop offset).take limit = b.take limit := by
  rcases ha with rfl | ⟨hle, rfl, rfl⟩
  · rw [List.drop_left]
    rcases hc with rfl | rfl
    · rw [List.append_nil]
    · rw [List.take_left, List.take_length]
  · rw [List.append_nil, List.append_nil, List.drop_eq_nil_of_le hle]

/-- **The window is that of an arrangement.** -/
theorem Unstable.window_arranged (u : Unstable α) {pool : List α} (h : Compares cmp pool)
    (offset limit : Nat) :
    ∃ arranged, Arranges cmp pool arranged ∧
      u.window cmp pool offset limit = (arranged.drop offset).take limit := by
  unfold window
  dsimp only
  generalize hpage : (if min (offset + limit) pool.length < pool.length ∧
        0 < min (offset + limit) pool.length
      then (u.select cmp (min (offset + limit) pool.length - 1) pool).take
        (min (offset + limit) pool.length)
      else pool) = page
  -- the page, and what is behind it
  have hbehind : ∃ rest, (page ++ rest).Perm pool ∧ (∀ x ∈ page, ∀ y ∈ rest, CmpLe cmp x y) ∧
      (rest = [] ∨ page.length = offset + limit) := by
    subst hpage
    split
    · rename_i hcut
      have hmin : min (offset + limit) pool.length = offset + limit := by omega
      rw [hmin] at hcut ⊢
      have hperm := u.select_perm cmp (offset + limit - 1) pool
      refine ⟨(u.select cmp (offset + limit - 1) pool).drop (offset + limit), ?_,
        u.select_parts h hcut.2, Or.inr ?_⟩
      · rw [List.take_append_drop]
        exact hperm
      · rw [List.length_take, hperm.length_eq]
        omega
    · exact ⟨[], by rw [List.append_nil], fun _ _ y hy => by simp at hy, Or.inl rfl⟩
  obtain ⟨rest, hperm, hrest, hlen⟩ := hbehind
  have hall : Compares cmp (page ++ rest) := h.subset hperm.subset
  have hpage : Compares cmp page := hall.subset (List.subset_append_left _ _)
  generalize hwindow : (if 0 < min offset page.length ∧ min offset page.length < page.length
      then u.select cmp (min offset page.length - 1) page else page).drop
        (min offset page.length) = window
  -- what is in front of the window, and the window
  have hfront : ∃ front, (front ++ window).Perm page ∧
      (∀ x ∈ front, ∀ y ∈ window, CmpLe cmp x y) ∧ front.length = min offset page.length := by
    subst hwindow
    split
    · rename_i hcut
      have hperm := u.select_perm cmp (min offset page.length - 1) page
      refine ⟨(u.select cmp (min offset page.length - 1) page).take (min offset page.length), ?_,
        u.select_parts hpage hcut.1, ?_⟩
      · rw [List.take_append_drop]
        exact hperm
      · rw [List.length_take, hperm.length_eq]
        omega
    · rename_i hcut
      refine ⟨page.take (min offset page.length), by rw [List.take_append_drop], ?_, by
        rw [List.length_take]
        omega⟩
      intro x hx y hy
      rcases Nat.eq_zero_or_pos (min offset page.length) with h0 | hpos
      · rw [h0, List.take_zero] at hx
        cases hx
      · rw [List.drop_eq_nil_of_le (by omega)] at hy
        cases hy
  obtain ⟨front, hfront, hcross, hflen⟩ := hfront
  have hsplit : Compares cmp (front ++ window) := hpage.subset hfront.subset
  have harranged := ((u.arranges (hsplit.subset (List.subset_append_left _ _))).append
    (u.arranges (hsplit.subset (List.subset_append_right _ _))) hcross).append
    (u.arranges (hall.subset (List.subset_append_right _ _)))
    fun x hx y hy => hrest x (hfront.subset hx) y hy
  refine ⟨_, ⟨harranged.perm.trans ((hfront.append_right _).trans hperm), harranged.sorted⟩, ?_⟩
  have hlenw := hfront.length_eq
  rw [List.length_append] at hlenw
  rw [List.append_assoc, drop_take_parts]
  · rw [(u.sort_perm cmp front).length_eq, hflen]
    rcases Nat.lt_or_ge page.length offset with hlt | hge
    · right
      have hw : window = [] := List.eq_nil_of_length_eq_zero (by omega)
      have hr : rest = [] := hlen.resolve_right (by omega)
      rw [hw, hr]
      exact ⟨by omega, List.perm_nil.mp (u.sort_perm cmp []), List.perm_nil.mp (u.sort_perm cmp [])⟩
    · exact Or.inl (by omega)
  · rcases hlen with hr | hlen
    · rw [hr]
      exact Or.inl (List.perm_nil.mp (u.sort_perm cmp []))
    · right
      rw [(u.sort_perm cmp window).length_eq]
      omega

/-! ## Of a part -/

/-- What comes before an element comes before what it is itself before. -/
theorem Compares.before_trans {l : List α} (h : Compares cmp l) {x y z : α} (hx : x ∈ l) (hy : y ∈ l)
    (hz : z ∈ l) (hyx : ¬ CmpLe cmp x y) (hzy : ¬ CmpLe cmp y z) : ¬ CmpLe cmp x z :=
  fun hxz => hyx (h.trans x hx z hz y hy hxz ((h.total z hz y hy).resolve_right hzy))

/-- Fewer come before what comes before. -/
theorem Compares.before_lt {l : List α} (h : Compares cmp l) {x y : α} (hx : x ∈ l) (hy : y ∈ l)
    (hyx : ¬ CmpLe cmp x y) : before (CmpLe cmp) l y < before (CmpLe cmp) l x := by
  have hself : CmpLe cmp y y := (or_self _).mp (h.total y hy y hy)
  refine countP_lt_countP (fun z hz hyz => ?_) hy (by simp [hself]) (by simp [hyx])
  rw [Bool.not_eq_true', decide_eq_false_iff_not] at hyz ⊢
  exact h.before_trans hx hy hz hyx hyz

/-- What a part leaves out has as many of the part before it. -/
theorem Keeps.before_part {k : Nat} {l s : List α} (hl : Compares cmp l) (hnl : l.Nodup)
    (h : Keeps (CmpLe cmp) k l s) {x : α} (hx : x ∈ l) (hxs : x ∉ s) :
    k ≤ before (CmpLe cmp) s x := by
  classical
  -- by how many come before: those left out have fewer
  induction hn : before (CmpLe cmp) l x using Nat.strong_induction_on generalizing x with
  | _ n ih =>
    by_cases hout : ∃ y ∈ l, y ∉ s ∧ ¬ CmpLe cmp x y
    · obtain ⟨y, hy, hys, hyx⟩ := hout
      refine (ih _ (hn ▸ hl.before_lt hx hy hyx) hy hys rfl).trans ?_
      refine List.countP_mono_left fun z hz hyz => ?_
      rw [Bool.not_eq_true', decide_eq_false_iff_not] at hyz ⊢
      exact hl.before_trans hx hy (h.sub hz) hyx hyz
    · refine ((h.rest x hx).resolve_left hxs).trans ?_
      unfold before
      rw [List.countP_eq_length_filter, List.countP_eq_length_filter]
      refine (List.subperm_of_subset (hnl.filter _) fun z hz => ?_).length_le
      obtain ⟨hz, hzx⟩ := List.mem_filter.mp hz
      refine List.mem_filter.mpr ⟨?_, hzx⟩
      by_contra hzs
      rw [Bool.not_eq_true', decide_eq_false_iff_not] at hzx
      exact hout ⟨z, hz, hzs, hzx⟩

/-- What has `k` of an arrangement before it comes after the first `k`. -/
theorem Arranges.le_of_before {k : Nat} {l s arranged : List α} (hl : Compares cmp l) (hs : s ⊆ l)
    (h : Arranges cmp s arranged) {x y : α} (hx : x ∈ arranged.take k) (hy : y ∈ l)
    (hk : k ≤ before (CmpLe cmp) s y) : CmpLe cmp x y := by
  by_contra hxy
  obtain ⟨i, hi, rfl⟩ := List.getElem_of_mem hx
  rw [List.length_take] at hi
  rw [List.getElem_take] at hxy
  have hmem : ∀ z ∈ arranged, z ∈ l := fun z hz => hs (h.perm.subset hz)
  have hix := hmem _ (List.getElem_mem (show i < arranged.length by omega))
  have hyx := (hl.total y hy _ hix).resolve_right (not_not.mpr hxy)
  -- from there on none comes before
  have hnone : before (CmpLe cmp) (arranged.drop i) y = 0 := by
    unfold before
    rw [List.countP_eq_zero]
    intro z hz
    obtain ⟨j, hj, rfl⟩ := List.getElem_of_mem hz
    rw [List.length_drop] at hj
    rw [List.getElem_drop, Bool.not_eq_true', Bool.not_eq_false, decide_eq_true_eq]
    rcases Nat.eq_zero_or_pos j with rfl | hpos
    · exact hyx
    · exact hl.trans y hy _ hix _ (hmem _ (List.getElem_mem _)) hyx
        (List.pairwise_iff_getElem.mp h.sorted i (i + j) (by omega) (by omega) (by omega))
  have hfew : before (CmpLe cmp) (arranged.take i) y ≤ i := by
    refine List.countP_le_length.trans ?_
    rw [List.length_take]
    omega
  have hsplit : before (CmpLe cmp) arranged y =
      before (CmpLe cmp) (arranged.take i) y + before (CmpLe cmp) (arranged.drop i) y := by
    rw [← before_append, List.take_append_drop]
  rw [before_perm h.perm] at hsplit
  omega

/-- **The first `k` of an arranged part** are the first of an arrangement of the whole, where the part
leaves out only what has `k` before it. -/
theorem Arranges.extend {k : Nat} {l s arranged : List α} (hl : Compares cmp l) (hnl : l.Nodup)
    (hns : s.Nodup) (hkeeps : Keeps (CmpLe cmp) k l s) (h : Arranges cmp s arranged) :
    ∃ whole, Arranges cmp l whole ∧ whole.take k = arranged.take k := by
  classical
  have hout : ∀ y ∈ l.filter (· ∉ s), k ≤ before (CmpLe cmp) s y := by
    intro y hy
    obtain ⟨hy, hys⟩ := List.mem_filter.mp hy
    exact hkeeps.before_part hl hnl hy (of_decide_eq_true hys)
  have hperm : (s ++ l.filter (· ∉ s)).Perm l := by
    have hin : s.Perm (l.filter (· ∈ s)) := by
      rw [List.perm_ext_iff_of_nodup hns (hnl.filter _)]
      intro x
      rw [List.mem_filter, decide_eq_true_eq]
      exact ⟨fun hx => ⟨hkeeps.sub hx, hx⟩, fun hx => hx.2⟩
    refine (hin.append_right _).trans ?_
    simpa only [decide_not] using List.filter_append_perm (fun x => decide (x ∈ s)) l
  have hrest : Compares cmp (arranged.drop k ++ l.filter (· ∉ s)) :=
    hl.subset (List.append_subset.mpr
      ⟨fun x hx => hkeeps.sub (h.perm.subset (List.mem_of_mem_drop hx)), fun y hy => List.mem_of_mem_filter hy⟩)
  have hsorted := h.sorted
  rw [← List.take_append_drop k arranged] at hsorted
  have hparts : Arranges cmp (arranged.take k ++ (arranged.drop k ++ l.filter (· ∉ s)))
      (arranged.take k ++ (arranged.drop k ++ l.filter (· ∉ s)).insertionSort (CmpLe cmp)) := by
    refine Arranges.append ⟨List.Perm.refl _, (List.pairwise_append.mp hsorted).1⟩
      ⟨List.perm_insertionSort _ _, hrest.pairwise⟩ fun x hx y hy => ?_
    rcases List.mem_append.mp hy with hy | hy
    · exact (List.pairwise_append.mp hsorted).2.2 x hx y hy
    · exact h.le_of_before hl hkeeps.sub hx (List.mem_of_mem_filter hy) (hout y hy)
  refine ⟨_, ⟨hparts.perm.trans ?_, hparts.sorted⟩, ?_⟩
  · rw [← List.append_assoc, List.take_append_drop]
    exact (h.perm.append_right _).trans hperm
  · rcases Nat.lt_or_ge arranged.length k with hlt | hge
    · -- nothing can be left out of less than `k`
      have hnone : l.filter (· ∉ s) = [] := by
        rw [List.eq_nil_iff_forall_not_mem]
        intro y hy
        have := (hout y hy).trans List.countP_le_length
        rw [← h.perm.length_eq] at this
        omega
      rw [hnone, List.append_nil, List.drop_eq_nil_of_le hlt.le, List.insertionSort_nil,
        List.append_nil, List.take_take, Nat.min_self]
    · rw [List.take_append_of_le_length (by rw [List.length_take]; omega), List.take_take,
        Nat.min_self]

/-- Where no two elements compare equal there is one arrangement. -/
theorem Arranges.unique {l a b : List α} (ha : Arranges cmp l a) (hb : Arranges cmp l b)
    (hanti : ∀ x ∈ l, ∀ y ∈ l, CmpLe cmp x y → CmpLe cmp y x → x = y) : a = b :=
  List.Perm.eq_of_pairwise
    (fun x y hx hy => hanti x (ha.perm.subset hx) y (hb.perm.subset hy)) ha.sorted hb.sorted
    (ha.perm.trans hb.perm.symm)

/-- An insertion sort is stable: what is read of elements that all may stand in either order comes in
the order it came in. -/
theorem filterMap_insertionSort {β : Type} {r : α → α → Prop} [DecidableRel r] {f : α → Option β}
    (h : ∀ a b, (f a).isSome → (f b).isSome → r a b) (l : List α) :
    (l.insertionSort r).filterMap f = l.filterMap f := by
  have hfilter : ∀ k : List α, k.filterMap f = (k.filter fun a => (f a).isSome).filterMap f := by
    intro k
    rw [List.filterMap_filter]
    refine List.filterMap_congr fun a _ => ?_
    cases f a <;> simp
  have hpairs : (l.filter fun a => (f a).isSome).Pairwise r :=
    List.pairwise_of_forall_mem_list fun a ha b hb =>
      h a b (List.mem_filter.mp ha).2 (List.mem_filter.mp hb).2
  have hsub := (List.sublist_insertionSort hpairs List.filter_sublist).filter fun a => (f a).isSome
  have hlen := ((List.perm_insertionSort r l).filter fun a => (f a).isSome).length_eq
  rw [List.filter_filter] at hsub
  simp only [Bool.and_self] at hsub
  rw [hfilter, hfilter l, hsub.eq_of_length hlen.symm]

end Search
