import Mathlib.Data.List.Sort

/-!
# The first of many

Which elements of a list come first in an order can be told from fewer: from any part that leaves
out only elements with enough others before them (`Keeps`).  Parts may be cut and added to as the
list is read; `Keeps.first` says the first ones are those of the whole.
-/

namespace Search

variable {α : Type*} (r : α → α → Prop) [DecidableRel r]

/-- The first `k` of a list in the order. -/
def first (k : Nat) (l : List α) : List α := (l.insertionSort r).take k

/-- How many elements of a list come before this one. -/
def before (l : List α) (x : α) : Nat := l.countP fun y => !decide (r x y)

/-- A part of a list that leaves out only what has `k` elements of the list before it. -/
structure Keeps (k : Nat) (l s : List α) : Prop where
  sub : s ⊆ l
  rest : ∀ x ∈ l, x ∈ s ∨ k ≤ before r l x

/-- One that only the wider of two tests finds makes it find more. -/
theorem countP_lt_countP {p q : α → Bool} {l : List α} {y : α} (h : ∀ z ∈ l, p z = true → q z = true)
    (hy : y ∈ l) (hp : p y = false) (hq : q y = true) : l.countP p < l.countP q := by
  obtain ⟨s, t, rfl⟩ := List.append_of_mem hy
  have hs := List.countP_mono_left fun z hz => h z (List.mem_append_left _ hz)
  have ht := List.countP_mono_left fun z hz =>
    h z (List.mem_append_right _ (List.mem_cons_of_mem _ hz))
  rw [List.countP_append, List.countP_append, List.countP_cons_of_neg (by simp [hp]),
    List.countP_cons_of_pos hq]
  omega

section
variable {r} {k : Nat} {l s : List α}

theorem Keeps.refl (k : Nat) (l : List α) : Keeps r k l l where
  sub := List.Subset.refl l
  rest := fun _ hx => Or.inl hx

theorem before_append (l m : List α) (x : α) :
    before r (l ++ m) x = before r l x + before r m x := List.countP_append

/-- Parts of two lists. -/
theorem Keeps.concat (h : Keeps r k l s) {m t : List α} (hm : Keeps r k m t) :
    Keeps r k (l ++ m) (s ++ t) where
  sub := List.append_subset.mpr ⟨fun _ hx => List.mem_append_left m (h.sub hx),
    fun _ hx => List.mem_append_right l (hm.sub hx)⟩
  rest := by
    intro x hx
    rw [before_append]
    rcases List.mem_append.mp hx with hx | hx
    · rcases h.rest x hx with hs | hk
      · exact Or.inl (List.mem_append_left t hs)
      · exact Or.inr (by omega)
    · rcases hm.rest x hx with ht | hk
      · exact Or.inl (List.mem_append_right s ht)
      · exact Or.inr (by omega)

/-- Reading on, and keeping what is read. -/
theorem Keeps.append (h : Keeps r k l s) (m : List α) : Keeps r k (l ++ m) (s ++ m) :=
  h.concat (Keeps.refl k m)

/-- Reading on past elements that have enough before them. -/
theorem Keeps.skip (h : Keeps r k l s) {m : List α} (hm : ∀ x ∈ m, k ≤ before r l x) :
    Keeps r k (l ++ m) s where
  sub := fun y hy => List.mem_append_left m (h.sub hy)
  rest := by
    intro y hy
    rw [before_append]
    rcases List.mem_append.mp hy with hy | hy
    · exact (h.rest y hy).imp_right fun hb => hb.trans (Nat.le_add_right _ _)
    · exact Or.inr ((hm y hy).trans (Nat.le_add_right _ _))

/-- Cutting a part where what goes has enough of the part before it. -/
theorem Keeps.shrink (h : Keeps r k l s) (hk : s.Subperm l) {s' : List α} (hsub : s' ⊆ s)
    (hcut : ∀ x ∈ s, x ∈ s' ∨ k ≤ before r s x) : Keeps r k l s' where
  sub := fun _ hx => h.sub (hsub hx)
  rest := by
    intro x hx
    rcases h.rest x hx with hs | hb
    · exact (hcut x hs).imp_right fun hb => hb.trans (hk.countP_le _)
    · exact Or.inr hb

/-- What lies behind an element has before it all that is up to the element. -/
theorem countP_le_before [IsTrans α r] (l : List α) {x e : α} (hx : ¬ r x e) :
    l.countP (fun y => decide (r y e)) ≤ before r l x := by
  refine List.countP_mono_left fun y _ hy => ?_
  rw [decide_eq_true_eq] at hy
  rw [Bool.not_eq_true', decide_eq_false_iff_not]
  exact fun hxy => hx (trans_of r hxy hy)

theorem before_perm {m : List α} (h : l.Perm m) (x : α) : before r l x = before r m x := h.countP_eq _

/-- Only what the list holds matters, not the order it holds it in. -/
theorem Keeps.perm {l' s' : List α} (h : Keeps r k l s) (hl : l.Perm l') (hs : s.Perm s') :
    Keeps r k l' s' where
  sub := fun x hx => hl.subset (h.sub (hs.symm.subset hx))
  rest := by
    intro x hx
    rw [← before_perm hl]
    exact (h.rest x (hl.symm.subset hx)).imp_left fun hx => hs.subset hx

end

section
variable {r} {k : Nat} {l s : List α}

/-- A sorted list is its own first elements. -/
theorem first_of_sorted (hl : l.Pairwise r) (k : Nat) : Search.first r k l = l.take k := by
  unfold Search.first
  rw [hl.insertionSort_eq]

variable [Std.Total r] [IsTrans α r]

/-- What is left out of the first `k` has `k` elements before it. -/
theorem le_before_of_dropped {x : α} (hanti : ∀ a b, r a b → r b a → a = b) (hl : l.Nodup)
    (hx : x ∈ (l.insertionSort r).drop k) : k ≤ before r l x := by
  have hperm := List.perm_insertionSort r l
  have hsorted := List.pairwise_insertionSort r l
  have hnodup : (l.insertionSort r).Nodup := hperm.nodup_iff.mpr hl
  rw [← List.take_append_drop k (l.insertionSort r)] at hsorted hnodup
  have hcross := (List.pairwise_append.mp hsorted).2.2
  have hapart := (List.nodup_append.mp hnodup).2.2
  have hlen : k ≤ ((l.insertionSort r).take k).length := by
    have := List.length_pos_of_mem hx
    rw [List.length_drop] at this
    rw [List.length_take]
    omega
  have hall : ((l.insertionSort r).take k).countP (fun y => !decide (r x y)) =
      ((l.insertionSort r).take k).length := by
    rw [List.countP_eq_length]
    intro y hy
    rw [Bool.not_eq_true', decide_eq_false_iff_not]
    intro hxy
    exact hapart y hy x hx (hanti y x (hcross y hy x hx) hxy)
  calc k ≤ ((l.insertionSort r).take k).countP (fun y => !decide (r x y)) := by omega
    _ ≤ (l.insertionSort r).countP (fun y => !decide (r x y)) :=
        (List.take_sublist k _).countP_le
    _ = before r l x := before_perm hperm x

/-- What is among the first `k` has fewer than `k` before it. -/
theorem before_lt_of_mem_first {x : α} (hx : x ∈ first r k l) : before r l x < k := by
  have hsorted := List.pairwise_insertionSort r l
  rw [← before_perm (List.perm_insertionSort r l) x]
  unfold first at hx
  generalize l.insertionSort r = L at hsorted hx ⊢
  obtain ⟨i, hi, rfl⟩ := List.getElem_of_mem hx
  rw [List.length_take] at hi
  rw [List.getElem_take]
  have hilt : i < L.length := by omega
  -- from the element on, nothing comes before it
  have hsplit : before r L L[i] = before r (L.take i) L[i] + before r (L.drop i) L[i] := by
    rw [← before_append, List.take_append_drop]
  have hrest : before r (L.drop i) L[i] = 0 := by
    unfold before
    rw [List.countP_eq_zero]
    intro y hy
    obtain ⟨j, hj, rfl⟩ := List.getElem_of_mem hy
    rw [List.getElem_drop, Bool.not_eq_true', Bool.not_eq_false, decide_eq_true_eq]
    rcases Nat.eq_zero_or_pos j with rfl | hpos
    · exact (or_self _).mp (Std.Total.total L[i] L[i])
    · exact List.pairwise_iff_getElem.mp hsorted i (i + j) hilt _ (by omega)
  have hle : before r (L.take i) L[i] ≤ i := by
    refine le_trans List.countP_le_length ?_
    rw [List.length_take]
    omega
  omega

/-- The order a list comes in does not matter. -/
theorem first_perm (hanti : ∀ a b, r a b → r b a → a = b) {m : List α} (h : l.Perm m) (k : Nat) :
    Search.first r k l = Search.first r k m := by
  unfold Search.first
  congr 1
  refine List.Perm.eq_of_pairwise (fun a b _ _ => hanti a b) (List.pairwise_insertionSort r l)
    (List.pairwise_insertionSort r m) ?_
  exact ((List.perm_insertionSort r l).trans h).trans (List.perm_insertionSort r m).symm

/-- The first ones are their own first ones, in whatever order they are handed over. -/
theorem first_of_perm_first (hanti : ∀ a b, r a b → r b a → a = b) {m : List α}
    (h : m.Perm (Search.first r k l)) : Search.first r k m = Search.first r k l := by
  rw [first_perm hanti h, first_of_sorted]
  · unfold Search.first
    rw [List.take_take, Nat.min_self]
  · exact (List.pairwise_insertionSort r l).sublist (List.take_sublist _ _)

/-- **The first ones of the part are the first ones of the whole.** -/
theorem Keeps.first (hanti : ∀ a b, r a b → r b a → a = b) (hl : l.Nodup) (hs : s.Nodup)
    (h : Keeps r k l s) : Search.first r k s = Search.first r k l := by
  classical
  have hL := List.perm_insertionSort r l
  -- what is kept of the sorted list is the sorted part
  have hsort : s.insertionSort r = (l.insertionSort r).filter (· ∈ s) := by
    have hsorted : (s.insertionSort r).Pairwise r := List.pairwise_insertionSort r s
    have hkept : ((l.insertionSort r).filter (· ∈ s)).Pairwise r :=
      (List.pairwise_insertionSort r l).filter _
    refine List.Perm.eq_of_pairwise (fun a b _ _ => hanti a b) hsorted hkept ?_
    refine (List.perm_insertionSort r s).trans ?_
    rw [List.perm_ext_iff_of_nodup hs ((hL.nodup_iff.mpr hl).filter _)]
    intro x
    rw [List.mem_filter, decide_eq_true_eq, hL.mem_iff]
    exact ⟨fun hx => ⟨h.sub hx, hx⟩, fun hx => hx.2⟩
  have hfirst : ((l.insertionSort r).take k).filter (· ∈ s) = (l.insertionSort r).take k := by
    rw [List.filter_eq_self]
    intro x hx
    have hlt : before r l x < k := before_lt_of_mem_first hx
    rcases h.rest x (hL.subset (List.mem_of_mem_take hx)) with hxs | hle
    · exact decide_eq_true hxs
    · omega
  unfold Search.first
  rw [hsort]
  conv_lhs => rw [← List.take_append_drop k (l.insertionSort r), List.filter_append, hfirst]
  rw [List.take_append]
  rcases Nat.lt_or_ge (l.insertionSort r).length k with hlt | hge
  · rw [List.drop_eq_nil_of_le (by omega), List.filter_nil, List.take_nil, List.append_nil,
      List.take_of_length_le (by rw [List.length_take]; omega)]
  · rw [List.length_take, Nat.min_eq_left hge, Nat.sub_self, List.take_zero, List.append_nil,
      List.take_of_length_le (by rw [List.length_take]; omega)]

end

section
variable {lt : α → α → Prop} [DecidableRel lt]

/-- In a list sorted by a strict order an element stands behind as many as come before it. -/
theorem countP_getElem {l : List α} (hl : l.Pairwise lt) (hasymm : ∀ a b, lt a b → ¬ lt b a) {i : Nat}
    (hi : i < l.length) : l.countP (fun y => decide (lt y l[i])) = i := by
  have hfront : (l.take i).countP (fun y => decide (lt y l[i])) = i := by
    rw [List.countP_eq_length.mpr, List.length_take]
    · omega
    · intro y hy
      obtain ⟨j, hj, rfl⟩ := List.getElem_of_mem hy
      rw [List.length_take] at hj
      rw [List.getElem_take, decide_eq_true_eq]
      exact List.pairwise_iff_getElem.mp hl j i (by omega) hi (by omega)
  have hrest : (l.drop i).countP (fun y => decide (lt y l[i])) = 0 := by
    rw [List.countP_eq_zero]
    intro y hy
    obtain ⟨j, hj, rfl⟩ := List.getElem_of_mem hy
    rw [List.length_drop] at hj
    rw [List.getElem_drop, decide_eq_true_eq]
    intro hlt
    rcases Nat.eq_zero_or_pos j with rfl | hpos
    · exact hasymm _ _ hlt hlt
    · exact hasymm _ _ hlt (List.pairwise_iff_getElem.mp hl i (i + j) hi (by omega) (by omega))
  conv_lhs => arg 2; rw [← List.take_append_drop i l]
  rw [List.countP_append, hfront, hrest, Nat.add_zero]

/-- The first `k` are those with fewer than `k` before them. -/
theorem mem_take_iff_countP {l : List α} (hl : l.Pairwise lt) (hasymm : ∀ a b, lt a b → ¬ lt b a)
    {x : α} (hx : x ∈ l) (k : Nat) : x ∈ l.take k ↔ l.countP (fun y => decide (lt y x)) < k := by
  constructor
  · intro h
    obtain ⟨i, hi, rfl⟩ := List.getElem_of_mem h
    rw [List.length_take] at hi
    rw [List.getElem_take, countP_getElem hl hasymm]
    omega
  · intro h
    obtain ⟨i, hi, rfl⟩ := List.getElem_of_mem hx
    rw [countP_getElem hl hasymm hi] at h
    exact List.mem_take_iff_getElem.mpr ⟨i, by omega, rfl⟩

end

end Search
