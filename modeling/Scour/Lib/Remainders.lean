import Mathlib.Algebra.Order.BigOperators.Group.List
import Mathlib.Algebra.Order.Ring.Nat
import Mathlib.Data.List.Perm.Basic
import Mathlib.Data.List.Range

/-!
# Largest remainders

`whole` units shared out in proportion: each value gets its proportion rounded down, and the units
that this leaves over go, one each, to the values with the largest remainders, the earlier value
first where remainders are equal.

What is left over is as many units as the remainders make together, and a remainder is less than a
unit: so it is fewer units than there are values with a remainder (`pos_of_mem_take`).  That is why
nobody gets more than the proportion rounded up (`apportion_near`).
-/

namespace Search

/-- One step up for each position of a list. -/
def handOut {α : Type} (f : α → α) (us : List α) (is : List ℕ) : List α :=
  is.foldl (fun us i => us.modify i f) us

section
variable {α β : Type} {f : α → α}

@[simp] theorem handOut_nil (us : List α) : handOut f us [] = us := rfl

@[simp] theorem handOut_cons (us : List α) (i : ℕ) (is : List ℕ) :
    handOut f us (i :: is) = handOut f (us.modify i f) is := rfl

theorem handOut_length (us : List α) (is : List ℕ) : (handOut f us is).length = us.length := by
  induction is generalizing us with
  | nil => rfl
  | cons i is ih => rw [handOut_cons, ih, List.length_modify]

/-- Each position goes up once. -/
theorem handOut_getElem? {is : List ℕ} (h : is.Nodup) (us : List α) (j : ℕ) :
    (handOut f us is)[j]? = if j ∈ is then us[j]?.map f else us[j]? := by
  induction is generalizing us with
  | nil => rfl
  | cons i is ih =>
    obtain ⟨hi, his⟩ := List.nodup_cons.mp h
    rw [handOut_cons, ih his]
    by_cases hj : j = i
    · subst hj
      rw [if_neg hi, if_pos List.mem_cons_self, List.getElem?_modify_eq]
      rfl
    · have hmem : j ∈ i :: is ↔ j ∈ is := by rw [List.mem_cons, or_iff_right hj]
      rw [List.getElem?_modify_ne f us (Ne.symm hj), if_congr hmem rfl rfl]

theorem handOut_map {is : List ℕ} (h : is.Nodup) {us : List α} {f' : β → β} {g : α → β}
    (hfg : ∀ i ∈ is, ∀ u, us[i]? = some u → g (f u) = f' (g u)) :
    (handOut f us is).map g = handOut f' (us.map g) is := by
  refine List.ext_getElem? fun j => ?_
  rw [List.getElem?_map, handOut_getElem? h, handOut_getElem? h, List.getElem?_map]
  split
  · rename_i hj
    cases hu : us[j]? with
    | none => rfl
    | some u => exact congrArg some (hfg j hj u hu)
  · rfl

end

theorem sum_modify {us : List ℕ} {i : ℕ} (h : i < us.length) :
    (us.modify i (· + 1)).sum = us.sum + 1 := by
  induction us generalizing i with
  | nil => exact absurd h (Nat.not_lt_zero _)
  | cons u us ih =>
    cases i with
    | zero =>
      rw [List.modify_zero_cons, List.sum_cons, List.sum_cons]
      omega
    | succ i =>
      rw [List.modify_succ_cons, List.sum_cons, List.sum_cons, ih (Nat.lt_of_succ_lt_succ h)]
      omega

theorem handOut_sum {us is : List ℕ} (h : ∀ i ∈ is, i < us.length) :
    (handOut (· + 1) us is).sum = us.sum + is.length := by
  induction is generalizing us with
  | nil => rfl
  | cons i is ih =>
    rw [handOut_cons, ih, sum_modify (h i List.mem_cons_self), List.length_cons]
    · omega
    · intro j hj
      rw [List.length_modify]
      exact h j (List.mem_cons_of_mem _ hj)

/-! ## The shares -/

/-- The proportions rounded down. -/
def floors (vs : List ℕ) (whole : ℕ) : List ℕ := vs.map fun v => v * whole / vs.sum

/-- What rounding down leaves of each, with its position. -/
def remainders (vs : List ℕ) (whole : ℕ) : List (ℕ × ℕ) :=
  vs.zipIdx.map fun x => (x.1 * whole % vs.sum, x.2)

/-- The larger remainder first, then the earlier position. -/
def sooner (a b : ℕ × ℕ) : Bool := b.1 < a.1 || (a.1 = b.1 && a.2 ≤ b.2)

/-- The positions in the order in which the units left over are given to them. -/
def byRemainder (vs : List ℕ) (whole : ℕ) : List (ℕ × ℕ) := (remainders vs whole).mergeSort sooner

/-- The units that rounding down leaves over. -/
def leftOver (vs : List ℕ) (whole : ℕ) : ℕ := whole - (floors vs whole).sum

/-- `whole` units shared out in proportion to `vs`. -/
def apportion (vs : List ℕ) (whole : ℕ) : List ℕ :=
  handOut (· + 1) (floors vs whole) (((byRemainder vs whole).take (leftOver vs whole)).map (·.2))

variable {vs : List ℕ} {whole : ℕ}

theorem sooner_iff {a b : ℕ × ℕ} : sooner a b = true ↔ b.1 < a.1 ∨ a.1 = b.1 ∧ a.2 ≤ b.2 := by
  simp only [sooner, Bool.or_eq_true, Bool.and_eq_true, decide_eq_true_eq]

theorem sooner_trans (a b c : ℕ × ℕ) (hab : sooner a b = true) (hbc : sooner b c = true) :
    sooner a c = true := by
  rw [sooner_iff] at *
  omega

theorem sooner_total (a b : ℕ × ℕ) : (sooner a b || sooner b a) = true := by
  rw [Bool.or_eq_true, sooner_iff, sooner_iff]
  omega

theorem byRemainder_perm (vs : List ℕ) (whole : ℕ) : (byRemainder vs whole).Perm (remainders vs whole) :=
  List.mergeSort_perm _ _

theorem byRemainder_pairwise (vs : List ℕ) (whole : ℕ) :
    (byRemainder vs whole).Pairwise fun a b => sooner a b = true :=
  List.pairwise_mergeSort sooner_trans sooner_total _

theorem mem_remainders {x : ℕ × ℕ} :
    x ∈ remainders vs whole ↔ ∃ v, vs[x.2]? = some v ∧ x.1 = v * whole % vs.sum := by
  obtain ⟨r, i⟩ := x
  simp only [remainders, List.mem_map, Prod.exists, Prod.mk.injEq, List.mem_zipIdx_iff_getElem?]
  constructor
  · rintro ⟨v, j, hv, rfl, rfl⟩
    exact ⟨v, hv, rfl⟩
  · rintro ⟨v, hv, rfl⟩
    exact ⟨v, i, hv, rfl, rfl⟩

theorem remainders_length (vs : List ℕ) (whole : ℕ) :
    (remainders vs whole).length = vs.length := by
  rw [remainders, List.length_map, List.length_zipIdx]

theorem byRemainder_length (vs : List ℕ) (whole : ℕ) : (byRemainder vs whole).length = vs.length :=
  (byRemainder_perm vs whole).length_eq.trans (remainders_length vs whole)

/-- The positions, each once. -/
theorem byRemainder_positions (vs : List ℕ) (whole : ℕ) : ((byRemainder vs whole).map (·.2)).Nodup := by
  have hpos : (remainders vs whole).map (·.2) = List.range' 0 vs.length := by
    rw [remainders, List.map_map]
    exact List.zipIdx_map_snd 0 vs
  refine ((byRemainder_perm vs whole).map _).nodup_iff.mpr ?_
  rw [hpos]
  exact List.nodup_range'

theorem taken_positions (vs : List ℕ) (whole n : ℕ) :
    (((byRemainder vs whole).take n).map (·.2)).Nodup :=
  ((List.take_sublist _ _).map _).nodup (byRemainder_positions vs whole)

theorem mem_taken {n i : ℕ} : i ∈ ((byRemainder vs whole).take n).map (·.2) →
    ∃ v, vs[i]? = some v ∧ (v * whole % vs.sum, i) ∈ (byRemainder vs whole).take n := by
  intro h
  obtain ⟨⟨r, j⟩, hx, rfl⟩ := List.mem_map.mp h
  obtain ⟨v, hv, hr⟩ := mem_remainders.mp ((byRemainder_perm vs whole).mem_iff.mp
    (List.mem_of_mem_take hx))
  exact ⟨v, hv, hr ▸ hx⟩

/-- What comes sooner than something taken is taken too. -/
theorem taken_of_sooner {n : ℕ} {a b : ℕ × ℕ} (ha : a ∈ byRemainder vs whole)
    (hb : b ∈ (byRemainder vs whole).take n) (hab : sooner b a = false) :
    a ∈ (byRemainder vs whole).take n := by
  rw [← List.take_append_drop n (byRemainder vs whole), List.mem_append] at ha
  refine ha.resolve_right fun ha => ?_
  have hpair := byRemainder_pairwise vs whole
  rw [← List.take_append_drop n (byRemainder vs whole), List.pairwise_append] at hpair
  have hba := hpair.2.2 b hb a ha
  rw [hab] at hba
  cases hba

/-! ## What is left over -/

theorem floors_add_remainders (vs : List ℕ) (whole s : ℕ) :
    s * (vs.map fun v => v * whole / s).sum + (vs.map fun v => v * whole % s).sum =
      vs.sum * whole := by
  induction vs with
  | nil => simp
  | cons v vs ih =>
    have hv := Nat.div_add_mod (v * whole) s
    simp only [List.map_cons, List.sum_cons, Nat.mul_add, Nat.add_mul]
    omega

theorem remainders_sum (vs : List ℕ) (whole : ℕ) :
    ((remainders vs whole).map (·.1)).sum = (vs.map fun v => v * whole % vs.sum).sum := by
  rw [remainders, List.map_map]
  conv_rhs => rw [← List.zipIdx_map_fst 0 vs, List.map_map]
  rw [List.zipIdx_map_fst]
  rfl

theorem floors_sum_le (h : 0 < vs.sum) (whole : ℕ) : (floors vs whole).sum ≤ whole := by
  have hsum := floors_add_remainders vs whole vs.sum
  exact Nat.le_of_mul_le_mul_left (Nat.le.intro hsum) h

theorem byRemainder_sum (vs : List ℕ) (whole : ℕ) :
    ((byRemainder vs whole).map (·.1)).sum = vs.sum * leftOver vs whole := by
  have hsum := floors_add_remainders vs whole vs.sum
  rw [((byRemainder_perm vs whole).map _).sum_eq, remainders_sum, leftOver, Nat.mul_sub]
  exact (Nat.sub_eq_of_eq_add (by rw [← hsum, Nat.add_comm]; rfl)).symm

theorem sum_lt_of_forall_lt {l : List ℕ} {b : ℕ} (hl : l ≠ []) (h : ∀ x ∈ l, x < b) :
    l.sum < b * l.length := by
  induction l with
  | nil => exact absurd rfl hl
  | cons x l ih =>
    have hx := h x List.mem_cons_self
    rw [List.sum_cons, List.length_cons, Nat.mul_succ]
    by_cases hnil : l = []
    · subst hnil
      simpa using hx
    · have := ih hnil fun y hy => h y (List.mem_cons_of_mem _ hy)
      omega

theorem byRemainder_lt (h : 0 < vs.sum) {r : ℕ} (hr : r ∈ (byRemainder vs whole).map (·.1)) :
    r < vs.sum := by
  obtain ⟨x, hx, rfl⟩ := List.mem_map.mp hr
  obtain ⟨v, -, hv⟩ := mem_remainders.mp ((byRemainder_perm vs whole).mem_iff.mp hx)
  exact hv ▸ Nat.mod_lt _ h

theorem leftOver_le (h : 0 < vs.sum) : leftOver vs whole ≤ vs.length := by
  by_cases hnil : (byRemainder vs whole).map (·.1) = []
  · have hlen := congrArg List.length hnil
    rw [List.length_map, byRemainder_length] at hlen
    rw [List.length_eq_zero_iff.mp hlen] at h
    exact absurd h (Nat.lt_irrefl 0)
  · have hlt := sum_lt_of_forall_lt hnil fun r hr => byRemainder_lt h hr
    rw [byRemainder_sum, List.length_map, byRemainder_length] at hlt
    exact (Nat.lt_of_mul_lt_mul_left hlt).le

/-- Who gets a unit has a remainder. -/
theorem pos_of_mem_take (h : 0 < vs.sum) {x : ℕ × ℕ}
    (hx : x ∈ (byRemainder vs whole).take (leftOver vs whole)) : 0 < x.1 := by
  refine Nat.pos_of_ne_zero fun hzero => ?_
  -- then the remainders behind it are zero, and those before it too few for what is left over
  have hsplit := List.take_append_drop (leftOver vs whole) (byRemainder vs whole)
  have hdrop : (((byRemainder vs whole).drop (leftOver vs whole)).map (·.1)).sum = 0 := by
    refine List.sum_eq_zero fun r hr => ?_
    obtain ⟨y, hy, rfl⟩ := List.mem_map.mp hr
    have hpair := byRemainder_pairwise vs whole
    rw [← hsplit, List.pairwise_append] at hpair
    have hxy := sooner_iff.mp (hpair.2.2 x hx y hy)
    omega
  have hsum := byRemainder_sum vs whole
  rw [← hsplit, List.map_append, List.sum_append, hdrop, Nat.add_zero] at hsum
  have hne : ((byRemainder vs whole).take (leftOver vs whole)).map (·.1) ≠ [] :=
    List.ne_nil_of_mem (List.mem_map_of_mem hx)
  have hlt := sum_lt_of_forall_lt hne fun r hr => by
    obtain ⟨y, hy, rfl⟩ := List.mem_map.mp hr
    exact byRemainder_lt h (List.mem_map_of_mem (List.mem_of_mem_take hy))
  rw [hsum, List.length_map, List.length_take] at hlt
  exact absurd (Nat.lt_of_mul_lt_mul_left hlt) (by omega)

/-! ## What each gets -/

theorem apportion_length (vs : List ℕ) (whole : ℕ) : (apportion vs whole).length = vs.length := by
  rw [apportion, handOut_length, floors, List.length_map]

theorem apportion_sum (h : 0 < vs.sum) : (apportion vs whole).sum = whole := by
  have hfloors := floors_sum_le h whole
  rw [apportion, handOut_sum, List.length_map, List.length_take, byRemainder_length,
    Nat.min_eq_left (leftOver_le h), leftOver]
  · omega
  · intro i hi
    obtain ⟨v, hv, -⟩ := mem_taken hi
    rw [floors, List.length_map]
    exact (List.getElem?_eq_some_iff.mp hv).1

theorem apportion_getElem? (vs : List ℕ) (whole i : ℕ) : (apportion vs whole)[i]? =
    vs[i]?.map fun v => v * whole / vs.sum +
      if i ∈ ((byRemainder vs whole).take (leftOver vs whole)).map (·.2) then 1 else 0 := by
  rw [apportion, handOut_getElem? (taken_positions _ _ _), floors, List.getElem?_map]
  split
  · rw [Option.map_map]
    rfl
  · rfl

theorem apportion_zero (vs : List ℕ) : apportion vs 0 = List.replicate vs.length 0 := by
  have hleft : leftOver vs 0 = 0 := Nat.zero_sub _
  rw [apportion, hleft, List.take_zero, List.map_nil, handOut_nil, floors]
  exact List.map_eq_replicate_iff.mpr fun v _ => by rw [Nat.mul_zero, Nat.zero_div]

/-- A share is its proportion rounded down, or up where it is not whole. -/
theorem apportion_near (h : 0 < vs.sum) {i v p : ℕ} (hv : vs[i]? = some v)
    (hp : (apportion vs whole)[i]? = some p) :
    p = v * whole / vs.sum ∨ p = v * whole / vs.sum + 1 ∧ ¬ vs.sum ∣ v * whole := by
  rw [apportion_getElem?, hv, Option.map_some, Option.some.injEq] at hp
  split at hp
  · rename_i hi
    obtain ⟨v', hv', hx⟩ := mem_taken hi
    obtain rfl := Option.some.inj (hv.symm.trans hv')
    refine Or.inr ⟨hp.symm, fun hdvd => ?_⟩
    exact absurd (Nat.mod_eq_zero_of_dvd hdvd) (pos_of_mem_take h hx).ne'
  · exact Or.inl hp.symm

/-- A value at least as large as a later one gets at least as much. -/
theorem apportion_mono {i j v w p q : ℕ} (hij : i < j) (hvw : w ≤ v)
    (hv : vs[i]? = some v) (hw : vs[j]? = some w) (hp : (apportion vs whole)[i]? = some p)
    (hq : (apportion vs whole)[j]? = some q) : q ≤ p := by
  rw [apportion_getElem?, hv, Option.map_some, Option.some.injEq] at hp
  rw [apportion_getElem?, hw, Option.map_some, Option.some.injEq] at hq
  have hmul : w * whole ≤ v * whole := Nat.mul_le_mul_right _ hvw
  have hdiv : w * whole / vs.sum ≤ v * whole / vs.sum := Nat.div_le_div_right hmul
  by_cases hlt : w * whole / vs.sum < v * whole / vs.sum
  · split at hp <;> split at hq <;> omega
  -- the same whole units: the remainders decide, and the unit goes to `i` first
  · have hsame := Nat.le_antisymm hdiv (not_lt.mp hlt)
    have hdm := Nat.div_add_mod (v * whole) vs.sum
    have hdm' := Nat.div_add_mod (w * whole) vs.sum
    rw [hsame] at hdm'
    have himp : j ∈ ((byRemainder vs whole).take (leftOver vs whole)).map (·.2) →
        i ∈ ((byRemainder vs whole).take (leftOver vs whole)).map (·.2) := by
      intro hj
      obtain ⟨w', hw', hx⟩ := mem_taken hj
      obtain rfl := Option.some.inj (hw.symm.trans hw')
      refine List.mem_map.mpr ⟨(v * whole % vs.sum, i), ?_, rfl⟩
      refine taken_of_sooner ((byRemainder_perm vs whole).mem_iff.mpr ?_) hx ?_
      · exact mem_remainders.mpr ⟨v, hv, rfl⟩
      · rw [Bool.eq_false_iff, Ne, sooner_iff]
        dsimp only
        omega
    by_cases hj : j ∈ ((byRemainder vs whole).take (leftOver vs whole)).map (·.2)
    · rw [if_pos hj] at hq
      rw [if_pos (himp hj)] at hp
      omega
    · rw [if_neg hj] at hq
      split at hp <;> omega

/-- Shares of a whole as they should be. -/
structure Apportioned (vs : List ℕ) (whole : ℕ) (ps : List ℕ) : Prop where
  length : ps.length = vs.length
  sum : ps.sum = whole
  near : ∀ i v p : ℕ, vs[i]? = some v → ps[i]? = some p →
    p = v * whole / vs.sum ∨ p = v * whole / vs.sum + 1 ∧ ¬ vs.sum ∣ v * whole
  mono : ∀ i j v w p q : ℕ, i < j → w ≤ v → vs[i]? = some v → vs[j]? = some w →
    ps[i]? = some p → ps[j]? = some q → q ≤ p

theorem apportion_apportioned (h : 0 < vs.sum) (whole : ℕ) :
    Apportioned vs whole (apportion vs whole) where
  length := apportion_length vs whole
  sum := apportion_sum h
  near _ _ _ hv hp := apportion_near h hv hp
  mono _ _ _ _ _ _ hij hvw hv hw hp hq := apportion_mono hij hvw hv hw hp hq

/-- Who gets a unit had less than everything. -/
theorem floor_lt_of_taken (h : 0 < vs.sum) {i v : ℕ} (hv : vs[i]? = some v)
    (hi : i ∈ ((byRemainder vs whole).take (leftOver vs whole)).map (·.2)) :
    v * whole / vs.sum < whole := by
  have hshare := apportion_getElem? vs whole i
  rw [hv, Option.map_some, if_pos hi] at hshare
  have hle := List.le_sum_of_mem (List.mem_of_getElem? hshare)
  rw [apportion_sum h] at hle
  exact hle

end Search
