import Mathlib.Algebra.BigOperators.Intervals
import Mathlib.Data.List.GetD

/-!
# Rolling up totals with a stack

Items are numbered, and `keep i d` says that item `i` lies inside item `d`.  One pass holds a stack
of the items still open: an item closes everything it does not lie inside, and what closes adds its
total to the item under it on the stack.

What comes out is the sum over an unbroken run (`rollUp_getD`): an item's total is its own and
that of the items after it, up to the first that does not lie inside it.  Nothing after that one is
counted, whether it lies inside or not.
-/

namespace Search

open Finset

variable {M : Type*} [AddCommMonoid M]

/-- Add the total of `top` to the item under it. -/
def addUp (total : List M) (top : Nat) : List Nat → List M
  | [] => total
  | parent :: _ => total.modify parent (· + total.getD top 0)

/-- Close the open items up to the first to keep. -/
def closeOver (keep : Nat → Bool) : List Nat → List M → List Nat × List M
  | [], total => ([], total)
  | top :: stack, total =>
      if keep top then (top :: stack, total) else closeOver keep stack (addUp total top stack)

/-- Take the items in turn. -/
def openAll (keep : Nat → Nat → Bool) : List Nat → List Nat × List M → List Nat × List M
  | [], s => s
  | id :: ids, s =>
      let s := closeOver (keep id) s.1 s.2
      openAll keep ids (id :: s.1, s.2)

/-- The totals of every item, from what each holds itself. -/
def rollUp (keep : Nat → Nat → Bool) (own : List M) : List M :=
  let s := openAll keep (List.range own.length) ([], own)
  (closeOver (fun _ => false) s.1 s.2).2

example : rollUp (fun i d => d = 0 || (d = 1 && i = 2)) [1, 2, 3, 4] = [10, 5, 3, 4] := by decide

/-- What the items from `d` up to `e` hold. -/
def span (own : List M) (d e : Nat) : M := ∑ i ∈ Ico d e, own.getD i 0

theorem span_consecutive (own : List M) {d m e : Nat} (h1 : d ≤ m) (h2 : m ≤ e) :
    span own d m + span own m e = span own d e := sum_Ico_consecutive _ h1 h2

@[simp] theorem span_succ_self (own : List M) (d : Nat) : span own d (d + 1) = own.getD d 0 := by
  simp [span]

theorem span_eq_sum (own : List M) (d e : Nat) : span own d e = ((own.take e).drop d).sum := by
  induction e with
  | zero => simp [span]
  | succ e ih =>
    rcases Nat.lt_or_ge e d with h | h
    · rw [span, Ico_eq_empty (by omega), List.drop_eq_nil_of_le (by simp; omega)]
      rfl
    · rw [← span_consecutive own h (Nat.le_succ e), ih, span_succ_self, List.take_add_one]
      rcases Nat.lt_or_ge e own.length with hlt | hge
      · rw [List.drop_append_of_le_length (by simp; omega), List.sum_append,
          List.getD_eq_getElem _ _ hlt, List.getElem?_eq_getElem hlt]
        simp
      · rw [List.getElem?_eq_none hge, List.getD_eq_default _ _ hge]
        simp

/-- The open items, innermost first: each holds what lies between it and the next one in. -/
def Runs (own total : List M) : List Nat → Nat → Prop
  | [], _ => True
  | top :: stack, n => top < n ∧ total.getD top 0 = span own top n ∧ Runs own total stack top

theorem Runs.lt {own total : List M} : ∀ {stack : List Nat} {n : Nat}, Runs own total stack n →
    ∀ d ∈ stack, d < n
  | [], _, _, d, hd => absurd hd List.not_mem_nil
  | top :: stack, n, ⟨h1, _, h3⟩, d, hd => by
    rcases List.mem_cons.mp hd with rfl | hd
    · exact h1
    · exact lt_trans (h3.lt d hd) h1

/-- Only the totals of the open items matter. -/
theorem Runs.congr {own total total' : List M} : ∀ {stack : List Nat} {n : Nat},
    (∀ d ∈ stack, total'.getD d 0 = total.getD d 0) → Runs own total stack n →
      Runs own total' stack n
  | [], _, _, _ => trivial
  | top :: _, _, h, ⟨h1, h2, h3⟩ =>
    ⟨h1, (h top List.mem_cons_self).trans h2, h3.congr fun d hd => h d (List.mem_cons_of_mem _ hd)⟩

@[simp] theorem length_addUp (total : List M) (top : Nat) (stack : List Nat) :
    (addUp total top stack).length = total.length := by
  cases stack <;> simp [addUp]

/-- Only the item under the closed one changes. -/
theorem addUp_getD (total : List M) (top d : Nat) (stack : List Nat) (hd : stack.head? ≠ some d) :
    (addUp total top stack).getD d 0 = total.getD d 0 := by
  cases stack with
  | nil => rfl
  | cons parent stack =>
    have hne : parent ≠ d := fun h => hd (by rw [h]; rfl)
    simp [addUp, List.getD_eq_getElem?_getD, hne]

theorem addUp_getD_head (total : List M) (top parent : Nat) (stack : List Nat)
    (hp : parent < total.length) :
    (addUp total top (parent :: stack)).getD parent 0 = total.getD parent 0 + total.getD top 0 := by
  simp [addUp, List.getD_eq_getElem?_getD, hp]

/-- Closing the innermost item leaves its run to the one under it. -/
theorem Runs.addUp {own total : List M} {top n : Nat} {stack : List Nat}
    (hn : n ≤ total.length) (h : Runs own total (top :: stack) n) :
    Runs own (addUp total top stack) stack n := by
  obtain ⟨h1, h2, h3⟩ := h
  cases stack with
  | nil => trivial
  | cons parent stack =>
    obtain ⟨h4, h5, h6⟩ := h3
    refine ⟨lt_trans h4 h1, ?_, ?_⟩
    · rw [addUp_getD_head _ _ _ _ (by omega), h5, h2]
      exact span_consecutive own (le_of_lt h4) (le_of_lt h1)
    · refine Runs.congr (fun d hd => ?_) h6
      apply addUp_getD
      have := h6.lt d hd
      simp only [List.head?_cons, ne_eq, Option.some.injEq]
      omega

/-- What closing leaves: the items from the first to keep, and the totals of the closed ones. -/
theorem closeOver_spec (own : List M) (keep : Nat → Bool) (n : Nat) :
    ∀ (stack : List Nat) (total : List M), n ≤ total.length → Runs own total stack n →
      (closeOver keep stack total).2.length = total.length ∧
      (closeOver keep stack total).1 <:+ stack ∧
      (∀ d ∈ (closeOver keep stack total).1.head?, keep d = true) ∧
      Runs own (closeOver keep stack total).2 (closeOver keep stack total).1 n ∧
      (∀ d ∈ stack, d ∉ (closeOver keep stack total).1 → keep d = false ∧
        (closeOver keep stack total).2.getD d 0 = span own d n) ∧
      ∀ d, d ∉ stack → (closeOver keep stack total).2.getD d 0 = total.getD d 0 := by
  intro stack
  induction stack with
  | nil =>
    intro total _ _
    exact ⟨rfl, List.suffix_refl _, by simp [closeOver], trivial, by simp, fun _ _ => rfl⟩
  | cons top stack ih =>
    intro total hn h
    unfold closeOver
    cases hk : keep top with
    | true =>
      rw [if_pos rfl]
      exact ⟨rfl, List.suffix_refl _, by simpa using hk, h, fun d h1 h2 => absurd h1 h2,
        fun _ _ => rfl⟩
    | false =>
      rw [if_neg (by simp)]
      have hlt := h.2.2.lt
      obtain ⟨i1, i2, i3, i4, i5, i6⟩ :=
        ih (addUp total top stack) (by rwa [length_addUp]) (h.addUp hn)
      have htop : top ∉ stack := fun hm => lt_irrefl _ (hlt top hm)
      have hhead : ∀ d, d ∉ stack → stack.head? ≠ some d := fun d hd hh =>
        hd (List.mem_of_mem_head? hh)
      refine ⟨by rw [i1, length_addUp], i2.trans (List.suffix_cons _ _), i3, i4, ?_, ?_⟩
      · intro d hd hout
        rcases List.mem_cons.mp hd with rfl | hd
        · refine ⟨hk, ?_⟩
          rw [i6 d htop, addUp_getD _ _ _ _ (hhead d htop)]
          exact h.2.1
        · exact i5 d hd hout
      · intro d hd
        rw [List.mem_cons, not_or] at hd
        rw [i6 d hd.2, addUp_getD _ _ _ _ (hhead d hd.2)]

/-- Between two items: the open ones hold their runs so far, the closed ones their whole runs. -/
structure RollInv (keep : Nat → Nat → Bool) (own : List M) (n : Nat) (stack : List Nat)
    (total : List M) : Prop where
  size : total.length = own.length
  runs : Runs own total stack n
  inside : ∀ d ∈ stack, ∀ i, d < i → i < n → keep i d = true
  closed : ∀ d < n, d ∉ stack → ∃ e, d < e ∧ e < n ∧ keep e d = false ∧
    (∀ i, d < i → i < e → keep i d = true) ∧ total.getD d 0 = span own d e
  fresh : ∀ d, n ≤ d → total.getD d 0 = own.getD d 0

theorem RollInv.step {keep : Nat → Nat → Bool} {own total : List M} {n : Nat} {stack : List Nat}
    (htrans : ∀ i j k, keep i j = true → keep j k = true → keep i k = true)
    (hn : n < own.length) (h : RollInv keep own n stack total) :
    RollInv keep own (n + 1) (n :: (closeOver (keep n) stack total).1)
      (closeOver (keep n) stack total).2 := by
  obtain ⟨c1, c2, c3, c4, c5, c6⟩ :=
    closeOver_spec own (keep n) n stack total (by rw [h.size]; omega) h.runs
  have hnew : n ∉ stack := fun hm => lt_irrefl _ (h.runs.lt n hm)
  refine ⟨c1.trans h.size, ⟨Nat.lt_succ_self n, ?_, c4⟩, ?_, ?_, ?_⟩
  · rw [c6 n hnew, h.fresh n (le_refl _), span_succ_self]
  · intro d hd i h1 h2
    rcases List.mem_cons.mp hd with rfl | hd
    · omega
    · rcases Nat.lt_or_eq_of_le (Nat.le_of_lt_succ h2) with h3 | rfl
      · exact h.inside d (c2.subset hd) i h1 h3
      · -- the innermost item kept holds the new one, and lies inside the others
        cases hs : (closeOver (keep i) stack total).1 with
        | nil => rw [hs] at hd; cases hd
        | cons top rest =>
          have htop : keep i top = true := c3 top (by rw [hs]; rfl)
          rw [hs] at hd c4
          rcases List.mem_cons.mp hd with rfl | hd
          · exact htop
          · have hlt := c4.2.2.lt d hd
            have hin : d ∈ stack := c2.subset (by rw [hs]; exact List.mem_cons_of_mem _ hd)
            exact htrans _ _ _ htop (h.inside d hin top hlt c4.1)
  · intro d hd hout
    rw [List.mem_cons, not_or] at hout
    have hdn : d < n := by omega
    by_cases hin : d ∈ stack
    · obtain ⟨h1, h2⟩ := c5 d hin hout.2
      exact ⟨n, hdn, Nat.lt_succ_self n, h1, h.inside d hin, h2⟩
    · obtain ⟨e, h1, h2, h3, h4, h5⟩ := h.closed d hdn hin
      exact ⟨e, h1, by omega, h3, h4, by rw [c6 d hin, h5]⟩
  · intro d hd
    rw [c6 d (fun hm => by have := h.runs.lt d hm; omega)]
    exact h.fresh d (by omega)

theorem RollInv.openAll {keep : Nat → Nat → Bool} {own : List M}
    (htrans : ∀ i j k, keep i j = true → keep j k = true → keep i k = true) :
    ∀ (k n : Nat) (s : List Nat × List M), n + k = own.length →
      RollInv keep own n s.1 s.2 →
      RollInv keep own own.length (openAll keep (List.range' n k) s).1
        (openAll keep (List.range' n k) s).2 := by
  intro k
  induction k with
  | zero =>
    intro n s hk h
    obtain rfl : n = own.length := by omega
    exact h
  | succ k ih =>
    intro n s hk h
    rw [List.range'_succ]
    exact ih (n + 1) _ (by omega) (h.step htrans (by omega))

theorem RollInv.ofStart {keep : Nat → Nat → Bool}
    (htrans : ∀ i j k, keep i j = true → keep j k = true → keep i k = true) (own : List M) :
    RollInv keep own own.length (Search.openAll keep (List.range own.length) ([], own)).1
      (Search.openAll keep (List.range own.length) ([], own)).2 := by
  rw [List.range_eq_range']
  have h : RollInv keep own 0 [] own := ⟨rfl, trivial, by simp, by simp, fun _ _ => rfl⟩
  exact RollInv.openAll htrans own.length 0 ([], own) (Nat.zero_add _) h

/-- **An item's total is the sum of its run**: its own and that of the items after it, up to the
first that does not lie inside it. -/
theorem rollUp_getD (keep : Nat → Nat → Bool) (own : List M)
    (htrans : ∀ i j k, keep i j = true → keep j k = true → keep i k = true) (d : Nat)
    (hd : d < own.length) :
    ∃ e, d < e ∧ e ≤ own.length ∧ (∀ i, d < i → i < e → keep i d = true) ∧
      (e = own.length ∨ keep e d = false) ∧ (rollUp keep own).getD d 0 = span own d e := by
  have h := RollInv.ofStart htrans own
  unfold rollUp
  generalize Search.openAll keep (List.range own.length) ([], own) = s at h
  obtain ⟨-, -, c3, -, c5, c6⟩ :=
    closeOver_spec own (fun _ => false) own.length s.1 s.2 (by rw [h.size]) h.runs
  have hnil : (closeOver (fun _ => false) s.1 s.2).1 = [] := by
    cases hs : (closeOver (fun _ => false) s.1 s.2).1 with
    | nil => rfl
    | cons top rest => exact absurd (c3 top (by rw [hs]; rfl)) (by simp)
  by_cases hin : d ∈ s.1
  · -- still open at the end: its run is everything after it
    exact ⟨own.length, hd, le_refl _, h.inside d hin, Or.inl rfl,
      (c5 d hin (by rw [hnil]; exact List.not_mem_nil)).2⟩
  · obtain ⟨e, h1, h2, h3, h4, h5⟩ := h.closed d hd hin
    exact ⟨e, h1, le_of_lt h2, h4, Or.inr h3, by rw [← h5]; exact c6 d hin⟩

end Search
