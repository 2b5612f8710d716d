import Mathlib.Algebra.Order.BigOperators.Group.List
import Mathlib.Algebra.Order.Ring.Nat
import Scour.Lib.PartitionPoint

/-!
# Tallies in slots

Things are added, each to the slot it belongs to, and a slot's place then tells what is in the slots
before it.  The slots hold machine numbers: `val` is what a number stands for, and an addition is
exact while the sum stays below `bound`.

`foldl_modify` is the tally, `sumsBefore` the running sums, and `partitionPoint_sorted` looks a
place up in a sorted list.
-/

namespace Search

/-! ## Into slots -/

section
variable {α : Type*} (val : α → Nat)

/-- Raising one slot raises the sums that reach past it. -/
theorem sum_take_modify (w : Nat) (f : α → α) :
    ∀ (l : List α) (d i : Nat), d < l.length →
      (∀ x, l[d]? = some x → val (f x) = val x + w) →
      (((l.modify d f).take i).map val).sum =
        ((l.take i).map val).sum + if d < i then w else 0 := by
  intro l
  induction l with
  | nil => exact fun d i h => absurd h (Nat.not_lt_zero d)
  | cons a l ih =>
    intro d i hd hf
    cases i with
    | zero => simp
    | succ i =>
      cases d with
      | zero =>
        have := hf a rfl
        simp only [List.modify_zero_cons, List.take_succ_cons, List.map_cons, List.sum_cons, this]
        rw [if_pos (by omega)]
        omega
      | succ d =>
        have := ih d i (by simpa using hd) fun x hx => hf x (by simpa using hx)
        simp only [List.modify_succ_cons, List.take_succ_cons, List.map_cons, List.sum_cons, this]
        by_cases hdi : d < i
        · rw [if_pos hdi, if_pos (Nat.succ_lt_succ hdi)]
          omega
        · rw [if_neg hdi, if_neg fun h => hdi (Nat.lt_of_succ_lt_succ h)]
          omega

variable {ρ : Type*} (dir : ρ → Nat) (w : ρ → Nat) (add : ρ → α → α) (bound : Nat)

/-- A tally: every slot below a place together holds what was put below it. -/
theorem foldl_modify (hadd : ∀ r x, val x + w r < bound → val (add r x) = val x + w r) :
    ∀ (rs : List ρ) (l : List α), (∀ r ∈ rs, dir r < l.length) →
      (l.map val).sum + (rs.map w).sum < bound →
      (rs.foldl (fun l r => l.modify (dir r) (add r)) l).length = l.length ∧
      ∀ i, (((rs.foldl (fun l r => l.modify (dir r) (add r)) l).take i).map val).sum =
        ((l.take i).map val).sum + ((rs.filter fun r => dir r < i).map w).sum := by
  intro rs
  induction rs with
  | nil => exact fun l _ _ => ⟨rfl, fun i => by simp⟩
  | cons r rs ih =>
    intro l hdir hbound
    have hr := hdir r List.mem_cons_self
    rw [List.map_cons, List.sum_cons] at hbound
    have hslot : ∀ x, l[dir r]? = some x → val (add r x) = val x + w r := by
      intro x hx
      have hle : val x ≤ (l.map val).sum :=
        List.single_le_sum (fun _ _ => Nat.zero_le _) _ (List.mem_map_of_mem (List.mem_of_getElem? hx))
      exact hadd r x (by omega)
    have hsum := fun i => sum_take_modify val (w r) (add r) l (dir r) i hr hslot
    have hall := hsum l.length
    rw [List.take_of_length_le (by simp), List.take_length, if_pos hr] at hall
    obtain ⟨hlen, hfold⟩ := ih (l.modify (dir r) (add r))
      (fun q hq => by
        rw [List.length_modify]
        exact hdir q (List.mem_cons_of_mem _ hq))
      (by omega)
    rw [List.length_modify] at hlen
    refine ⟨hlen, fun i => ?_⟩
    rw [List.foldl_cons, hfold, hsum, List.filter_cons]
    by_cases hi : dir r < i
    · simp [hi]
      omega
    · simp [hi]

end

/-! ## Running sums -/

/-- What is before each place. -/
def sumsBefore {α : Type*} [Add α] : α → List α → List α
  | _, [] => []
  | run, own :: rest => run :: sumsBefore (run + own) rest

section
variable {α : Type*} [Add α] (val : α → Nat) (bound : Nat)

@[simp] theorem length_sumsBefore (run : α) (l : List α) : (sumsBefore run l).length = l.length := by
  induction l generalizing run with
  | nil => rfl
  | cons a l ih => simp [sumsBefore, ih]

theorem getElem?_sumsBefore (hadd : ∀ x y, val x + val y < bound → val (x + y) = val x + val y) :
    ∀ (l : List α) (run : α) (i : Nat), i < l.length → val run + (l.map val).sum < bound →
      ∃ x, (sumsBefore run l)[i]? = some x ∧ val x = val run + ((l.take i).map val).sum := by
  intro l
  induction l with
  | nil => exact fun run i h => absurd h (Nat.not_lt_zero i)
  | cons a l ih =>
    intro run i hi hbound
    rw [List.map_cons, List.sum_cons] at hbound
    cases i with
    | zero => exact ⟨run, rfl, by simp⟩
    | succ i =>
      have hrun := hadd run a (by omega)
      obtain ⟨x, hx, hval⟩ := ih (run + a) i (by simpa using hi) (by omega)
      refine ⟨x, hx, ?_⟩
      rw [hval, hrun, List.take_succ_cons, List.map_cons, List.sum_cons]
      omega

end

/-! ## Places in a sorted list -/

/-- In a sorted list what is below a bound comes first. -/
theorem take_partitionPoint {α : Type*} (key : α → Nat) (a : Nat) (l : List α)
    (hl : l.Pairwise fun x y => key x ≤ key y) :
    partitionPoint l.length (fun k => (l[k]?).any fun x => key x < a) ≤ l.length ∧
      l.take (partitionPoint l.length fun k => (l[k]?).any fun x => key x < a) =
        l.filter fun x => key x < a := by
  have hdown : DownTo l.length fun k => (l[k]?).any fun x => key x < a := by
    intro i j hij hj h
    have hi : i < l.length := by omega
    simp only [List.getElem?_eq_getElem hi, List.getElem?_eq_getElem hj, Option.any_some,
      decide_eq_true_eq] at h ⊢
    rcases Nat.lt_or_eq_of_le hij with hlt | rfl
    · exact Nat.lt_of_le_of_lt (List.pairwise_iff_getElem.mp hl i j hi hj hlt) h
    · exact h
  have hle := partitionPoint_le l.length _ hdown
  have hlt := lt_partitionPoint_iff l.length _ hdown
  generalize partitionPoint l.length (fun k => (l[k]?).any fun x => key x < a) = m at hle hlt
  refine ⟨hle, ?_⟩
  conv_rhs => rw [← List.take_append_drop m l, List.filter_append]
  have hfirst : (l.take m).filter (fun x => key x < a) = l.take m := by
    rw [List.filter_eq_self]
    intro x hx
    obtain ⟨i, hi, rfl⟩ := List.getElem_of_mem hx
    have him : i < m := by
      rw [List.length_take] at hi
      omega
    have := (hlt i (by omega)).mp him
    rw [List.getElem?_eq_getElem (by omega)] at this
    simpa [List.getElem_take] using this
  have hlast : (l.drop m).filter (fun x => key x < a) = [] := by
    rw [List.filter_eq_nil_iff]
    intro x hx
    obtain ⟨i, hi, rfl⟩ := List.getElem_of_mem hx
    rw [List.length_drop] at hi
    have hnot : ¬ m + i < m := by omega
    rw [hlt (m + i) (by omega), List.getElem?_eq_getElem (by omega)] at hnot
    simpa [List.getElem_drop] using hnot
  rw [hfirst, hlast, List.append_nil]

end Search
