import Mathlib.Algebra.Order.BigOperators.Group.List
import Mathlib.Algebra.Order.Ring.Nat
import Mathlib.Data.List.Basic
import Mathlib.Data.List.Perm.Basic

/-!
# How often each key was seen

A table of counts by key, one more of a key at a time.  `counted_count` says that the counts add up
to the number of keys counted, and `length_count_le` that it has no more rows than there can be
keys.
-/

namespace Search

variable {κ : Type*} [DecidableEq κ]

/-- One more of a key. -/
def oneMore (k : κ) : List (κ × Nat) → List (κ × Nat)
  | [] => [(k, 1)]
  | (p, n) :: rest => if p = k then (p, n + 1) :: rest else (p, n) :: oneMore k rest

/-- All that was counted. -/
def counted (m : List (κ × Nat)) : Nat := (m.map (·.2)).sum

/-- The table with one more of every key of a list. -/
def count (m : List (κ × Nat)) (ks : List κ) : List (κ × Nat) := ks.foldl (fun m k => oneMore k m) m

@[simp] theorem count_nil (m : List (κ × Nat)) : count m [] = m := rfl

@[simp] theorem count_cons (m : List (κ × Nat)) (k : κ) (ks : List κ) :
    count m (k :: ks) = count (oneMore k m) ks := rfl

theorem count_append (m : List (κ × Nat)) (ks js : List κ) :
    count m (ks ++ js) = count (count m ks) js := List.foldl_append

theorem counted_oneMore (k : κ) (m : List (κ × Nat)) : counted (oneMore k m) = counted m + 1 := by
  unfold counted
  induction m with
  | nil => rfl
  | cons r m ih =>
    obtain ⟨p, n⟩ := r
    unfold oneMore
    split
    · simp only [List.map_cons, List.sum_cons]
      omega
    · simp only [List.map_cons, List.sum_cons, ih]
      omega

theorem counted_count (ks : List κ) : ∀ m : List (κ × Nat),
    counted (count m ks) = counted m + ks.length := by
  induction ks with
  | nil => exact fun _ => rfl
  | cons k ks ih =>
    intro m
    rw [count_cons, ih, counted_oneMore, List.length_cons]
    omega

theorem mem_keys_oneMore {k x : κ} {m : List (κ × Nat)} :
    x ∈ (oneMore k m).map (·.1) ↔ x = k ∨ x ∈ m.map (·.1) := by
  induction m with
  | nil => simp [oneMore]
  | cons r m ih =>
    obtain ⟨p, n⟩ := r
    unfold oneMore
    split
    · rename_i h
      simp [h]
    · simp only [List.map_cons, List.mem_cons, ih]
      tauto

theorem nodup_keys_oneMore {k : κ} {m : List (κ × Nat)} (h : (m.map (·.1)).Nodup) :
    ((oneMore k m).map (·.1)).Nodup := by
  induction m with
  | nil => simp [oneMore]
  | cons r m ih =>
    obtain ⟨p, n⟩ := r
    rw [List.map_cons, List.nodup_cons] at h
    unfold oneMore
    split
    · rw [List.map_cons, List.nodup_cons]
      exact h
    · rename_i hne
      rw [List.map_cons, List.nodup_cons, mem_keys_oneMore]
      refine ⟨?_, ih h.2⟩
      rintro (rfl | hp)
      · exact hne rfl
      · exact h.1 hp

theorem keys_count {ks S : List κ} (hks : ∀ k ∈ ks, k ∈ S) : ∀ m : List (κ × Nat),
    (m.map (·.1)).Nodup → (∀ k ∈ m.map (·.1), k ∈ S) →
      ((count m ks).map (·.1)).Nodup ∧ ∀ k ∈ (count m ks).map (·.1), k ∈ S := by
  induction ks with
  | nil => exact fun m hm hS => ⟨hm, hS⟩
  | cons k ks ih =>
    intro m hm hS
    refine ih (fun j hj => hks j (List.mem_cons_of_mem _ hj)) _ (nodup_keys_oneMore hm) ?_
    intro j hj
    rcases mem_keys_oneMore.mp hj with rfl | hj
    · exact hks j List.mem_cons_self
    · exact hS j hj

/-- There are no more rows than keys to count. -/
theorem length_count_le {ks S : List κ} (hks : ∀ k ∈ ks, k ∈ S) :
    (count ([] : List (κ × Nat)) ks).length ≤ S.length := by
  obtain ⟨hnodup, hS⟩ := keys_count hks [] List.nodup_nil (fun _ h => by cases h)
  rw [← List.length_map Prod.fst]
  exact (List.subperm_of_subset hnodup hS).length_le

end Search
