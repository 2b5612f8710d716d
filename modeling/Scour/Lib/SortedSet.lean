import Mathlib.Data.List.Sort

/-!
# Sets kept as sorted lists

`binarySearch n key k` is the halving loop that stops at an exact hit; over strictly increasing
keys it finds the position of `k` (`binarySearch_eq_some_iff`).  `intersect` walks two strictly
increasing lists with two cursors and keeps what both hold (`mem_intersect_iff`).
-/

namespace Search

variable {α : Type*} [LinearOrder α]

/-! ## Searching for a key -/

/-- The loop, with `fuel` bounding its rounds. -/
def searchLoop (key : Nat → α) (k : α) : Nat → Nat → Nat → Option Nat
  | 0, _, _ => none
  | fuel + 1, lo, hi =>
      if lo < hi then
        let mid := lo + (hi - lo) / 2
        if key mid < k then searchLoop key k fuel (mid + 1) hi
        else if k < key mid then searchLoop key k fuel lo mid
        else some mid
      else none

def binarySearch (n : Nat) (key : Nat → α) (k : α) : Option Nat := searchLoop key k n 0 n

theorem searchLoop_sound (key : Nat → α) (k : α) (fuel : Nat) : ∀ (lo hi i : Nat),
    searchLoop key k fuel lo hi = some i → i < hi ∧ key i = k := by
  induction fuel with
  | zero =>
    intro lo hi i h
    cases h
  | succ fuel ih =>
    intro lo hi i h
    unfold searchLoop at h
    split at h
    · simp only at h
      split at h
      · exact ih _ _ _ h
      · split at h
        · obtain ⟨h1, h2⟩ := ih _ _ _ h
          exact ⟨by omega, h2⟩
        · rename_i h1 h2
          obtain rfl : lo + (hi - lo) / 2 = i := by simpa using h
          exact ⟨by omega, le_antisymm (not_lt.mp h2) (not_lt.mp h1)⟩
    · cases h

/-- The key is between the two ends of the loop at every round. -/
theorem searchLoop_complete (key : Nat → α) (k : α) (fuel : Nat) : ∀ (lo hi i : Nat),
    (∀ a b, a < b → b < hi → key a < key b) → hi - lo ≤ fuel → lo ≤ i → i < hi → key i = k →
      searchLoop key k fuel lo hi ≠ none := by
  induction fuel with
  | zero =>
    intro lo hi i _ hf h1 h2 _
    omega
  | succ fuel ih =>
    intro lo hi i hkey hf h1 h2 hk
    unfold searchLoop
    rw [if_pos (by omega)]
    simp only
    split
    · rename_i hlt
      apply ih _ hi i hkey (by omega) _ h2 hk
      by_contra hle
      have h3 : i < lo + (hi - lo) / 2 ∨ i = lo + (hi - lo) / 2 := by omega
      rcases h3 with h3 | h3
      · exact absurd (lt_trans (hkey _ _ h3 (by omega)) hlt) (by rw [hk]; exact lt_irrefl _)
      · rw [← h3, hk] at hlt
        exact lt_irrefl _ hlt
    · split
      · rename_i hgt
        apply ih lo _ i (fun a b hab hb => hkey a b hab (by omega)) (by omega) h1 _ hk
        by_contra hle
        have h3 : lo + (hi - lo) / 2 < i ∨ i = lo + (hi - lo) / 2 := by omega
        rcases h3 with h3 | h3
        · exact absurd (lt_trans hgt (hkey _ _ h3 h2)) (by rw [hk]; exact lt_irrefl _)
        · rw [← h3, hk] at hgt
          exact lt_irrefl _ hgt
      · simp

/-- Over strictly increasing keys the search finds the key's position. -/
theorem binarySearch_eq_some_iff (n : Nat) (key : Nat → α) (k : α)
    (hkey : ∀ a b, a < b → b < n → key a < key b) (i : Nat) :
    binarySearch n key k = some i ↔ i < n ∧ key i = k := by
  constructor
  · exact searchLoop_sound key k n 0 n i
  · rintro ⟨hi, hk⟩
    obtain ⟨j, hj⟩ := Option.ne_none_iff_exists'.mp
      (searchLoop_complete key k n 0 n i hkey (by omega) (Nat.zero_le _) hi hk)
    obtain ⟨hjn, hjk⟩ := searchLoop_sound key k n 0 n j hj
    have : j = i := by
      rcases Nat.lt_trichotomy j i with h | h | h
      · exact absurd (hkey j i h hi) (by rw [hjk, hk]; exact lt_irrefl _)
      · exact h
      · exact absurd (hkey i j h hjn) (by rw [hjk, hk]; exact lt_irrefl _)
    rw [← this]
    exact hj

/-! ## What two of them share -/

/-- Both sorted; one pass. -/
def intersect : List α → List α → List α
  | [], _ => []
  | _, [] => []
  | a :: as, b :: bs =>
      if a < b then intersect as (b :: bs)
      else if b < a then intersect (a :: as) bs
      else a :: intersect as bs
termination_by as bs => as.length + bs.length

theorem mem_intersect_iff (as bs : List α) (ha : as.Pairwise (· < ·)) (hb : bs.Pairwise (· < ·))
    (x : α) : x ∈ intersect as bs ↔ x ∈ as ∧ x ∈ bs := by
  induction as, bs using intersect.induct with
  | case1 bs => simp [intersect]
  | case2 as h => simp [intersect]
  | case3 a as b bs hlt ih =>
    rw [List.pairwise_cons] at ha
    rw [intersect, if_pos hlt, ih ha.2 hb]
    constructor
    · exact fun h => ⟨List.mem_cons_of_mem _ h.1, h.2⟩
    · rintro ⟨h, hx⟩
      rcases List.mem_cons.mp h with rfl | h
      · -- the smaller head is below all of the other list
        rcases List.mem_cons.mp hx with rfl | hx
        · exact absurd hlt (lt_irrefl _)
        · exact absurd (lt_trans hlt ((List.pairwise_cons.mp hb).1 _ hx)) (lt_irrefl _)
      · exact ⟨h, hx⟩
  | case4 a as b bs hge hlt ih =>
    rw [List.pairwise_cons] at hb
    rw [intersect, if_neg hge, if_pos hlt, ih ha hb.2]
    constructor
    · exact fun h => ⟨h.1, List.mem_cons_of_mem _ h.2⟩
    · rintro ⟨hx, h⟩
      rcases List.mem_cons.mp h with rfl | h
      · rcases List.mem_cons.mp hx with rfl | hx
        · exact absurd hlt (lt_irrefl _)
        · exact absurd (lt_trans hlt ((List.pairwise_cons.mp ha).1 _ hx)) (lt_irrefl _)
      · exact ⟨hx, h⟩
  | case5 a as b bs hge hge' ih =>
    have hab : a = b := le_antisymm (not_lt.mp hge') (not_lt.mp hge)
    subst hab
    rw [List.pairwise_cons] at ha hb
    rw [intersect, if_neg hge, if_neg hge', List.mem_cons, ih ha.2 hb.2, List.mem_cons,
      List.mem_cons]
    constructor
    · rintro (rfl | ⟨h1, h2⟩)
      · exact ⟨Or.inl rfl, Or.inl rfl⟩
      · exact ⟨Or.inr h1, Or.inr h2⟩
    · rintro ⟨rfl | h1, h⟩
      · exact Or.inl rfl
      · rcases h with rfl | h2
        · exact Or.inl rfl
        · exact Or.inr ⟨h1, h2⟩

theorem intersect_sublist (as bs : List α) : (intersect as bs).Sublist as := by
  induction as, bs using intersect.induct with
  | case1 bs => simp [intersect]
  | case2 as h => simp [intersect]
  | case3 a as b bs hlt ih =>
    rw [intersect, if_pos hlt]
    exact ih.trans (List.sublist_cons_self _ _)
  | case4 a as b bs hge hlt ih =>
    rw [intersect, if_neg hge, if_pos hlt]
    exact ih
  | case5 a as b bs hge hge' ih =>
    rw [intersect, if_neg hge, if_neg hge']
    exact ih.cons_cons a

theorem intersect_sorted (as bs : List α) (ha : as.Pairwise (· < ·)) :
    (intersect as bs).Pairwise (· < ·) := ha.sublist (intersect_sublist as bs)

end Search
