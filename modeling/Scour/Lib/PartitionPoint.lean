import Mathlib.Data.List.Sort

/-!
# Binary search for a partition point

`partitionPoint n p` is the loop `while lo < hi { mid; if p mid { lo = mid + 1 } else { hi = mid } }`
over the positions `0 .. n`.  When `p` holds on an initial segment of them and nowhere after
(`DownTo n p`), the result is the length of that segment (`lt_partitionPoint_iff`).

For a list sorted by a key, "key below `k`" and "key at most `k`" are such predicates
(`downTo_of_pairwise`).
-/

namespace Search

/-- The loop, with `fuel` bounding its rounds. -/
def partitionLoop (p : Nat → Bool) : Nat → Nat → Nat → Nat
  | 0, lo, _ => lo
  | fuel + 1, lo, hi =>
      if lo < hi then
        if p (lo + (hi - lo) / 2) then partitionLoop p fuel (lo + (hi - lo) / 2 + 1) hi
        else partitionLoop p fuel lo (lo + (hi - lo) / 2)
      else lo

def partitionPoint (n : Nat) (p : Nat → Bool) : Nat :=
  partitionLoop p n 0 n

theorem partitionLoop_le (p : Nat → Bool) (fuel : Nat) :
    ∀ lo hi, lo ≤ hi → partitionLoop p fuel lo hi ≤ hi := by
  induction fuel with
  | zero => exact fun lo hi h => h
  | succ fuel ih =>
    intro lo hi h
    unfold partitionLoop
    split
    · split
      · exact ih _ _ (by omega)
      · have := ih lo (lo + (hi - lo) / 2) (by omega)
        omega
    · exact h

/-- `p` holds on an initial segment of the positions below `n`. -/
def DownTo (n : Nat) (p : Nat → Bool) : Prop :=
  ∀ i j, i ≤ j → j < n → p j = true → p i = true

theorem partitionLoop_spec (n : Nat) (p : Nat → Bool) (hp : DownTo n p) :
    ∀ (fuel lo hi : Nat), lo ≤ hi → hi ≤ n → hi - lo ≤ fuel →
      (∀ i, i < lo → p i = true) → (∀ i, hi ≤ i → i < n → p i = false) →
      partitionLoop p fuel lo hi ≤ n ∧
        ∀ i, i < n → (i < partitionLoop p fuel lo hi ↔ p i = true) := by
  intro fuel
  induction fuel with
  | zero =>
    intro lo hi hle hn hf hlow hhigh
    have : lo = hi := by omega
    subst this
    refine ⟨hn, fun i hi => ⟨hlow i, fun h => ?_⟩⟩
    rcases Nat.lt_or_ge i lo with h' | h'
    · exact h'
    · rw [hhigh i h' hi] at h; cases h
  | succ fuel ih =>
    intro lo hi hle hn hf hlow hhigh
    unfold partitionLoop
    split
    · rename_i hlt
      split
      · rename_i hmid
        refine ih _ hi (by omega) hn (by omega) (fun i hi' => ?_) hhigh
        exact hp i _ (by omega) (by omega) hmid
      · rename_i hmid
        refine ih lo _ (by omega) (by omega) (by omega) hlow (fun i hi' hin => ?_)
        rcases Nat.lt_or_ge i hi with h' | h'
        · by_contra hne
          exact hmid (hp _ i hi' hin (by simpa using hne))
        · exact hhigh i h' hin
    · have : lo = hi := by omega
      subst this
      refine ⟨hn, fun i hi => ⟨hlow i, fun h => ?_⟩⟩
      rcases Nat.lt_or_ge i lo with h' | h'
      · exact h'
      · rw [hhigh i h' hi] at h; cases h

theorem partitionPoint_le (n : Nat) (p : Nat → Bool) (hp : DownTo n p) : partitionPoint n p ≤ n :=
  (partitionLoop_spec n p hp n 0 n (by omega) (by omega) (by omega) (by omega) (by omega)).1

/-- The positions below the partition point are the ones `p` holds at. -/
theorem lt_partitionPoint_iff (n : Nat) (p : Nat → Bool) (hp : DownTo n p) (i : Nat) (hi : i < n) :
    i < partitionPoint n p ↔ p i = true :=
  (partitionLoop_spec n p hp n 0 n (by omega) (by omega) (by omega) (by omega) (by omega)).2 i hi

/-- A predicate that is inherited leftwards along a sorted list is an initial segment of it. -/
theorem downTo_of_pairwise {α : Type} {R : α → α → Prop} (l : List α) (hl : l.Pairwise R)
    (q : α → Bool) (hq : ∀ a b, R a b → q b = true → q a = true) :
    DownTo l.length fun i => (l[i]?).any q := by
  intro i j hij hj h
  rcases Nat.lt_or_eq_of_le hij with hlt | rfl
  · have hr := List.pairwise_iff_getElem.mp hl i j (by omega) hj hlt
    simp only [List.getElem?_eq_getElem hj, Option.any_some] at h
    simp only [List.getElem?_eq_getElem (show i < l.length by omega), Option.any_some]
    exact hq _ _ hr h
  · exact h

end Search
