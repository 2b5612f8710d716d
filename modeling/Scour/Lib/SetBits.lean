import Mathlib.Data.Nat.Bitwise

/-!
# The set bits of a word

`setBits` is the loop `while x != 0 { x.trailing_zeros(); x &= x - 1 }`: it comes to the set bits of
a word, the lowest first (`setBits_eq`).
-/

namespace Search

/-- `trailing_zeros`, of a number that is not zero. -/
def trailingZeros : Nat → Nat → Nat
  | 0, _ => 0
  | fuel + 1, x => if x % 2 = 1 then 0 else trailingZeros fuel (x / 2) + 1

/-- The loop, over a word of `width` bits, `fuel` bounding its rounds. -/
def setBitsLoop (width : Nat) : Nat → Nat → List Nat
  | 0, _ => []
  | fuel + 1, x =>
    if x = 0 then [] else trailingZeros width x :: setBitsLoop width fuel (x &&& (x - 1))

/-- A word has at most as many set bits as it has bits. -/
def setBits (width x : Nat) : List Nat := setBitsLoop width width x

theorem land_pred_odd (m : Nat) : (2 * m + 1) &&& (2 * m + 1 - 1) = 2 * m := by
  apply Nat.eq_of_testBit_eq
  intro i
  rw [Nat.testBit_land, Nat.add_sub_cancel]
  cases i with
  | zero => simp
  | succ i => simp [Nat.testBit_succ, Nat.mul_add_div]

theorem land_pred_even (m : Nat) (hm : m ≠ 0) :
    (2 * m) &&& (2 * m - 1) = 2 * (m &&& (m - 1)) := by
  have hpred : 2 * m - 1 = 2 * (m - 1) + 1 := by omega
  apply Nat.eq_of_testBit_eq
  intro i
  rw [hpred, Nat.testBit_land]
  cases i with
  | zero => simp
  | succ i => simp [Nat.testBit_succ, Nat.mul_add_div]

theorem trailingZeros_even (width m : Nat) :
    trailingZeros (width + 1) (2 * m) = trailingZeros width m + 1 := by
  rw [trailingZeros, if_neg (by omega), Nat.mul_div_cancel_left m (by omega)]

/-- Doubling a number moves its set bits up by one. -/
theorem setBitsLoop_even (width fuel : Nat) :
    ∀ m, setBitsLoop (width + 1) fuel (2 * m) = (setBitsLoop width fuel m).map (· + 1) := by
  induction fuel with
  | zero => exact fun m => rfl
  | succ fuel ih =>
    intro m
    unfold setBitsLoop
    by_cases hm : m = 0
    · rw [if_pos hm, if_pos (by omega)]
      rfl
    · rw [if_neg hm, if_neg (by omega), trailingZeros_even, land_pred_even m hm, ih, List.map_cons]

/-- The set bits of a number below `2 ^ width`, which has at most `fuel` of them. -/
theorem setBitsLoop_eq (width : Nat) :
    ∀ fuel x, x < 2 ^ width → width ≤ fuel →
      setBitsLoop width fuel x = (List.range width).filter fun i => x.testBit i := by
  induction width with
  | zero =>
    intro fuel x hx _
    have hx : x = 0 := by simpa using hx
    subst hx
    cases fuel with
    | zero => rfl
    | succ fuel => rfl
  | succ width ih =>
    intro fuel x hx hfuel
    have hshift : ∀ y m : Nat, (∀ i, y.testBit (i + 1) = m.testBit i) →
        ((List.range width).map (· + 1)).filter (fun i => y.testBit i) =
          ((List.range width).filter fun i => m.testBit i).map (· + 1) := by
      intro y m h
      rw [List.filter_map]
      congr 1
      exact List.filter_congr fun i _ => h i
    rw [List.range_succ_eq_map, List.filter_cons]
    obtain ⟨m, rfl | rfl⟩ := Nat.even_or_odd' x
    · rw [if_neg (by simp), setBitsLoop_even, ih fuel m (by omega) (by omega)]
      exact (hshift _ _ fun i => by simp [Nat.testBit_succ]).symm
    · obtain ⟨f, rfl⟩ := Nat.exists_eq_add_of_le' (by omega : 1 ≤ fuel)
      rw [if_pos (by simp)]
      unfold setBitsLoop
      rw [if_neg (by omega), land_pred_odd, setBitsLoop_even, ih f m (by omega) (by omega)]
      congr 1
      · rw [trailingZeros, if_pos (by omega)]
      · exact (hshift _ _ fun i => by simp [Nat.testBit_succ, Nat.mul_add_div]).symm

theorem setBits_eq {width x : Nat} (h : x < 2 ^ width) :
    setBits width x = (List.range width).filter fun i => x.testBit i :=
  setBitsLoop_eq width width x h (Nat.le_refl width)

example : setBits 8 0b10010010 = [1, 4, 7] := by decide

end Search
