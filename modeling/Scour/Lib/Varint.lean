import Mathlib.Data.Nat.Bitwise

/-!
# Variable-length integers

`put` writes a 64-bit number seven bits at a time, the lowest first, every byte but the last with
its top bit set (LEB128).  `get` reads one from the front of a list and says how many bytes it took:
`get_put` is the round trip, whatever follows.
-/

namespace Search

namespace Varint

/-- The loop, with `fuel` bounding its rounds. -/
def putLoop : Nat → UInt64 → List UInt8
  | 0, v => [v.toUInt8]
  | fuel + 1, v => if 0x80 ≤ v then (v.toUInt8 ||| 0x80) :: putLoop fuel (v >>> 7) else [v.toUInt8]

/-- Ten groups of seven bits are more than a number has. -/
def put (v : UInt64) : List UInt8 := putLoop 9 v

def getLoop : List UInt8 → UInt64 → Nat → Nat → Option (UInt64 × Nat)
  | [], _, _, _ => none
  | b :: rest, v, shift, i =>
    if 63 < shift then none
    else if b < 0x80 then
      some (v ||| ((b &&& 0x7f).toUInt64 <<< UInt64.ofNat shift), i + 1)
    else getLoop rest (v ||| ((b &&& 0x7f).toUInt64 <<< UInt64.ofNat shift)) (shift + 7) (i + 1)

/-- The number at the front, and how many bytes it took. -/
def get (bytes : List UInt8) : Option (UInt64 × Nat) := getLoop bytes 0 0 0

/-! ## Bits -/

theorem toNat_toUInt8_or (v : UInt64) : (v.toUInt8 ||| 0x80).toNat = v.toNat % 128 + 128 := by
  have hv : v.toUInt8.toNat = v.toNat % 256 := UInt64.toNat_toUInt8 v
  rw [UInt8.toNat_or, hv]
  have h80 : (0x80 : UInt8).toNat = 128 := rfl
  rw [h80]
  have hcases : v.toNat % 256 = 128 * (v.toNat % 256 / 128) + v.toNat % 128 := by omega
  have hq : v.toNat % 256 / 128 = 0 ∨ v.toNat % 256 / 128 = 1 := by omega
  have hlow : v.toNat % 128 < 2 ^ 7 := by omega
  have hhigh : 128 ||| v.toNat % 128 = 128 + v.toNat % 128 :=
    (Nat.two_pow_add_eq_or_of_lt hlow 1).symm
  have hor : v.toNat % 128 ||| 128 = v.toNat % 128 + 128 := by
    rw [Nat.or_comm, hhigh, Nat.add_comm]
  rcases hq with hq | hq
  · rw [hq] at hcases
    rw [show v.toNat % 256 = v.toNat % 128 by omega, hor]
  · rw [hq] at hcases
    have hsum : v.toNat % 256 = 128 ||| v.toNat % 128 := by
      rw [hhigh]
      omega
    rw [hsum, Nat.or_comm 128, Nat.or_assoc, Nat.or_self, hor]

theorem toNat_and_7f (b : UInt8) : (b &&& 0x7f).toNat = b.toNat % 128 := by
  rw [UInt8.toNat_and]
  have h7f : (0x7f : UInt8).toNat = 2 ^ 7 - 1 := rfl
  rw [h7f, Nat.and_two_pow_sub_one_eq_mod]

theorem toNat_shiftRight_seven (v : UInt64) : (v >>> 7).toNat = v.toNat / 128 := by
  rw [UInt64.toNat_shiftRight]
  simp [Nat.shiftRight_eq_div_pow]

/-- The next group goes above what was read. -/
theorem toNat_or_shiftLeft (acc : UInt64) (b : UInt8) {shift : Nat} (hshift : shift ≤ 63)
    (hacc : acc.toNat < 2 ^ shift) (hfit : b.toNat % 128 * 2 ^ shift < 2 ^ 64) :
    (acc ||| ((b &&& 0x7f).toUInt64 <<< UInt64.ofNat shift)).toNat =
      acc.toNat + b.toNat % 128 * 2 ^ shift := by
  have hs : (UInt64.ofNat shift).toNat = shift := by
    rw [UInt64.toNat_ofNat']
    omega
  rw [UInt64.toNat_or, UInt64.toNat_shiftLeft, UInt8.toNat_toUInt64, toNat_and_7f, hs,
    Nat.mod_eq_of_lt (by omega : shift < 64), Nat.shiftLeft_eq, Nat.mod_eq_of_lt hfit, Nat.or_comm,
    Nat.mul_comm, ← Nat.two_pow_add_eq_or_of_lt hacc]
  omega

/-! ## The round trip -/

theorem putLoop_ne_nil (fuel : Nat) (v : UInt64) : putLoop fuel v ≠ [] := by
  cases fuel with
  | zero => exact List.cons_ne_nil _ _
  | succ fuel =>
    unfold putLoop
    split <;> exact List.cons_ne_nil _ _

theorem getLoop_putLoop (tail : List UInt8) :
    ∀ (fuel shift i : Nat) (v acc : UInt64), shift + 7 * fuel = 63 →
      v.toNat * 2 ^ shift < 2 ^ 64 → acc.toNat < 2 ^ shift →
        ∃ total : UInt64, getLoop (putLoop fuel v ++ tail) acc shift i =
            some (total, i + (putLoop fuel v).length) ∧
          total.toNat = acc.toNat + v.toNat * 2 ^ shift := by
  intro fuel
  induction fuel with
  | zero =>
    intro shift i v acc hshift hfit hacc
    obtain rfl : shift = 63 := by omega
    have hv : v.toNat < 2 := by omega
    have hbyte : v.toUInt8.toNat = v.toNat := by
      rw [UInt64.toNat_toUInt8]
      omega
    have hlast : v.toUInt8 < 0x80 := by
      rw [UInt8.lt_iff_toNat_lt, hbyte]
      exact Nat.lt_trans hv (by decide)
    refine ⟨acc ||| ((v.toUInt8 &&& 0x7f).toUInt64 <<< UInt64.ofNat 63), ?_, ?_⟩
    · show getLoop (v.toUInt8 :: tail) acc 63 i = _
      unfold getLoop
      rw [if_neg (by omega), if_pos hlast]
      rfl
    · have hmod : v.toUInt8.toNat % 128 = v.toNat := by omega
      rw [toNat_or_shiftLeft acc _ (by omega) hacc (by rw [hmod]; exact hfit), hmod]
  | succ fuel ih =>
    intro shift i v acc hshift hfit hacc
    have hpow : 0 < 2 ^ shift := Nat.two_pow_pos shift
    unfold putLoop
    by_cases hv : 0x80 ≤ v
    · rw [if_pos hv]
      have hv' : 128 ≤ v.toNat := hv
      have hbyte := toNat_toUInt8_or v
      have hmore : ¬ (v.toUInt8 ||| 0x80) < 0x80 := by
        rw [UInt8.lt_iff_toNat_lt, hbyte]
        show ¬ _ < 128
        omega
      -- the number is its low group and the rest
      have hsplit : v.toNat * 2 ^ shift =
          v.toNat % 128 * 2 ^ shift + v.toNat / 128 * 2 ^ (shift + 7) := by
        have hdiv := Nat.mod_add_div v.toNat 128
        calc v.toNat * 2 ^ shift
            = (v.toNat % 128 + 128 * (v.toNat / 128)) * 2 ^ shift := by rw [hdiv]
          _ = v.toNat % 128 * 2 ^ shift + v.toNat / 128 * 2 ^ (shift + 7) := by
            rw [Nat.add_mul, Nat.pow_add, Nat.mul_comm 128, Nat.mul_assoc, Nat.mul_comm 128]
      have hgroup : (v.toUInt8 ||| 0x80).toNat % 128 = v.toNat % 128 := by omega
      have hnext := toNat_or_shiftLeft acc (v.toUInt8 ||| 0x80) (by omega : shift ≤ 63) hacc
        (by rw [hgroup]; omega)
      rw [hgroup] at hnext
      have hbound : acc.toNat + v.toNat % 128 * 2 ^ shift < 2 ^ (shift + 7) := by
        have hlow : v.toNat % 128 * 2 ^ shift ≤ 127 * 2 ^ shift :=
          Nat.mul_le_mul_right _ (by omega)
        rw [Nat.pow_add]
        omega
      obtain ⟨total, hget, htotal⟩ := ih (shift + 7) (i + 1) (v >>> 7) _ (by omega)
        (by rw [toNat_shiftRight_seven]; omega) (by rw [hnext]; exact hbound)
      refine ⟨total, ?_, ?_⟩
      · rw [List.cons_append]
        unfold getLoop
        rw [if_neg (by omega), if_neg hmore, hget, List.length_cons]
        simp only [Option.some.injEq, Prod.mk.injEq, true_and]
        omega
      · rw [htotal, hnext, toNat_shiftRight_seven, hsplit]
        omega
    · rw [if_neg hv]
      have hv' : v.toNat < 128 := by
        have : ¬ 128 ≤ v.toNat := hv
        omega
      have hbyte : v.toUInt8.toNat = v.toNat := by
        rw [UInt64.toNat_toUInt8]
        omega
      have hlast : v.toUInt8 < 0x80 := by
        rw [UInt8.lt_iff_toNat_lt, hbyte]
        exact hv'
      refine ⟨acc ||| ((v.toUInt8 &&& 0x7f).toUInt64 <<< UInt64.ofNat shift), ?_, ?_⟩
      · rw [List.singleton_append]
        unfold getLoop
        rw [if_neg (by omega), if_pos hlast]
        rfl
      · have hmod : v.toUInt8.toNat % 128 = v.toNat := by omega
        rw [toNat_or_shiftLeft acc _ (by omega) hacc (by rw [hmod]; exact hfit), hmod]

/-- **What was written is read back**, and as many bytes taken as it has. -/
theorem get_put (v : UInt64) (tail : List UInt8) :
    get (put v ++ tail) = some (v, (put v).length) := by
  obtain ⟨total, hget, htotal⟩ := getLoop_putLoop tail 9 0 0 v 0 (by omega)
    (by have := v.toNat_lt; omega) (by decide)
  have heq : total = v := by
    apply UInt64.toNat_inj.mp
    rw [htotal]
    simp
  unfold get put
  rw [hget, heq, Nat.zero_add]

example : put 300 = [0xac, 0x02] := by decide

end Varint

end Search
