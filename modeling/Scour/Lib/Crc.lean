import Mathlib.Data.Nat.Bitwise
import Mathlib.Logic.Function.Iterate

/-!
# Cyclic redundancy checks

The register of a check that takes its low bit first: `step` is one bit of it, and `register` takes
the bytes one by one.  The register is linear (`step_xor`), so that eight steps at once are what its
low byte becomes, which a table can hold, and the rest of it shifted (`iterate_step`);
`register_eq_foldl` is the loop over such a table.
-/

namespace Search.Crc

variable {w : Nat} (poly : BitVec w)

/-- One step of the register, low bit first. -/
def step (c : BitVec w) : BitVec w := if c.getLsbD 0 then poly ^^^ (c >>> 1) else c >>> 1

theorem step_xor (a b : BitVec w) : step poly (a ^^^ b) = step poly a ^^^ step poly b := by
  unfold step
  rw [BitVec.getLsbD_xor, BitVec.ushiftRight_xor_distrib]
  cases a.getLsbD 0 with
  | false =>
    cases b.getLsbD 0 with
    | false => simp
    | true =>
      simp only [Bool.false_xor, if_true, Bool.false_eq_true, if_false]
      ac_rfl
  | true =>
    cases b.getLsbD 0 with
    | false =>
      simp only [Bool.true_xor, Bool.not_false, if_true, Bool.false_eq_true, if_false]
      ac_rfl
    | true =>
      simp only [Bool.xor_self, if_true, Bool.false_eq_true, if_false]
      calc (a >>> 1) ^^^ (b >>> 1)
          = (poly ^^^ poly) ^^^ ((a >>> 1) ^^^ (b >>> 1)) := by simp
        _ = (poly ^^^ (a >>> 1)) ^^^ (poly ^^^ (b >>> 1)) := by ac_rfl

theorem iterate_step_xor (n : Nat) (a b : BitVec w) :
    (step poly)^[n] (a ^^^ b) = (step poly)^[n] a ^^^ (step poly)^[n] b := by
  induction n generalizing a b with
  | zero => rfl
  | succ n ih => rw [Function.iterate_succ_apply, step_xor, ih]; rfl

/-- Zeros at the low end are shifted out. -/
theorem iterate_step_of_low (n : Nat) {c : BitVec w} (h : ∀ i < n, c.getLsbD i = false) :
    (step poly)^[n] c = c >>> n := by
  induction n generalizing c with
  | zero => simp
  | succ n ih =>
    have hstep : step poly c = c >>> 1 := by
      unfold step
      rw [h 0 (by omega)]
      rfl
    rw [Function.iterate_succ_apply, hstep, ih, ← BitVec.shiftRight_add, Nat.add_comm]
    intro i hi
    rw [BitVec.getLsbD_ushiftRight]
    exact h (1 + i) (by omega)

/-- The low bits of a register. -/
def low (n : Nat) (c : BitVec w) : BitVec w := c &&& BitVec.ofNat w (2 ^ n - 1)

theorem getLsbD_low (n i : Nat) (c : BitVec w) : (low n c).getLsbD i = (decide (i < n) && c.getLsbD i) := by
  unfold low
  rw [BitVec.getLsbD_and, BitVec.getLsbD_ofNat, Nat.testBit_two_pow_sub_one]
  by_cases hi : i < w
  · simp [hi, Bool.and_comm]
  · simp [hi, BitVec.getLsbD_of_ge c i (by omega)]

/-- Several steps at once: what the low bits become, looked up, and the rest shifted. -/
theorem iterate_step (n : Nat) (c : BitVec w) :
    (step poly)^[n] c = (step poly)^[n] (low n c) ^^^ (c >>> n) := by
  have hsplit : c = low n c ^^^ (c ^^^ low n c) := by
    rw [BitVec.xor_comm c, ← BitVec.xor_assoc, BitVec.xor_self, BitVec.zero_xor]
  have hhigh : ∀ i < n, (c ^^^ low n c).getLsbD i = false := by
    intro i hi
    rw [BitVec.getLsbD_xor, getLsbD_low]
    simp [hi]
  have hshift : (c ^^^ low n c) >>> n = c >>> n := by
    apply BitVec.eq_of_getLsbD_eq
    intro i hi
    rw [BitVec.getLsbD_ushiftRight, BitVec.getLsbD_ushiftRight, BitVec.getLsbD_xor, getLsbD_low]
    have : ¬ n + i < n := by omega
    simp [this]
  conv_lhs => rw [hsplit]
  rw [iterate_step_xor, iterate_step_of_low poly n hhigh, hshift]

/-- The register, fed a list of bytes. -/
def register (bytes : List UInt8) (c : BitVec w) : BitVec w :=
  bytes.foldl (fun c b => (step poly)^[8] (c ^^^ BitVec.ofNat w b.toNat)) c

theorem shiftRight_byte (c : BitVec w) (b : UInt8) :
    (c ^^^ BitVec.ofNat w b.toNat) >>> 8 = c >>> 8 := by
  apply BitVec.eq_of_getLsbD_eq
  intro i hi
  rw [BitVec.getLsbD_ushiftRight, BitVec.getLsbD_ushiftRight, BitVec.getLsbD_xor,
    BitVec.getLsbD_ofNat]
  have hbit : b.toNat.testBit (8 + i) = false := by
    apply Nat.testBit_lt_two_pow
    exact b.toNat_lt.trans_le (Nat.pow_le_pow_right (by decide) (by omega))
  rw [hbit, Bool.and_false, Bool.xor_false]

/-- Byte by byte, with the eight steps of every low byte in a table. -/
theorem register_eq_foldl (table : BitVec w → BitVec w)
    (htable : ∀ c, table (low 8 c) = (step poly)^[8] (low 8 c)) (bytes : List UInt8) (c : BitVec w) :
    register poly bytes c =
      bytes.foldl (fun c b => table (low 8 (c ^^^ BitVec.ofNat w b.toNat)) ^^^ (c >>> 8)) c := by
  unfold register
  congr 1
  funext c b
  rw [iterate_step, htable, shiftRight_byte]

end Search.Crc
