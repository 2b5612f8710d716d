import Scour.Rank
import Scour.Sizes

/-!
# Live bitmaps, compared

`died` compares two bitmaps by words and then by bytes; it comes to every row that is live in the one
and dead in the other, once and in order (`died_eq`).  `bitAt_clear` is what clearing a bit does to
the others.
-/

namespace Scour

/-! ## Bits of a byte -/

theorem and_shift_eq_testBit (byte : UInt8) {i : Nat} (h : i < 8) :
    (byte &&& (1 <<< UInt8.ofNat i) != 0) = byte.toNat.testBit i := by
  have hall : ∀ n : Fin 256, ∀ k : Fin 8,
      (UInt8.ofNat n.val &&& (1 <<< UInt8.ofNat k.val) != 0) = n.val.testBit k.val := by
    decide +kernel
  have hbyte := hall ⟨byte.toNat, byte.toNat_lt⟩ ⟨i, h⟩
  rwa [UInt8.ofNat_toNat] at hbyte

theorem testBit_clear (byte : UInt8) {i j : Nat} (hi : i < 8) (hj : j < 8) :
    (byte &&& ~~~ (1 <<< UInt8.ofNat j)).toNat.testBit i = (byte.toNat.testBit i && i != j) := by
  have hall : ∀ k l : Fin 8,
      (~~~ ((1 : UInt8) <<< UInt8.ofNat l.val)).toNat.testBit k.val = (k.val != l.val) := by
    decide +kernel
  rw [UInt8.toNat_and, Nat.testBit_and, hall ⟨i, hi⟩ ⟨j, hj⟩]

theorem testBit_not (byte : UInt8) {i : Nat} (hi : i < 8) :
    (~~~ byte).toNat.testBit i = !byte.toNat.testBit i := by
  have hall : ∀ n : Fin 256, ∀ k : Fin 8,
      (~~~ UInt8.ofNat n.val).toNat.testBit k.val = !n.val.testBit k.val := by
    decide +kernel
  have hbyte := hall ⟨byte.toNat, byte.toNat_lt⟩ ⟨i, hi⟩
  rwa [UInt8.ofNat_toNat] at hbyte

theorem bitAt_eq_testBit (alive : Str) (row : Nat) :
    bitAt alive row = (alive[row / 8]?).any fun byte => byte.toNat.testBit (row % 8) := by
  unfold bitAt
  cases alive[row / 8]? with
  | none => rfl
  | some byte => exact and_shift_eq_testBit byte (Nat.mod_lt row (by omega))

/-- A bitmap of one byte holds eight rows. -/
theorem bitAt_singleton_lt {byte : UInt8} {row : Nat} (h : bitAt [byte] row = true) : row < 8 := by
  by_contra hge
  unfold bitAt at h
  rw [List.getElem?_eq_none (by rw [List.length_singleton]; omega)] at h
  cases h

/-- Clearing a bit leaves the others. -/
theorem bitAt_clear (alive : Str) (row i : Nat) :
    bitAt (alive.modify (row / 8) (· &&& ~~~ (1 <<< UInt8.ofNat (row % 8)))) i =
      (bitAt alive i && i != row) := by
  rw [bitAt_eq_testBit, bitAt_eq_testBit, List.getElem?_modify]
  cases alive[i / 8]? with
  | none => rfl
  | some byte =>
    by_cases hbyte : row / 8 = i / 8
    · have hne : (i % 8 != row % 8) = (i != row) := by
        rw [Bool.eq_iff_iff, bne_iff_ne, bne_iff_ne]
        omega
      simp only [hbyte, if_true, Option.map_eq_map, Option.map_some, Option.any_some]
      rw [testBit_clear byte (Nat.mod_lt _ (by omega)) (Nat.mod_lt _ (by omega)), hne]
    · have hne : (i != row) = true := by
        rw [bne_iff_ne]
        rintro rfl
        exact hbyte rfl
      simp [hbyte, hne]

/-! ## Words -/

/-- The bits of a word are those of its bytes. -/
theorem leWord_spec (bs : Str) (h : bs.length ≤ 8) :
    (leWord bs).toNat < 2 ^ (8 * bs.length) ∧
      ∀ i, (leWord bs).toNat.testBit i = (bs[i / 8]?).any fun b => b.toNat.testBit (i % 8) := by
  induction bs with
  | nil =>
    refine ⟨by decide, fun i => ?_⟩
    simp [leWord]
  | cons b bs ih =>
    rw [List.length_cons] at h
    obtain ⟨hlt, hbits⟩ := ih (by omega)
    have hb : b.toNat < 2 ^ 8 := b.toNat_lt
    have hpow : 2 ^ (8 * (bs.length + 1)) = 2 ^ (8 * bs.length) * 2 ^ 8 := by
      rw [← Nat.pow_add]
      rfl
    have hle : 2 ^ (8 * (bs.length + 1)) ≤ 2 ^ 64 := Nat.pow_le_pow_right (by omega) (by omega)
    have hval : (leWord (b :: bs)).toNat = b.toNat ||| (leWord bs).toNat <<< 8 := by
      show (b.toUInt64 ||| (leWord bs <<< 8)).toNat = _
      rw [UInt64.toNat_or, UInt64.toNat_shiftLeft, UInt8.toNat_toUInt64, Nat.mod_eq_of_lt]
      · rfl
      · show (leWord bs).toNat <<< 8 < _
        rw [Nat.shiftLeft_eq]
        omega
    rw [hval]
    constructor
    · rw [List.length_cons]
      refine Nat.or_lt_two_pow (Nat.lt_of_lt_of_le hb ?_) ?_
      · exact Nat.pow_le_pow_right (by omega) (by omega)
      · rw [Nat.shiftLeft_eq]
        omega
    · intro i
      rw [Nat.testBit_or, Nat.testBit_shiftLeft, hbits]
      by_cases hi : i < 8
      · rw [show i / 8 = 0 by omega, show i % 8 = i by omega]
        simp [hi]
      · have hhigh : b.toNat.testBit i = false :=
          Nat.testBit_lt_two_pow (Nat.lt_of_lt_of_le hb (Nat.pow_le_pow_right (by omega) (by omega)))
        obtain ⟨k, rfl⟩ : ∃ k, i = k + 8 := ⟨i - 8, by omega⟩
        rw [hhigh, Bool.false_or, show (k + 8) / 8 = k / 8 + 1 by omega,
          show (k + 8) % 8 = k % 8 by omega, List.getElem?_cons_succ, Nat.add_sub_cancel]
        simp

/-! ## Comparing -/

/-- Blocks of `k` positions, one after another. -/
theorem flatMap_range_blocks (q : Nat → Bool) (k m : Nat) :
    (List.range m).flatMap (fun a => ((List.range k).filter fun i => q (a * k + i)).map (a * k + ·)) =
      (List.range (m * k)).filter q := by
  induction m with
  | zero => simp
  | succ m ih =>
    rw [List.range_succ, List.flatMap_append, ih, List.flatMap_singleton, Nat.succ_mul,
      List.range_add, List.filter_append, List.filter_map]
    rfl

/-- The rows live in the one and dead in the other. -/
def diedAt (was now : Str) (row : Nat) : Bool := bitAt was row && !bitAt now row

theorem setBits_word {was now : Str} {a : Nat} (hwas : a * 8 + 8 ≤ was.length)
    (hnow : a * 8 + 8 ≤ now.length) :
    Search.setBits 64 (leWord ((was.drop (a * 8)).take 8) &&&
      ~~~ leWord ((now.drop (a * 8)).take 8)).toNat =
        (List.range 64).filter fun i => diedAt was now (a * 64 + i) := by
  have hlen : ∀ s : Str, a * 8 + 8 ≤ s.length → ((s.drop (a * 8)).take 8).length = 8 := by
    intro s h
    rw [List.length_take, List.length_drop]
    omega
  rw [Search.setBits_eq (UInt64.toNat_lt _)]
  refine List.filter_congr fun i hi => ?_
  have hi : i < 64 := List.mem_range.mp hi
  have hbyte : ∀ s : Str, a * 8 + 8 ≤ s.length →
      (leWord ((s.drop (a * 8)).take 8)).toNat.testBit i = bitAt s (a * 64 + i) := by
    intro s h
    rw [(leWord_spec _ (by rw [hlen s h])).2, bitAt_eq_testBit,
      List.getElem?_take_of_lt (by omega), List.getElem?_drop,
      show (a * 64 + i) / 8 = a * 8 + i / 8 by omega, show (a * 64 + i) % 8 = i % 8 by omega]
  have hnot : UInt64.size - 1 - (leWord ((now.drop (a * 8)).take 8)).toNat =
      2 ^ 64 - ((leWord ((now.drop (a * 8)).take 8)).toNat + 1) := by
    show 2 ^ 64 - 1 - _ = _
    omega
  rw [UInt64.toNat_and, Nat.testBit_and, hbyte was hwas, UInt64.toNat_not, hnot,
    Nat.testBit_two_pow_sub_succ (UInt64.toNat_lt _), hbyte now hnow]
  simp [diedAt, hi]

theorem setBits_byte (was now : UInt8) :
    Search.setBits 8 (was &&& ~~~ now).toNat =
      (List.range 8).filter fun i => was.toNat.testBit i && !now.toNat.testBit i := by
  rw [Search.setBits_eq (UInt8.toNat_lt _)]
  refine List.filter_congr fun i hi => ?_
  rw [UInt8.toNat_and, Nat.testBit_and, testBit_not now (List.mem_range.mp hi)]

/-- The bytes after the last whole word, one at a time. -/
theorem flatMap_bytes (Q : Nat → Bool) (l : List (UInt8 × UInt8)) :
    ∀ start, (∀ k p, l[k]? = some p → ∀ i < 8,
        Q ((start + k) * 8 + i) = (p.1.toNat.testBit i && !p.2.toNat.testBit i)) →
      (l.zipIdx start).flatMap (fun p =>
          (Search.setBits 8 (p.1.1 &&& ~~~ p.1.2).toNat).map (p.2 * 8 + ·)) =
        (List.range' (start * 8) (l.length * 8)).filter Q := by
  induction l with
  | nil => exact fun start _ => rfl
  | cons p l ih =>
    intro start hQ
    have htail := ih (start + 1) fun k q hk i hi => by
      rw [Nat.add_assoc, Nat.add_comm 1 k]
      exact hQ (k + 1) q hk i hi
    have hhead : (Search.setBits 8 (p.1 &&& ~~~ p.2).toNat).map (start * 8 + ·) =
        (List.range' (start * 8) 8).filter Q := by
      rw [setBits_byte, List.range'_eq_map_range, List.filter_map]
      congr 1
      refine List.filter_congr fun i hi => ?_
      exact (hQ 0 p rfl i (List.mem_range.mp hi)).symm
    have hrange : List.range' (start * 8) ((p :: l).length * 8) =
        List.range' (start * 8) 8 ++ List.range' ((start + 1) * 8) (l.length * 8) := by
      rw [Nat.succ_mul, List.range'_append_1, List.length_cons]
      congr 1
      omega
    rw [List.zipIdx_cons, List.flatMap_cons, htail, hrange, List.filter_append, ← hhead]

/-- **The comparison comes to every row that died**, in order. -/
theorem died_eq (was now : Str) (h : was.length = now.length) :
    Sizes.died was now = (List.range (was.length * 8)).filter (diedAt was now) := by
  unfold Sizes.died
  dsimp only
  rw [← h, Nat.min_self]
  have hwords : (List.range (was.length / 8)).flatMap (fun a =>
      (Search.setBits 64 (leWord ((was.drop (a * 8)).take 8) &&&
        ~~~ leWord ((now.drop (a * 8)).take 8)).toNat).map (a * 64 + ·)) =
      (List.range (was.length / 8 * 64)).filter (diedAt was now) := by
    rw [← flatMap_range_blocks]
    refine List.flatMap_congr fun a ha => ?_
    have ha := List.mem_range.mp ha
    rw [setBits_word (by omega) (by omega)]
  have hlen : ((was.zip now).drop (was.length / 8 * 8)).length = was.length - was.length / 8 * 8 := by
    rw [List.length_drop, List.length_zip, ← h, Nat.min_self]
  have hbytes := flatMap_bytes (diedAt was now) ((was.zip now).drop (was.length / 8 * 8))
    (was.length / 8 * 8) (by
      intro k p hk i hi
      rw [List.getElem?_drop, List.getElem?_zip_eq_some] at hk
      unfold diedAt
      rw [bitAt_eq_testBit, bitAt_eq_testBit,
        show ((was.length / 8 * 8 + k) * 8 + i) / 8 = was.length / 8 * 8 + k by omega,
        show ((was.length / 8 * 8 + k) * 8 + i) % 8 = i by omega, hk.1, hk.2]
      rfl)
  have hdrop : (was.zip now).zipIdx.drop (was.length / 8 * 8) =
      ((was.zip now).drop (was.length / 8 * 8)).zipIdx (was.length / 8 * 8) := by
    refine List.ext_getElem? fun i => ?_
    rw [List.getElem?_drop, List.getElem?_zipIdx, List.getElem?_zipIdx, List.getElem?_drop, Nat.zero_add]
  have hrange : List.range (was.length * 8) = List.range (was.length / 8 * 64) ++
      List.range' (was.length / 8 * 8 * 8) ((was.length - was.length / 8 * 8) * 8) := by
    rw [List.range_eq_range', List.range_eq_range', show was.length / 8 * 8 * 8 =
      0 + was.length / 8 * 64 by omega, List.range'_append_1]
    congr 1
    omega
  rw [hwords, hdrop, hbytes, hlen, hrange, List.filter_append]

end Scour
