import Mathlib.Data.BitVec
import Mathlib.Data.UInt
import Scour.Lib.Remainders

/-!
# Shares of a whole

Percentages and the cells of a bar, in the machine's numbers: both are `Search.apportion` of the
values (`units_eq`, `segmentCells_eq`), so they add up.
-/

namespace Scour.Chart

open Search

/-- A slice of numbers, which has no more of them than memory holds. -/
structure Values where
  values : List UInt64
  length_lt : values.length < 2 ^ 60

abbrev U128 := BitVec 128

/-- A number as a `u128`. -/
def wide (v : UInt64) : U128 := v.toBitVec.setWidth 128

def total (vs : Values) : U128 := (vs.values.map wide).sum

/-- The order of `(Reverse(r), i)`. -/
def byKey (a b : U128 × ℕ) : Bool := b.1 < a.1 || (a.1 = b.1 && a.2 ≤ b.2)

/-- `shares` before they are divided by the scale: hundredths of a percent at two decimals. -/
def units (vs : Values) (decimals : UInt8) : List U128 :=
  if total vs = 0 then List.replicate vs.values.length 0
  else
    let scale := (10 : U128) ^ decimals.toNat
    let whole := 100 * scale
    let units := vs.values.map fun v => wide v * whole / total vs
    let remainders := vs.values.zipIdx.map fun x => (wide x.1 * whole % total vs, x.2)
    let short := whole - units.sum
    handOut (· + 1) units (((remainders.mergeSort byKey).take (short.setWidth 64).toNat).map (·.2))

/-- The cells of a bar of `width` cells. -/
def segmentCells (vs : Values) (width : UInt64) : List UInt64 :=
  if total vs = 0 || width = 0 then List.replicate vs.values.length 0
  else
    let w := wide width
    let cells := vs.values.map fun v => UInt64.ofBitVec ((wide v * w / total vs).setWidth 64)
    let remainders := vs.values.zipIdx.map fun x => (wide x.1 * w % total vs, x.2)
    let short := width - cells.sum
    handOut (· + 1) cells (((remainders.mergeSort byKey).take short.toNat).map (·.2))

/-! ## In unbounded numbers -/

/-- The values as numbers. -/
def Values.nums (vs : Values) : List ℕ := vs.values.map UInt64.toNat

variable {vs : Values} {whole : U128}

/-- A sum that is not too large is right in numbers that wrap. -/
theorem toNat_sum {α : Type} [Add α] [Zero α] {g : α → ℕ} {m : ℕ} (hzero : g 0 = 0)
    (hadd : ∀ a b, g (a + b) = (g a + g b) % m) {l : List α} (h : (l.map g).sum < m) :
    g l.sum = (l.map g).sum := by
  induction l with
  | nil => exact hzero
  | cons a l ih =>
    rw [List.map_cons, List.sum_cons] at h
    rw [List.sum_cons, List.map_cons, List.sum_cons, hadd, ih (by omega), Nat.mod_eq_of_lt h]

theorem wide_toNat (v : UInt64) : (wide v).toNat = v.toNat := by
  have hv := v.toNat_lt
  exact (BitVec.toNat_setWidth _ _).trans (Nat.mod_eq_of_lt (by rw [UInt64.toNat_toBitVec]; omega))

theorem nums_sum_lt (vs : Values) : vs.nums.sum < 2 ^ 124 := by
  by_cases hnil : vs.nums = []
  · rw [hnil]
    decide
  · have hlt := sum_lt_of_forall_lt hnil (b := 2 ^ 64) fun x hx => by
      obtain ⟨v, -, rfl⟩ := List.mem_map.mp hx
      exact v.toNat_lt
    have hlen : vs.nums.length < 2 ^ 60 := (List.length_map _).trans_lt vs.length_lt
    omega

theorem total_toNat (vs : Values) : (total vs).toNat = vs.nums.sum := by
  have hnums : (vs.values.map wide).map BitVec.toNat = vs.nums := by
    rw [List.map_map]
    exact List.map_congr_left fun v _ => wide_toNat v
  have hlt := nums_sum_lt vs
  rw [total, toNat_sum (m := 2 ^ 128) rfl BitVec.toNat_add, hnums]
  rw [hnums]
  omega

theorem total_ne_zero (h : 0 < vs.nums.sum) : total vs ≠ 0 := by
  intro hzero
  rw [← total_toNat, hzero] at h
  exact absurd h (by decide)

/-- No product is too large for a `u128`. -/
theorem product_lt (hw : whole.toNat ≤ 2 ^ 64) (v : UInt64) :
    v.toNat * whole.toNat < 2 ^ 128 := by
  have hv := v.toNat_lt
  calc v.toNat * whole.toNat ≤ v.toNat * 2 ^ 64 := Nat.mul_le_mul_left _ hw
    _ < 2 ^ 128 := by omega

theorem product_toNat (hw : whole.toNat ≤ 2 ^ 64) (v : UInt64) :
    (wide v * whole).toNat = v.toNat * whole.toNat := by
  rw [BitVec.toNat_mul, wide_toNat, Nat.mod_eq_of_lt (product_lt hw v)]

theorem quotient_toNat (hw : whole.toNat ≤ 2 ^ 64) (v : UInt64) :
    (wide v * whole / total vs).toNat = v.toNat * whole.toNat / vs.nums.sum := by
  rw [BitVec.toNat_udiv, product_toNat hw, total_toNat]

/-- The order of the remainders. -/
theorem order_eq (hw : whole.toNat ≤ 2 ^ 64) :
    ((vs.values.zipIdx.map fun x => (wide x.1 * whole % total vs, x.2)).mergeSort byKey).map
      (fun x => (x.1.toNat, x.2)) = byRemainder vs.nums whole.toNat := by
  rw [List.map_mergeSort (s := sooner), byRemainder, remainders, List.map_map, Values.nums,
    List.zipIdx_map, List.map_map]
  · refine congrArg (List.mergeSort · sooner) (List.map_congr_left fun x _ => ?_)
    show ((wide x.1 * whole % total vs).toNat, x.2) = _
    rw [BitVec.toNat_umod, product_toNat hw, total_toNat]
    rfl
  · intro a _ b _
    show (decide _ || (decide _ && decide _)) = (decide _ || (decide _ && decide _))
    rw [decide_eq_decide.mpr (BitVec.lt_def (x := b.1) (y := a.1)),
      decide_eq_decide.mpr (BitVec.toNat_inj (x := a.1) (y := b.1)).symm]

theorem positions_eq (hw : whole.toNat ≤ 2 ^ 64) (n : ℕ) :
    ((((vs.values.zipIdx.map fun x => (wide x.1 * whole % total vs, x.2)).mergeSort byKey).take
      n).map (·.2)) = ((byRemainder vs.nums whole.toNat).take n).map (·.2) := by
  rw [← order_eq hw, ← List.map_take, List.map_map]
  rfl

theorem toNat_le_of_le_total {v : UInt64} (hv : v ∈ vs.values) (w : ℕ) :
    v.toNat * w / vs.nums.sum ≤ w := by
  have hle : v.toNat ≤ vs.nums.sum := List.le_sum_of_mem (List.mem_map_of_mem hv)
  refine Nat.div_le_of_le_mul ?_
  exact Nat.mul_le_mul_right w hle

/-- A step up from a part that is not everything. -/
theorem succ_toNat {n : ℕ} {u : BitVec n} {w : ℕ} (hu : u.toNat < w) (hw : w < 2 ^ n) :
    (u + 1).toNat = u.toNat + 1 := by
  have hone : 1 < 2 ^ n := by omega
  have hn : (1 : BitVec n).toNat = 1 := Nat.mod_eq_of_lt hone
  rw [BitVec.toNat_add, hn, Nat.mod_eq_of_lt (by omega)]

theorem leftOver_lt (h : 0 < vs.nums.sum) (w : ℕ) : leftOver vs.nums w < 2 ^ 60 :=
  (leftOver_le h).trans_lt ((List.length_map _).trans_lt vs.length_lt)

theorem pow_toNat {n : ℕ} (h : n < 18) : (100 * (10 : U128) ^ n).toNat = 100 * 10 ^ n := by
  revert n
  decide +kernel

theorem whole_le {n : ℕ} (h : n < 18) : (100 * (10 : U128) ^ n).toNat ≤ 2 ^ 64 := by
  rw [pow_toNat h]
  calc 100 * 10 ^ n ≤ 100 * 10 ^ 17 :=
      Nat.mul_le_mul_left _ (Nat.pow_le_pow_right (by decide) (Nat.le_of_lt_succ h))
    _ ≤ 2 ^ 64 := by decide

theorem wide_le (width : UInt64) : (wide width).toNat ≤ 2 ^ 64 := by
  rw [wide_toNat]
  exact width.toNat_lt.le

theorem units_eq (h : 0 < vs.nums.sum) {decimals : UInt8} (hd : decimals ≤ 17) :
    (units vs decimals).map BitVec.toNat = apportion vs.nums (100 * 10 ^ decimals.toNat) := by
  have hlt : decimals.toNat < 18 := Nat.lt_succ_of_le (UInt8.le_iff_toNat_le.mp hd)
  have hwhole := pow_toNat hlt
  have hle := whole_le hlt
  unfold units
  rw [if_neg (total_ne_zero h), ← hwhole]
  dsimp only
  generalize 100 * (10 : U128) ^ decimals.toNat = whole at hle ⊢
  have hfloors : (vs.values.map fun v => wide v * whole / total vs).map BitVec.toNat =
      floors vs.nums whole.toNat := by
    rw [List.map_map, floors, Values.nums, List.map_map]
    exact List.map_congr_left fun v _ => quotient_toNat hle v
  have hsum := floors_sum_le h whole.toNat
  have hunits : (vs.values.map fun v => wide v * whole / total vs).sum.toNat =
      (floors vs.nums whole.toNat).sum := by
    rw [toNat_sum (m := 2 ^ 128) rfl BitVec.toNat_add, hfloors]
    rw [hfloors]
    omega
  have hshort : ((whole - (vs.values.map fun v => wide v * whole / total vs).sum).setWidth
      64).toNat = leftOver vs.nums whole.toNat := by
    have hleft := leftOver_lt h whole.toNat
    rw [BitVec.toNat_setWidth, BitVec.toNat_sub_of_le (BitVec.le_def.mpr (hunits ▸ hsum)), hunits]
    exact Nat.mod_eq_of_lt (by unfold leftOver at hleft; omega)
  rw [hshort, positions_eq hle, apportion, ← hfloors]
  refine handOut_map (taken_positions _ _ _) fun i hi u hu => ?_
  obtain ⟨v, hv, rfl⟩ := Option.map_eq_some_iff.mp ((List.getElem?_map ..).symm.trans hu)
  have hvi : vs.nums[i]? = some v.toNat := by rw [Values.nums, List.getElem?_map, hv]; rfl
  refine succ_toNat (w := whole.toNat) ?_ whole.isLt
  rw [quotient_toNat hle]
  exact floor_lt_of_taken h hvi hi

theorem segmentCells_eq (h : 0 < vs.nums.sum) (width : UInt64) :
    (segmentCells vs width).map UInt64.toNat = apportion vs.nums width.toNat := by
  have hle := wide_le width
  have hpart : ∀ v ∈ vs.values,
      (UInt64.ofBitVec ((wide v * wide width / total vs).setWidth 64)).toNat =
        v.toNat * width.toNat / vs.nums.sum := by
    intro v hv
    have hlt := (toNat_le_of_le_total hv width.toNat).trans_lt width.toNat_lt
    rw [UInt64.toNat_ofBitVec, BitVec.toNat_setWidth, quotient_toNat hle, wide_toNat,
      Nat.mod_eq_of_lt hlt]
  have hfloors : (vs.values.map fun v =>
      UInt64.ofBitVec ((wide v * wide width / total vs).setWidth 64)).map UInt64.toNat =
        floors vs.nums width.toNat := by
    rw [List.map_map, floors, Values.nums, List.map_map]
    exact List.map_congr_left fun v hv => hpart v hv
  have hsum := floors_sum_le h width.toNat
  have hcells : (vs.values.map fun v =>
      UInt64.ofBitVec ((wide v * wide width / total vs).setWidth 64)).sum.toNat =
        (floors vs.nums width.toNat).sum := by
    rw [toNat_sum (m := 2 ^ 64) rfl UInt64.toNat_add, hfloors]
    rw [hfloors]
    exact hsum.trans_lt width.toNat_lt
  have hshort : (width - (vs.values.map fun v =>
      UInt64.ofBitVec ((wide v * wide width / total vs).setWidth 64)).sum).toNat =
        leftOver vs.nums width.toNat := by
    rw [UInt64.toNat_sub_of_le _ _ (UInt64.le_iff_toNat_le.mpr (hcells ▸ hsum)), hcells]
    rfl
  unfold segmentCells
  by_cases hzero : width = 0
  · subst hzero
    have hlen : vs.nums.length = vs.values.length := List.length_map _
    have hboth : (decide (total vs = 0) || decide ((0 : UInt64) = 0)) = true := Bool.or_true _
    rw [if_pos hboth, List.map_replicate, UInt64.toNat_zero, apportion_zero, hlen]
  · have hneither : ¬ (decide (total vs = 0) || decide (width = 0)) = true := by
      rw [Bool.or_eq_true, decide_eq_true_eq, decide_eq_true_eq]
      exact fun h' => h'.elim (total_ne_zero h) hzero
    rw [if_neg hneither]
    dsimp only
    rw [hshort, positions_eq hle, wide_toNat, apportion, ← hfloors]
    refine handOut_map (taken_positions _ _ _) fun i hi u hu => ?_
    obtain ⟨v, hv, rfl⟩ := Option.map_eq_some_iff.mp ((List.getElem?_map ..).symm.trans hu)
    have hvi : vs.nums[i]? = some v.toNat := by rw [Values.nums, List.getElem?_map, hv]; rfl
    have hlt := floor_lt_of_taken h hvi hi
    rw [← hpart v (List.mem_of_getElem? hv)] at hlt
    exact succ_toNat (n := 64) hlt width.toNat_lt

/-- Both add up, in proportion and in order. -/
theorem shares_add_up (vs : Values) (h : 0 < (vs.values.map UInt64.toNat).sum) :
    (∀ decimals : UInt8, decimals ≤ 17 → Apportioned (vs.values.map UInt64.toNat)
      (100 * 10 ^ decimals.toNat) ((units vs decimals).map BitVec.toNat) ∧
      ∀ v ∈ vs.values, v.toNat * (100 * 10 ^ decimals.toNat) < 2 ^ 128) ∧
    ∀ width : UInt64, Apportioned (vs.values.map UInt64.toNat) width.toNat
      ((segmentCells vs width).map UInt64.toNat) ∧
      ∀ v ∈ vs.values, v.toNat * width.toNat < 2 ^ 128 := by
  refine ⟨fun decimals hd => ⟨?_, fun v _ => ?_⟩, fun width => ⟨?_, fun v _ => ?_⟩⟩
  · rw [units_eq h hd]
    exact apportion_apportioned h _
  · have hlt : decimals.toNat < 18 := Nat.lt_succ_of_le (UInt8.le_iff_toNat_le.mp hd)
    have hproduct := product_lt (whole_le hlt) v
    rwa [pow_toNat hlt] at hproduct
  · rw [segmentCells_eq h]
    exact apportion_apportioned h _
  · have hproduct := product_lt (wide_le width) v
    rwa [wide_toNat] at hproduct

theorem shares_add_up_thirds :
    Apportioned [1, 1, 1] 10000 ((units ⟨[1, 1, 1], by decide⟩ 2).map BitVec.toNat) :=
  ((shares_add_up ⟨[1, 1, 1], by decide⟩ (by decide)).1 2 (by decide)).1

end Scour.Chart
