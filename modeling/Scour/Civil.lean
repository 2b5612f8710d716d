import Scour.Fields
import Scour.Lib.Gregorian

/-!
# The calendar in `i64`

`civilFromDays` is how a described day is written and `civil` how an exported one is.  The two are the
Gregorian calendar (`civilFromDays_eq`, `civil_eq`), and `daysFromCivil` is their inverse
(`daysFromCivil_date`).

`Checked` is the arithmetic of `days_from_civil` as a build that looks for overflow does it.  The
seconds of a date are found exactly where they fit (`seconds_eq`), and they fit up to the fourth of
December 292277026596 (`dayFits_iff`).
-/

namespace Scour

/-! ## Whole numbers in an `i64` -/

/-- `i64` holds this. -/
abbrev FitsI64 (n : Int) : Prop := -2 ^ 63 ≤ n ∧ n < 2 ^ 63

theorem bmod_of_fits {n : Int} (h : FitsI64 n) : n.bmod (2 ^ 64) = n :=
  Int.bmod_eq_of_le (by have := h.1; omega) (by have := h.2; omega)

section

variable {a b : Int64} {x y : Int}

theorem toInt_add_of (ha : a.toInt = x) (hb : b.toInt = y) (h : FitsI64 (x + y)) :
    (a + b).toInt = x + y := by
  rw [Int64.toInt_add, ha, hb, bmod_of_fits h]

theorem toInt_sub_of (ha : a.toInt = x) (hb : b.toInt = y) (h : FitsI64 (x - y)) :
    (a - b).toInt = x - y := by
  rw [Int64.toInt_sub, ha, hb, bmod_of_fits h]

theorem toInt_mul_of (ha : a.toInt = x) (hb : b.toInt = y) (h : FitsI64 (x * y)) :
    (a * b).toInt = x * y := by
  rw [Int64.toInt_mul, ha, hb, bmod_of_fits h]

/-- A quotient that truncates is the floor where nothing is negative. -/
theorem toInt_div_of (ha : a.toInt = x) (hb : b.toInt = y) (hx : 0 ≤ x) (hy : 0 < y) :
    (a / b).toInt = x / y := by
  have hle := a.toInt_lt
  have hq := Int.ediv_le_self y hx
  have h0 := Int.ediv_nonneg hx (le_of_lt hy)
  rw [Int64.toInt_div, ha, hb, Int.tdiv_eq_ediv_of_nonneg hx, bmod_of_fits ⟨by omega, by omega⟩]

/-- The floor, where something is. -/
theorem tdiv_floor (hy : 0 < y) (hx : x < 0) : (x - (y - 1)).tdiv y = x / y := by
  have hr0 := Int.emod_nonneg x (ne_of_gt hy)
  have hr1 := Int.emod_lt_of_pos x hy
  have hsplit : x - (y - 1) = -((y - 1 - x % y) + y * (-(x / y))) := by
    have h := Int.emod_add_mul_ediv x y
    rw [mul_neg]
    omega
  have hnonneg : 0 ≤ (y - 1 - x % y) + y * (-(x / y)) := by omega
  rw [hsplit, Int.neg_tdiv, Int.tdiv_eq_ediv_of_nonneg hnonneg,
    Int.add_mul_ediv_left _ _ (ne_of_gt hy), Int.ediv_eq_zero_of_lt (by omega) (by omega)]
  omega

theorem toInt_floor_of {c : Int64} (ha : a.toInt = x) (hb : b.toInt = y) (hc : c.toInt = y - 1)
    (hy : 0 < y) (h : FitsI64 (x - (y - 1))) :
    ((if a ≥ 0 then a else a - c) / b).toInt = x / y := by
  have hnonneg : a ≥ 0 ↔ 0 ≤ x := by
    rw [ge_iff_le, Int64.le_iff_toInt_le, ha]
    rfl
  simp only [hnonneg]
  split_ifs with hx
  · exact toInt_div_of ha hb hx hy
  · have hx : x < 0 := Int.not_le.mp hx
    have hq := Int.ediv_neg_of_neg_of_pos hx hy
    have hle := Int.self_le_ediv_of_nonpos_of_nonneg (le_of_lt hx) (le_of_lt hy)
    have hlow := a.le_toInt
    rw [Int64.toInt_div, toInt_sub_of ha hc h, hb, tdiv_floor hy hx,
      bmod_of_fits ⟨by omega, by omega⟩]

theorem toInt_mod_of (ha : a.toInt = x) (hb : b.toInt = y) (hx : 0 ≤ x) :
    (a % b).toInt = x % y := by
  rw [Int64.toInt_mod, ha, hb, Int.tmod_eq_emod_of_nonneg hx]

end

/-- `as u32`, of a number that fits. -/
theorem toNat_toUInt32_of {a : Int64} {x : Int} (ha : a.toInt = x) (h0 : 0 ≤ x) (h1 : x < 2 ^ 32) :
    (a.toUInt64.toUInt32.toNat : Int) = x := by
  have hpos : 0 ≤ a := by
    rw [Int64.le_iff_toInt_le, ha]
    exact h0
  rw [UInt64.toNat_toUInt32, Int64.toNat_toUInt64_of_le hpos, Int64.toNatClampNeg, ha]
  omega

/-! ## A day as it is written -/

/-- `i64::div_euclid` and `i64::rem_euclid`, by a positive number. -/
def divEuclid (a b : Int64) : Int64 := Int64.ofInt (a.toInt / b.toInt)

def remEuclid (a b : Int64) : Int64 := Int64.ofInt (a.toInt % b.toInt)

/-- Year, month and day of a day of an era: what `civil_from_days` and `civil` have in common. -/
def civilOfEra (era doe : Int64) : Int64 × Int64 × Int64 :=
  let yoe := (doe - doe / 1460 + doe / 36524 - doe / 146096) / 365
  let y := yoe + era * 400
  let doy := doe - (365 * yoe + yoe / 4 - yoe / 100)
  let mp := (5 * doy + 2) / 153
  let d := doy - (153 * mp + 2) / 5 + 1
  let m := if mp < 10 then mp + 3 else mp - 9
  (if m ≤ 2 then y + 1 else y, m, d)

/-- `civil_from_days`, which describes a day. -/
def civilFromDays (z : Int64) : Int64 × Int64 × Int64 :=
  let z := z + 719468
  let era := (if z ≥ 0 then z else z - 146096) / 146097
  civilOfEra era (z - era * 146097)

/-- `civil`, which exports one. -/
def civil (z : Int64) : Int64 × UInt32 × UInt32 :=
  let z := z + 719468
  let (y, m, d) := civilOfEra (divEuclid z 146097) (remEuclid z 146097)
  (y, m.toUInt64.toUInt32, d.toUInt64.toUInt32)

example : civilFromDays (-1) = (1969, 12, 31) := by decide

/-- The seconds of this day fit. -/
abbrev DayFits (z : Int) : Prop := FitsI64 (z * 86400)

theorem DayFits.bounds {z : Int} (h : DayFits z) : -106751991167300 ≤ z ∧ z ≤ 106751991167300 := by
  omega

/-- What `i64` computes of a day of an era is exact. -/
theorem civilOfEra_toInt {era doe : Int64} {z : Int} (hz : DayFits z)
    (he : era.toInt = (z + 719468) / 146097) (hd : doe.toInt = (z + 719468) % 146097) :
    ((civilOfEra era doe).1.toInt, (civilOfEra era doe).2.1.toInt, (civilOfEra era doe).2.2.toInt) =
      Search.splitDay z := by
  obtain ⟨hz0, hz1⟩ := hz.bounds
  have hera : -10 ^ 10 ≤ (z + 719468) / 146097 ∧ (z + 719468) / 146097 ≤ 10 ^ 10 := by omega
  have hd0 := Int.emod_nonneg (z + 719468) (by decide : (146097 : Int) ≠ 0)
  have hd1 := Int.emod_lt_of_pos (z + 719468) (by decide : (0 : Int) < 146097)
  simp only [Search.splitDay, civilOfEra]
  generalize (z + 719468) / 146097 = e at he hera
  generalize (z + 719468) % 146097 = n at hd hd0 hd1
  obtain ⟨c, q, w, t, hc0, hc, hq0, hq, hw0, hw, ht0, ht, hdoe⟩ := Search.era_split hd0 hd1
  have hy := Search.yearOfEra hc0 hc hq0 hq hw0 hw ht0 ht hdoe
  have hyoe : ((doe - doe / 1460 + doe / 36524 - doe / 146096) / 365).toInt =
      (n - n / 1460 + n / 36524 - n / 146096) / 365 := by
    refine toInt_div_of (toInt_sub_of (toInt_add_of (toInt_sub_of hd
      (toInt_div_of hd rfl hd0 (by decide)) ?_) (toInt_div_of hd rfl hd0 (by decide)) ?_)
      (toInt_div_of hd rfl hd0 (by decide)) ?_) rfl ?_ (by decide) <;> omega
  obtain ⟨h4, h100, -⟩ := Search.leaps_before 0 hc0 hc hq0 hq hw0 hw
  rw [Int.zero_mul, Int.add_zero, ← hy] at h4 h100
  generalize (doe - doe / 1460 + doe / 36524 - doe / 146096) / 365 = yoe at hyoe
  generalize (n - n / 1460 + n / 36524 - n / 146096) / 365 = y at hy hyoe h4 h100
  have hyear : (yoe + era * 400).toInt = y + e * 400 := by
    refine toInt_add_of hyoe (toInt_mul_of he rfl ?_) ?_ <;> omega
  have hdoy : (doe - (365 * yoe + yoe / 4 - yoe / 100)).toInt = n - (365 * y + y / 4 - y / 100) := by
    refine toInt_sub_of hd (toInt_sub_of (toInt_add_of (toInt_mul_of rfl hyoe ?_)
      (toInt_div_of hyoe rfl ?_ (by decide)) ?_) (toInt_div_of hyoe rfl ?_ (by decide)) ?_) ?_ <;>
      omega
  have hday : n - (365 * y + y / 4 - y / 100) = t := by omega
  rw [hday] at hdoy ⊢
  generalize doe - (365 * yoe + yoe / 4 - yoe / 100) = doy at hdoy
  generalize yoe + era * 400 = year at hyear
  have hmp : ((5 * doy + 2) / 153).toInt = (5 * t + 2) / 153 := by
    refine toInt_div_of (toInt_add_of (toInt_mul_of rfl hdoy ?_) rfl ?_) rfl ?_ (by decide) <;> omega
  have hmp11 : 0 ≤ (5 * t + 2) / 153 ∧ (5 * t + 2) / 153 ≤ 11 := by omega
  generalize (5 * doy + 2) / 153 = mp at hmp
  generalize (5 * t + 2) / 153 = p at hmp hmp11
  have hd : (doy - (153 * mp + 2) / 5 + 1).toInt = t - (153 * p + 2) / 5 + 1 := by
    refine toInt_add_of (toInt_sub_of hdoy (toInt_div_of (toInt_add_of (toInt_mul_of rfl hmp ?_)
      rfl ?_) rfl ?_ (by decide)) ?_) rfl ?_ <;> omega
  have hm : (if mp < 10 then mp + 3 else mp - 9).toInt = if p < 10 then p + 3 else p - 9 := by
    have hlt : mp < 10 ↔ p < 10 := by rw [Int64.lt_iff_toInt_lt, hmp]; rfl
    simp only [hlt]
    split_ifs
    · exact toInt_add_of hmp rfl (by omega)
    · exact toInt_sub_of hmp rfl (by omega)
  generalize (if mp < 10 then mp + 3 else mp - 9) = m at hm
  have hle : m ≤ 2 ↔ (if p < 10 then p + 3 else p - 9) ≤ 2 := by
    rw [Int64.le_iff_toInt_le, hm]
    rfl
  have hyear' : (if m ≤ 2 then year + 1 else year).toInt =
      if (if p < 10 then p + 3 else p - 9) ≤ 2 then y + e * 400 + 1 else y + e * 400 := by
    simp only [hle]
    split_ifs
    · exact toInt_add_of hyear rfl (by omega)
    · exact hyear
    · exact toInt_add_of hyear rfl (by omega)
    · exact hyear
  rw [hyear', hm, hd]

theorem civilFromDays_eq {z : Int64} (hz : DayFits z.toInt) :
    ((civilFromDays z).1.toInt, (civilFromDays z).2.1.toInt, (civilFromDays z).2.2.toInt) =
      Search.splitDay z.toInt := by
  obtain ⟨hz0, hz1⟩ := hz.bounds
  have hadd : (z + 719468).toInt = z.toInt + 719468 := toInt_add_of rfl rfl (by omega)
  have hera := toInt_floor_of (b := 146097) (y := 146097) (c := 146096) hadd rfl rfl (by decide)
    (by omega)
  have hmul : ((if z + 719468 ≥ 0 then z + 719468 else z + 719468 - 146096) / 146097 * 146097).toInt =
      (z.toInt + 719468) / 146097 * 146097 := toInt_mul_of hera rfl (by omega)
  refine civilOfEra_toInt hz hera ?_
  rw [toInt_sub_of hadd hmul (by omega)]
  omega

/-- And so is what is exported. -/
theorem civil_eq {z : Int64} (hz : DayFits z.toInt) :
    ((civil z).1.toInt, ((civil z).2.1.toNat : Int), ((civil z).2.2.toNat : Int)) =
      Search.splitDay z.toInt := by
  obtain ⟨hz0, hz1⟩ := hz.bounds
  have hadd : (z + 719468).toInt = z.toInt + 719468 := toInt_add_of rfl rfl (by omega)
  have hera : (divEuclid (z + 719468) 146097).toInt = (z.toInt + 719468) / 146097 := by
    unfold divEuclid
    rw [hadd, show (146097 : Int64).toInt = 146097 from rfl]
    exact Int64.toInt_ofInt_of_le (by omega) (by omega)
  have hdoe : (remEuclid (z + 719468) 146097).toInt = (z.toInt + 719468) % 146097 := by
    unfold remEuclid
    rw [hadd, show (146097 : Int64).toInt = 146097 from rfl]
    exact Int64.toInt_ofInt_of_le (by omega) (by omega)
  have h := civilOfEra_toInt hz hera hdoe
  obtain ⟨t, ht, -⟩ := Search.splitDay_number z.toInt
  rw [ht] at h ⊢
  obtain ⟨hy, hm, hd⟩ : _ ∧ _ ∧ _ := by simpa only [Prod.mk.injEq] using h
  have hm12 := t.month_le
  have hd31 := t.day_le.trans (Search.monthLength_bounds t.year t.month).2
  have hm1 := t.month_pos
  have hd1 := t.day_pos
  simp only [civil]
  rw [hy, toNat_toUInt32_of hm (by omega) (by omega), toNat_toUInt32_of hd (by omega) (by omega)]

/-! ## A date as it is read -/

/-- The arithmetic of a build that looks for overflow: the result, where `i64` holds it. -/
def Checked.add (a b : Int64) : Option Int64 := if FitsI64 (a.toInt + b.toInt) then some (a + b) else none

def Checked.sub (a b : Int64) : Option Int64 := if FitsI64 (a.toInt - b.toInt) then some (a - b) else none

def Checked.mul (a b : Int64) : Option Int64 := if FitsI64 (a.toInt * b.toInt) then some (a * b) else none

/-- The day of the year, in `days_from_civil`.  What divides is a positive constant throughout, so no
quotient overflows. -/
def Checked.dayOfYear (m d : Int64) : Option Int64 := do
  let mp := (← Checked.add m 9) % 12
  Checked.sub (← Checked.add ((← Checked.add (← Checked.mul 153 mp) 2) / 5) d) 1

/-- The day of the era. -/
def Checked.dayOfEra (yoe doy : Int64) : Option Int64 := do
  Checked.add (← Checked.sub (← Checked.add (← Checked.mul yoe 365) (yoe / 4)) (yoe / 100)) doy

/-- `days_from_civil` there. -/
def Checked.daysFromCivil (y m d : Int64) : Option Int64 := do
  let y ← (if m ≤ 2 then Checked.sub y 1 else some y)
  let era := (← (if y ≥ 0 then some y else Checked.sub y 399)) / 400
  let yoe ← Checked.sub y (← Checked.mul era 400)
  let doy ← Checked.dayOfYear m d
  let doe ← Checked.dayOfEra yoe doy
  Checked.sub (← Checked.add (← Checked.mul era 146097) doe) 719468

theorem Checked.add_eq {a b : Int64} {x y : Int} (ha : a.toInt = x) (hb : b.toInt = y)
    (h : FitsI64 (x + y)) : Checked.add a b = some (a + b) := by
  unfold Checked.add
  rw [ha, hb, if_pos h]

theorem Checked.sub_eq {a b : Int64} {x y : Int} (ha : a.toInt = x) (hb : b.toInt = y)
    (h : FitsI64 (x - y)) : Checked.sub a b = some (a - b) := by
  unfold Checked.sub
  rw [ha, hb, if_pos h]

theorem Checked.mul_eq {a b : Int64} {x y : Int} (ha : a.toInt = x) (hb : b.toInt = y)
    (h : FitsI64 (x * y)) : Checked.mul a b = some (a * b) := by
  unfold Checked.mul
  rw [ha, hb, if_pos h]

/-- The day of a year that begins in March. -/
theorem dayOfYear {m d : Int64} (hm1 : 1 ≤ m.toInt) (hm12 : m.toInt ≤ 12) (hd1 : 1 ≤ d.toInt)
    (hd31 : d.toInt ≤ 31) :
    Checked.dayOfYear m d = some ((153 * ((m + 9) % 12) + 2) / 5 + d - 1) ∧
    ((153 * ((m + 9) % 12) + 2) / 5 + d - 1).toInt =
      (153 * ((m.toInt + 9) % 12) + 2) / 5 + d.toInt - 1 := by
  have h9 := toInt_add_of (b := 9) (y := 9) (a := m) rfl rfl (by omega)
  have hmp := toInt_mod_of (b := 12) (y := 12) h9 rfl (by omega)
  unfold Checked.dayOfYear
  rw [Checked.add_eq (b := 9) (y := 9) (a := m) rfl rfl (by omega)]
  simp only [Option.bind_eq_bind, Option.bind_some]
  generalize (m + 9) % 12 = mp at hmp
  have hp : 0 ≤ (m.toInt + 9) % 12 ∧ (m.toInt + 9) % 12 ≤ 11 := by omega
  generalize (m.toInt + 9) % 12 = p at hmp hp
  have h153 := toInt_mul_of (a := 153) (x := 153) rfl hmp (by omega)
  have h2 := toInt_add_of (b := 2) (y := 2) h153 rfl (by omega)
  have h5 := toInt_div_of (b := 5) (y := 5) h2 rfl (by omega) (by decide)
  have hd := toInt_add_of (b := d) h5 rfl (by omega)
  rw [Checked.mul_eq (a := 153) (x := 153) rfl hmp (by omega), Option.bind_some,
    Checked.add_eq (b := 2) (y := 2) h153 rfl (by omega), Option.bind_some,
    Checked.add_eq (b := d) h5 rfl (by omega), Option.bind_some,
    Checked.sub_eq (b := 1) (y := 1) hd rfl (by omega)]
  exact ⟨rfl, toInt_sub_of hd rfl (by omega)⟩

/-- The day of an era. -/
theorem dayOfEra {yoe doy : Int64} {y n : Int} (hy : yoe.toInt = y) (hn : doy.toInt = n) (hy0 : 0 ≤ y)
    (hy1 : y < 400) (hn0 : 0 ≤ n) (hn1 : n ≤ 367) :
    Checked.dayOfEra yoe doy = some (yoe * 365 + yoe / 4 - yoe / 100 + doy) ∧
    (yoe * 365 + yoe / 4 - yoe / 100 + doy).toInt = y * 365 + y / 4 - y / 100 + n := by
  have h365 := toInt_mul_of (b := 365) (y := 365) hy rfl (by omega)
  have h4 := toInt_div_of (b := 4) (y := 4) hy rfl hy0 (by decide)
  have h100 := toInt_div_of (b := 100) (y := 100) hy rfl hy0 (by decide)
  have hadd := toInt_add_of h365 h4 (by omega)
  have hsub := toInt_sub_of hadd h100 (by omega)
  unfold Checked.dayOfEra
  rw [Checked.mul_eq (b := 365) (y := 365) hy rfl (by omega)]
  simp only [Option.bind_eq_bind, Option.bind_some]
  rw [Checked.add_eq h365 h4 (by omega), Option.bind_some, Checked.sub_eq hadd h100 (by omega),
    Option.bind_some, Checked.add_eq hsub hn (by omega)]
  exact ⟨rfl, toInt_add_of hsub hn (by omega)⟩

/-- The year that begins in March, and its era. -/
theorem eraOfYear {y m : Int64} (hy : -10 ^ 18 ≤ y.toInt) :
    ∃ Y : Int, Y = (if m.toInt ≤ 2 then y.toInt - 1 else y.toInt) ∧ -10 ^ 18 - 1 ≤ Y ∧ Y < 2 ^ 63 ∧
      (if m ≤ 2 then y - 1 else y).toInt = Y ∧
      (if m ≤ 2 then Checked.sub y 1 else some y) = some (if m ≤ 2 then y - 1 else y) := by
  have hle : m ≤ 2 ↔ m.toInt ≤ 2 := Int64.le_iff_toInt_le
  have hlt := y.toInt_lt
  refine ⟨_, rfl, ?_⟩
  simp only [hle]
  split_ifs
  · exact ⟨by omega, by omega, toInt_sub_of rfl rfl ⟨by omega, by omega⟩,
      Checked.sub_eq (b := 1) (y := 1) rfl rfl ⟨by omega, by omega⟩⟩
  · exact ⟨by omega, hlt, rfl, rfl⟩

/-- Up to the last three operations nothing overflows. -/
theorem daysFromCivil_parts {y m d : Int64} (hy : -10 ^ 18 ≤ y.toInt) (hm1 : 1 ≤ m.toInt)
    (hm12 : m.toInt ≤ 12) (hd1 : 1 ≤ d.toInt) (hd31 : d.toInt ≤ 31) :
    ∃ era doe : Int64, daysFromCivil y m d = era * 146097 + doe - 719468 ∧
      Checked.daysFromCivil y m d =
        (do Checked.sub (← Checked.add (← Checked.mul era 146097) doe) 719468) ∧
      -10 ^ 16 ≤ era.toInt ∧ 0 ≤ doe.toInt ∧ doe.toInt ≤ 146098 ∧
      era.toInt * 146097 + doe.toInt - 719468 = Search.dayNumber y.toInt m.toInt d.toInt := by
  obtain ⟨Y, hY, hY0, hY1, hyear, hchecked⟩ := eraOfYear (m := m) hy
  obtain ⟨hdoy1, hdoy⟩ := dayOfYear hm1 hm12 hd1 hd31
  simp only [Checked.daysFromCivil, daysFromCivil, Search.dayNumber, ← hY, hchecked, hdoy1,
    Option.bind_eq_bind, Option.bind_some]
  have hn : 0 ≤ (153 * ((m.toInt + 9) % 12) + 2) / 5 + d.toInt - 1 ∧
      (153 * ((m.toInt + 9) % 12) + 2) / 5 + d.toInt - 1 ≤ 367 := by omega
  generalize (153 * ((m + 9) % 12) + 2) / 5 + d - 1 = doy at hdoy
  generalize (153 * ((m.toInt + 9) % 12) + 2) / 5 = n at hdoy hn
  generalize (if m ≤ 2 then y - 1 else y) = a at hyear
  have hnonneg : (if a ≥ 0 then some a else Checked.sub a 399) = some (if a ≥ 0 then a else a - 399) := by
    split_ifs
    · rfl
    · exact Checked.sub_eq (b := 399) (y := 399) hyear rfl (by omega)
  have hera := toInt_floor_of (b := 400) (y := 400) (c := 399) hyear rfl rfl (by decide) (by omega)
  simp only [hnonneg, Option.bind_some]
  generalize (if a ≥ 0 then a else a - 399) / 400 = era at hera
  have h400 := toInt_mul_of (b := 400) (y := 400) hera rfl (by omega)
  have hyoe := toInt_sub_of hyear h400 (by omega)
  obtain ⟨hdoe1, hdoe⟩ := dayOfEra hyoe hdoy (by omega) (by omega) hn.1 hn.2
  rw [Checked.mul_eq (b := 400) (y := 400) hera rfl (by omega), Option.bind_some,
    Checked.sub_eq hyear h400 (by omega), Option.bind_some, hdoe1, Option.bind_some]
  have h4 : Y / 4 = 100 * (Y / 400) + (Y - Y / 400 * 400) / 4 := by omega
  have h100 : Y / 100 = 4 * (Y / 400) + (Y - Y / 400 * 400) / 100 := by omega
  refine ⟨era, _, rfl, rfl, ?_⟩
  rw [hera, hdoe]
  omega

theorem year_bounds {y m d : Int} (hd1 : 1 ≤ d) (hd31 : d ≤ 31)
    (h : DayFits (Search.dayNumber y m d)) : -10 ^ 18 ≤ y ∧ y < 10 ^ 18 := by
  obtain ⟨h0, h1⟩ := h.bounds
  simp only [Search.dayNumber] at h0 h1
  split_ifs at h0 h1 <;> omega

/-- Where the seconds of the day fit, its number is exact. -/
theorem daysFromCivil_toInt {y m d : Int64} (hm1 : 1 ≤ m.toInt) (hm12 : m.toInt ≤ 12)
    (hd1 : 1 ≤ d.toInt) (hd31 : d.toInt ≤ 31)
    (h : DayFits (Search.dayNumber y.toInt m.toInt d.toInt)) :
    (daysFromCivil y m d).toInt = Search.dayNumber y.toInt m.toInt d.toInt ∧
      Checked.daysFromCivil y m d = some (daysFromCivil y m d) := by
  obtain ⟨hy, -⟩ := year_bounds hd1 hd31 h
  obtain ⟨era, doe, h1, h2, hera, hdoe0, hdoe1, hnum⟩ := daysFromCivil_parts hy hm1 hm12 hd1 hd31
  obtain ⟨hz0, hz1⟩ := h.bounds
  rw [← hnum] at hz0 hz1 ⊢
  clear h hnum
  have hmul := toInt_mul_of (a := era) (b := 146097) (y := 146097) rfl rfl (by omega)
  have hadd := toInt_add_of (b := doe) hmul rfl (by omega)
  constructor
  · rw [h1]
    exact toInt_sub_of hadd rfl (by omega)
  · rw [h1, h2, Checked.mul_eq (a := era) (b := 146097) (y := 146097) rfl rfl (by omega),
      Option.bind_eq_bind, Option.bind_some, Checked.add_eq hmul rfl (by omega), Option.bind_some]
    exact Checked.sub_eq (b := 719468) (y := 719468) hadd rfl (by omega)

/-- The day of a date, back from what is written of it. -/
theorem daysFromCivil_date {t : Search.Date} {y m d : Int64} (hy : y.toInt = t.year)
    (hm : m.toInt = t.month) (hd : d.toInt = t.day) (h : DayFits t.number) :
    (daysFromCivil y m d).toInt = t.number := by
  have hd31 := t.day_le.trans (Search.monthLength_bounds t.year t.month).2
  have hnum : t.number = Search.dayNumber y.toInt m.toInt d.toInt := by
    rw [hy, hm, hd]
    rfl
  rw [hnum] at h ⊢
  exact (daysFromCivil_toInt (by rw [hm]; exact t.month_pos) (by rw [hm]; exact t.month_le)
    (by rw [hd]; exact t.day_pos) (by rw [hd]; exact hd31) h).1

theorem Checked.sub_some {a b r : Int64} {x y : Int} (h : Checked.sub a b = some r)
    (ha : a.toInt = x) (hb : b.toInt = y) : r.toInt = x - y := by
  unfold Checked.sub at h
  rw [ha, hb] at h
  split_ifs at h with hfits
  cases h
  exact toInt_sub_of ha hb hfits

theorem Checked.add_some {a b r : Int64} {x y : Int} (h : Checked.add a b = some r)
    (ha : a.toInt = x) (hb : b.toInt = y) : r.toInt = x + y := by
  unfold Checked.add at h
  rw [ha, hb] at h
  split_ifs at h with hfits
  cases h
  exact toInt_add_of ha hb hfits

theorem Checked.mul_some {a b r : Int64} {x y : Int} (h : Checked.mul a b = some r)
    (ha : a.toInt = x) (hb : b.toInt = y) : r.toInt = x * y := by
  unfold Checked.mul at h
  rw [ha, hb] at h
  split_ifs at h with hfits
  cases h
  exact toInt_mul_of ha hb hfits

/-- The seconds of a date that is read: they are found exactly where they fit. -/
theorem seconds_eq {y m d : Int64} (hy : 0 ≤ y.toInt) (hm1 : 1 ≤ m.toInt) (hm12 : m.toInt ≤ 12)
    (hd1 : 1 ≤ d.toInt) (hd31 : d.toInt ≤ 31) :
    (Checked.daysFromCivil y m d).bind (Checked.mul · Time.DAY) =
      if DayFits (Search.dayNumber y.toInt m.toInt d.toInt) then
        some (daysFromCivil y m d * Time.DAY) else none := by
  split_ifs with h
  · obtain ⟨h1, h2⟩ := daysFromCivil_toInt hm1 hm12 hd1 hd31 h
    rw [h2, Option.bind_some, Checked.mul_eq (b := Time.DAY) (y := 86400) h1 rfl h]
  · obtain ⟨era, doe, -, h2, -, -, -, hnum⟩ :=
      daysFromCivil_parts (by omega : -10 ^ 18 ≤ y.toInt) hm1 hm12 hd1 hd31
    rw [← hnum] at h
    rw [h2, Option.eq_none_iff_forall_ne_some]
    intro s hs
    simp only [Option.bind_eq_bind, Option.bind_eq_some_iff] at hs
    obtain ⟨days, ⟨prod, hprod, sum, hsum, hdays⟩, hs⟩ := hs
    -- what was found is exact, so it would fit
    have hexact := Checked.mul_some (y := 86400) hs (Checked.sub_some (y := 719468) hdays
      (Checked.add_some hsum (Checked.mul_some (y := 146097) hprod rfl rfl) rfl) rfl) rfl
    have hlow := s.le_toInt
    have hhigh := s.toInt_lt
    exact h ⟨by omega, by omega⟩

/-- The last day whose seconds fit is the fourth of December 292277026596. -/
theorem dayFits_iff {y m d : Int} (hy : 0 ≤ y) (hm1 : 1 ≤ m) (hm12 : m ≤ 12) (hd1 : 1 ≤ d)
    (hd31 : d ≤ 31) : DayFits (Search.dayNumber y m d) ↔
      y < 292277026596 ∨ y = 292277026596 ∧ (m < 12 ∨ d ≤ 4) := by
  have hfits : DayFits (Search.dayNumber y m d) ↔ Search.dayNumber y m d ≤ 106751991167300 := by
    have hlow : -10 ^ 6 ≤ Search.dayNumber y m d := by
      simp only [Search.dayNumber]
      split_ifs <;> omega
    exact ⟨fun h => h.bounds.2, fun h => ⟨by omega, by omega⟩⟩
  rw [hfits]
  simp only [Search.dayNumber]
  by_cases hm : m ≤ 2
  · have hmp : (m + 9) % 12 = m + 9 := by omega
    simp only [hm, hmp, if_true]
    rcases lt_trichotomy y 292277026596 with h | rfl | h <;> omega
  · have hmp : (m + 9) % 12 = m - 3 := by omega
    simp only [hm, hmp, if_false]
    rcases lt_trichotomy y 292277026596 with h | rfl | h <;> omega

end Scour
