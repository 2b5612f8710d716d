import Mathlib.Data.Int.Basic
import Mathlib.Tactic.IntervalCases
import Mathlib.Tactic.Linarith
import Mathlib.Tactic.Ring

/-!
# The proleptic Gregorian calendar

A `Date` is a year, a month and a day the month has; `Date.next` and `Date.prev` turn the page.
`dateOf` counts them from the first of January 1970.  The calendar is given by these alone: the day
number of a date in closed form (`dayNumber`) and the date of a day in closed form (`splitDay`) are
proved to agree with it (`dayNumber_dateOf`, `splitDay_eq`).

Both closed forms count a year from March, so that the leap day is the last of its year.  A day of
the four hundred years of an era then lies in its century, in its four years and in its year
(`era_split`).
-/

namespace Search

def Leap (y : Int) : Prop := y % 4 = 0 ∧ (y % 100 ≠ 0 ∨ y % 400 = 0)

instance decidableLeap (y : Int) : Decidable (Leap y) := by unfold Leap; infer_instance

def monthLength (y m : Int) : Int :=
  if m = 2 then if Leap y then 29 else 28
  else if m = 4 ∨ m = 6 ∨ m = 9 ∨ m = 11 then 30
  else 31

theorem monthLength_bounds (y m : Int) : 28 ≤ monthLength y m ∧ monthLength y m ≤ 31 := by
  unfold monthLength
  split_ifs <;> omega

@[ext]
structure Date where
  year : Int
  month : Int
  day : Int
  month_pos : 1 ≤ month
  month_le : month ≤ 12
  day_pos : 1 ≤ day
  day_le : day ≤ monthLength year month

namespace Date

/-- The first is a month and a day. -/
theorem first : (1 : Int) ≤ 1 := le_refl 1

/-- The first of January 1970. -/
def epoch : Date := ⟨1970, 1, 1, first, by decide, first, by decide⟩

/-- The day after. -/
def next (t : Date) : Date :=
  if hd : t.day < monthLength t.year t.month then
    { t with day := t.day + 1, day_pos := by have := t.day_pos; omega, day_le := hd }
  else if hm : t.month < 12 then
    { t with
      month := t.month + 1
      day := 1
      month_pos := by have := t.month_pos; omega
      month_le := hm
      day_pos := first
      day_le := by have := monthLength_bounds t.year (t.month + 1); omega }
  else ⟨t.year + 1, 1, 1, first, by decide, first, by
    have := monthLength_bounds (t.year + 1) 1
    omega⟩

/-- The day before. -/
def prev (t : Date) : Date :=
  if hd : 1 < t.day then
    { t with day := t.day - 1, day_pos := by omega, day_le := by have := t.day_le; omega }
  else if hm : 1 < t.month then
    { t with
      month := t.month - 1
      day := monthLength t.year (t.month - 1)
      month_pos := by omega
      month_le := by have := t.month_le; omega
      day_pos := by have := monthLength_bounds t.year (t.month - 1); omega
      day_le := le_refl _ }
  else ⟨t.year - 1, 12, 31, by decide, by decide, by decide, by simp [monthLength]⟩

theorem next_prev (t : Date) : t.prev.next = t := by
  obtain ⟨y, m, d, hm1, hm12, hd1, hd⟩ := t
  unfold prev
  split_ifs with h1 h2
  · have hlt : d - 1 < monthLength y m := by
      simp only at h1
      omega
    simp [next, hlt]
  · have hlt : m - 1 < 12 := by omega
    simp only at h1 h2
    simp [next, hlt]
    omega
  · simp only at h1 h2
    have hone : m = 1 ∧ d = 1 := by omega
    simp [next, monthLength, hone]

theorem prev_next (t : Date) : t.next.prev = t := by
  obtain ⟨y, m, d, hm1, hm12, hd1, hd⟩ := t
  unfold next
  split_ifs with h1 h2
  · have hlt : 1 < d + 1 := by omega
    simp [prev, hlt]
  · have hlt : 1 < m + 1 := by omega
    simp only at h1 h2
    simp [prev, hlt]
    omega
  · simp only at h1 h2
    have htwelve : m = 12 := by omega
    subst htwelve
    simp [monthLength] at hd h1
    simp [prev]
    omega

end Date

/-- The date that many days after the epoch, or before it. -/
def dateOf : Int → Date
  | .ofNat n => Date.next^[n] Date.epoch
  | .negSucc n => Date.prev^[n + 1] Date.epoch

@[simp] theorem dateOf_zero : dateOf 0 = Date.epoch := rfl

theorem dateOf_succ (z : Int) : dateOf (z + 1) = (dateOf z).next := by
  match z with
  | .ofNat n =>
    have h : (Int.ofNat n : Int) + 1 = Int.ofNat (n + 1) := rfl
    rw [h]
    exact Function.iterate_succ_apply' _ _ _
  | .negSucc 0 => exact (Date.next_prev _).symm
  | .negSucc (n + 1) =>
    have h : Int.negSucc (n + 1) + 1 = Int.negSucc n := by omega
    rw [h]
    show Date.prev^[n + 1] _ = (Date.prev^[n + 2] _).next
    rw [Function.iterate_succ_apply' Date.prev (n + 1), Date.next_prev]

theorem dateOf_pred (z : Int) : dateOf (z - 1) = (dateOf z).prev := by
  have h := dateOf_succ (z - 1)
  rw [Int.sub_add_cancel] at h
  rw [h, Date.prev_next]

/-! ## The number of a day -/

/-- The days of the years before `y`, of the months before `m` and of this month, counted from the
epoch. -/
def dayNumber (y m d : Int) : Int :=
  let y := if m ≤ 2 then y - 1 else y
  365 * y + y / 4 - y / 100 + y / 400 + (153 * ((m + 9) % 12) + 2) / 5 + d - 1 - 719468

def Date.number (t : Date) : Int := dayNumber t.year t.month t.day

/-- The first of a month follows the last day of the month before. -/
theorem dayNumber_month {y m : Int} (h1 : 1 ≤ m) (h12 : m < 12) :
    dayNumber y (m + 1) 1 = dayNumber y m (monthLength y m) + 1 := by
  by_cases hfeb : m = 2
  · subst hfeb
    simp only [dayNumber, monthLength, Leap]
    split_ifs <;> omega
  · simp only [dayNumber, monthLength, if_neg hfeb]
    interval_cases m <;> simp at * <;> omega

theorem Date.number_next (t : Date) : t.next.number = t.number + 1 := by
  obtain ⟨y, m, d, hm1, hm12, hd1, hd⟩ := t
  unfold Date.next Date.number
  split_ifs with h1 h2
  · simp only [dayNumber]
    omega
  · simp only at h1 h2
    have hlast : d = monthLength y m := by omega
    simp only [hlast]
    exact dayNumber_month hm1 h2
  · simp only at h1 h2
    have htwelve : m = 12 := by omega
    subst htwelve
    simp only [monthLength] at hd h1
    simp only [dayNumber]
    omega

theorem dayNumber_dateOf (z : Int) : (dateOf z).number = z := by
  induction z using Int.induction_on with
  | zero => decide
  | succ n ih => rw [dateOf_succ, Date.number_next, ih]
  | pred n ih =>
    have h := (dateOf (-(n : Int))).prev.number_next
    rw [Date.next_prev, ih] at h
    rw [dateOf_pred]
    omega

/-- No other date has the number of the epoch. -/
theorem Date.eq_epoch {t : Date} (h : t.number = 0) : t = Date.epoch := by
  obtain ⟨y, m, d, hm1, hm12, hd1, hd⟩ := t
  have hd31 : d ≤ 31 := hd.trans (monthLength_bounds y m).2
  simp only [Date.number, dayNumber] at h
  have hy : 1968 ≤ y ∧ y ≤ 1972 := by
    split_ifs at h <;> omega
  obtain ⟨hy0, hy1⟩ := hy
  have hdate : y = 1970 ∧ m = 1 ∧ d = 1 := by
    clear hd
    interval_cases m <;> simp at h <;> interval_cases y <;> omega
  obtain ⟨rfl, rfl, rfl⟩ := hdate
  rfl

theorem dateOf_number (t : Date) : dateOf t.number = t := by
  have h : ∀ z : Int, ∀ t : Date, t.number = z → dateOf z = t := by
    intro z
    induction z using Int.induction_on with
    | zero =>
      intro t ht
      exact (Date.eq_epoch ht).symm
    | succ n ih =>
      intro t ht
      have hprev := t.prev.number_next
      rw [Date.next_prev] at hprev
      rw [dateOf_succ, ih t.prev (by omega), Date.next_prev]
    | pred n ih =>
      intro t ht
      have hnext := t.number_next
      rw [dateOf_pred, ih t.next (by omega), Date.prev_next]
  exact h _ t rfl

/-! ## The date of a day -/

/-- A day of the era lies in a century, in four years of it and in a year of these.  Only the leap
day that ends its four years is the three hundred and sixty-sixth. -/
theorem era_split {doe : Int} (h0 : 0 ≤ doe) (h1 : doe < 146097) :
    ∃ c q w doy : Int, 0 ≤ c ∧ c ≤ 3 ∧ 0 ≤ q ∧ q ≤ 24 ∧ 0 ≤ w ∧ w ≤ 3 ∧ 0 ≤ doy ∧
      (doy < 365 ∨ doy = 365 ∧ w = 3 ∧ (q < 24 ∨ c = 3)) ∧
      doe = 36524 * c + 1461 * q + 365 * w + doy := by
  let c := if doe < 146096 then doe / 36524 else 3
  let q := (doe - 36524 * c) / 1461
  let r := doe - 36524 * c - 1461 * q
  let w := if r < 1460 then r / 365 else 3
  refine ⟨c, q, w, r - 365 * w, ?_⟩
  grind

/-- The year of a day of the era, in closed form. -/
theorem yearOfEra {doe c q w doy : Int} (hc0 : 0 ≤ c) (hc : c ≤ 3) (hq0 : 0 ≤ q) (hq : q ≤ 24)
    (hw0 : 0 ≤ w) (hw : w ≤ 3) (hd0 : 0 ≤ doy)
    (hd : doy < 365 ∨ doy = 365 ∧ w = 3 ∧ (q < 24 ∨ c = 3))
    (h : doe = 36524 * c + 1461 * q + 365 * w + doy) :
    (doe - doe / 1460 + doe / 36524 - doe / 146096) / 365 = 100 * c + 4 * q + w := by
  have h1 : doe / 1460 = 25 * c + q ∨ doe / 1460 = 25 * c + q + 1 ∧ w = 3 ∧ 269 ≤ doy := by omega
  by_cases hlast : doe = 146096
  · omega
  · have h2 : doe / 36524 = c := by omega
    have h3 : doe / 146096 = 0 := by omega
    rw [h2, h3]
    omega

/-- The leap years of the eras, centuries and four years before a year. -/
theorem leaps_before {c q w : Int} (era : Int) (hc0 : 0 ≤ c) (hc : c ≤ 3) (hq0 : 0 ≤ q) (hq : q ≤ 24)
    (hw0 : 0 ≤ w) (hw : w ≤ 3) :
    (100 * c + 4 * q + w + era * 400) / 4 = 25 * c + q + 100 * era ∧
      (100 * c + 4 * q + w + era * 400) / 100 = c + 4 * era ∧
      (100 * c + 4 * q + w + era * 400) / 400 = era := by
  refine ⟨by omega, by omega, by omega⟩

/-- Year, month and day of a day number. -/
def splitDay (z : Int) : Int × Int × Int :=
  let z := z + 719468
  let era := z / 146097
  let doe := z % 146097
  let yoe := (doe - doe / 1460 + doe / 36524 - doe / 146096) / 365
  let y := yoe + era * 400
  let doy := doe - (365 * yoe + yoe / 4 - yoe / 100)
  let mp := (5 * doy + 2) / 153
  let d := doy - (153 * mp + 2) / 5 + 1
  let m := if mp < 10 then mp + 3 else mp - 9
  (if m ≤ 2 then y + 1 else y, m, d)

/-- Month and day of a day of the year that begins in March. -/
theorem month_split {doy : Int} (h0 : 0 ≤ doy) (h1 : doy ≤ 365) :
    ∃ mp : Int, (5 * doy + 2) / 153 = mp ∧ 0 ≤ mp ∧ mp ≤ 11 ∧
      1 ≤ doy - (153 * mp + 2) / 5 + 1 ∧ doy < (153 * (mp + 1) + 2) / 5 := by
  refine ⟨(5 * doy + 2) / 153, rfl, ?_⟩
  omega

/-- A day of a year counted from March is a day of a month. -/
theorem marchDate {y doy : Int} (h0 : 0 ≤ doy) (h1 : doy < 365 ∨ doy = 365 ∧ Leap (y + 1)) :
    let mp := (5 * doy + 2) / 153
    let d := doy - (153 * mp + 2) / 5 + 1
    let m := if mp < 10 then mp + 3 else mp - 9
    ∃ t : Date, ((if m ≤ 2 then y + 1 else y, m, d) : Int × Int × Int) = (t.year, t.month, t.day) ∧
      t.number = 365 * y + y / 4 - y / 100 + y / 400 + doy - 719468 := by
  intro mp d m
  obtain ⟨mp', hmp, hmp0, hmp11, hday, hnext⟩ := month_split h0 (by omega)
  have hmp : mp = mp' := hmp
  simp only [d, m, hmp]
  by_cases h10 : mp' < 10
  · have hm : ¬ mp' + 3 ≤ 2 := by omega
    simp only [h10, hm, if_true, if_false]
    refine ⟨⟨y, mp' + 3, doy - (153 * mp' + 2) / 5 + 1, by omega, by omega, hday, ?_⟩, rfl, ?_⟩
    · unfold monthLength
      interval_cases mp' <;> simp at * <;> omega
    · have hmod : (mp' + 3 + 9) % 12 = mp' := by omega
      simp only [Date.number, dayNumber, hm, if_false, hmod]
      ring
  · have hm : mp' - 9 ≤ 2 := by omega
    simp only [h10, hm, if_true, if_false]
    refine ⟨⟨y + 1, mp' - 9, doy - (153 * mp' + 2) / 5 + 1, by omega, by omega, hday, ?_⟩, rfl, ?_⟩
    · unfold monthLength
      have h : mp' = 10 ∨ mp' = 11 := by omega
      rcases h with rfl | rfl
      · simp
        omega
      · simp
        split_ifs with hleap
        · omega
        · rcases h1 with h1 | h1
          · omega
          · exact absurd h1.2 hleap
    · have hmod : (mp' - 9 + 9) % 12 = mp' := by omega
      simp only [Date.number, dayNumber, hm, if_true, hmod, Int.add_sub_cancel]
      ring

/-- What it gives is a date, and the number of that date is the day. -/
theorem splitDay_number (z : Int) :
    ∃ t : Date, splitDay z = (t.year, t.month, t.day) ∧ t.number = z := by
  obtain ⟨c, q, w, doy, hc0, hc, hq0, hq, hw0, hw, hd0, hd, hdoe⟩ :=
    era_split (Int.emod_nonneg (z + 719468) (by decide : (146097 : Int) ≠ 0))
      (Int.emod_lt_of_pos (z + 719468) (by decide))
  have hyoe := yearOfEra hc0 hc hq0 hq hw0 hw hd0 hd hdoe
  have hz := Int.emod_add_mul_ediv (z + 719468) 146097
  have hdoy : (z + 719468) % 146097 - (365 * (100 * c + 4 * q + w) + (100 * c + 4 * q + w) / 4 -
      (100 * c + 4 * q + w) / 100) = doy := by
    obtain ⟨h4, h100, -⟩ := leaps_before 0 hc0 hc hq0 hq hw0 hw
    rw [Int.zero_mul, Int.add_zero] at h4 h100
    rw [h4, h100, hdoe]
    ring
  generalize hera : (z + 719468) / 146097 = era at hz
  obtain ⟨h4, h100, h400⟩ := leaps_before era hc0 hc hq0 hq hw0 hw
  have hleap : doy < 365 ∨ doy = 365 ∧ Leap (100 * c + 4 * q + w + era * 400 + 1) := by
    rcases hd with hd | ⟨rfl, rfl, hd⟩
    · exact Or.inl hd
    · refine Or.inr ⟨rfl, ?_⟩
      clear hz hdoy hyoe hdoe h4 h100 h400
      unfold Leap
      omega
  obtain ⟨t, ht, hn⟩ := marchDate hd0 hleap
  refine ⟨t, ?_, ?_⟩
  · rw [← ht]
    simp only [splitDay, hyoe, hdoy, hera]
  · rw [hdoe] at hz
    rw [hn, h4, h100, h400]
    linarith

theorem splitDay_eq (z : Int) :
    splitDay z = ((dateOf z).year, (dateOf z).month, (dateOf z).day) := by
  obtain ⟨t, ht, hz⟩ := splitDay_number z
  rw [ht, ← hz, dateOf_number]

end Search
