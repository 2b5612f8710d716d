import Scour.Plan

/-!
# Reaching a row instead of walking to it

`LiveRank` counts the live rows before every `STRIDE`-th row of a bitmap, so that the live rows before
any row are one entry and a few bytes away (`LiveRank.upto_eq`).  Counts are below `2^32`.
-/

namespace Scour

/-- Rows between two entries of the table. -/
def STRIDE : Nat := 512

/-- `bit`. -/
def bitAt (alive : Str) (row : Nat) : Bool :=
  match alive[row / 8]? with
  | some byte => byte &&& (1 <<< UInt8.ofNat (row % 8)) != 0
  | none => false

/-- `u8::count_ones`. -/
def countOnes (byte : UInt8) : Nat :=
  (List.range 8).countP fun i => byte &&& (1 <<< UInt8.ofNat i) != 0

/-- Live rows in `from_ .. to_`, a byte at a time where the range is whole bytes. -/
def ones (alive : Str) (from_ to_ : Nat) : Nat :=
  if to_ ≤ from_ then 0
  else
    let firstWhole := (from_ + 7) / 8
    let lastWhole := to_ / 8
    let low := min (firstWhole * 8) to_
    let high := max (lastWhole * 8) from_
    (List.range' from_ (low - from_)).countP (bitAt alive) +
      (if firstWhole < lastWhole then (((alive.take lastWhole).drop firstWhole).map countOnes).sum
        else 0) +
      (List.range' high (to_ - high)).countP (bitAt alive)

/-- How many rows are live before each `STRIDE`-th row. -/
structure LiveRank where
  pfx : List Nat
  rows : Nat
  /-- An absent bitmap means nothing was ever deleted. -/
  allLive : Bool

namespace LiveRank

/-- The loop over the chunks, `fuel` bounding them. -/
def strides : Nat → Nat → Str → List Nat
  | 0, _, _ => []
  | fuel + 1, running, bytes =>
      if bytes.isEmpty then []
      else
        running :: strides fuel (running + ((bytes.take (STRIDE / 8)).map countOnes).sum)
          (bytes.drop (STRIDE / 8))

def build (alive : Str) (rows : Nat) : LiveRank :=
  if alive.isEmpty then ⟨[], rows, true⟩ else ⟨strides alive.length 0 alive, rows, false⟩

/-- How many of the rows before `row` are live. -/
def upto (r : LiveRank) (alive : Str) (row : Nat) : Nat :=
  let row := min row r.rows
  if r.allLive then row
  else
    let entry := row / STRIDE
    match r.pfx[entry]? with
    | some n => n + ones alive (entry * STRIDE) row
    -- past the last stride the table already holds everything
    | none => r.pfx.getLast?.getD 0 + ones alive ((r.pfx.length - 1) * STRIDE) row

/-- Live rows in the whole segment. -/
def total (r : LiveRank) (alive : Str) : Nat := r.upto alive r.rows

end LiveRank

/-! ## Counting bits -/

/-- The live rows of a range, one at a time. -/
def onesIn (alive : Str) (from_ to_ : Nat) : Nat :=
  (List.range' from_ (to_ - from_)).countP (bitAt alive)

section

variable (alive : Str)

theorem onesIn_add {a b c : Nat} (hab : a ≤ b) (hbc : b ≤ c) :
    onesIn alive a b + onesIn alive b c = onesIn alive a c := by
  unfold onesIn
  rw [← List.countP_append]
  congr 1
  have h := List.range'_append_1 (s := a) (m := b - a) (n := c - b)
  rw [show a + (b - a) = b by omega, show b - a + (c - b) = c - a by omega] at h
  exact h

theorem onesIn_self (a : Nat) : onesIn alive a a = 0 := by
  simp [onesIn]

/-- The rows of one byte. -/
theorem onesIn_byte (k : Nat) :
    onesIn alive (8 * k) (8 * (k + 1)) = (alive[k]?.map countOnes).getD 0 := by
  unfold onesIn
  rw [show 8 * (k + 1) - 8 * k = 8 by omega, List.range'_eq_map_range, List.countP_map]
  have hbit : ∀ i < 8, bitAt alive (8 * k + i) =
      match alive[k]? with
      | some byte => byte &&& (1 <<< UInt8.ofNat i) != 0
      | none => false := by
    intro i hi
    unfold bitAt
    rw [show (8 * k + i) / 8 = k by omega, show (8 * k + i) % 8 = i by omega]
  have hcongr := List.countP_congr (l := List.range 8)
    (p := bitAt alive ∘ fun i => 8 * k + i)
    (q := fun i => match alive[k]? with
      | some byte => byte &&& (1 <<< UInt8.ofNat i) != 0
      | none => false)
    (fun i hi => by rw [Function.comp_apply, hbit i (List.mem_range.mp hi)])
  rw [hcongr]
  cases alive[k]? with
  | none => simp
  | some byte => rfl

/-- The rows of some whole bytes. -/
theorem sum_bytes (a : Nat) : ∀ n : Nat,
    (((alive.take (a + n)).drop a).map countOnes).sum = onesIn alive (8 * a) (8 * (a + n)) := by
  intro n
  induction n with
  | zero =>
    rw [Nat.add_zero, onesIn_self, List.drop_eq_nil_of_le (List.length_take_le _ _)]
    rfl
  | succ n ih =>
    rw [← onesIn_add alive (show 8 * a ≤ 8 * (a + n) by omega)
      (show 8 * (a + n) ≤ 8 * (a + (n + 1)) by omega), ← ih,
      show a + (n + 1) = a + n + 1 by omega, onesIn_byte, List.take_add_one]
    by_cases h : a + n < alive.length
    · rw [List.drop_append_of_le_length (by rw [List.length_take]; omega), List.map_append,
        List.sum_append, List.getElem?_eq_getElem h]
      simp
    · rw [List.getElem?_eq_none_iff.mpr (by omega)]
      simp

/-- From the beginning of a byte on, counting by bytes counts every row once. -/
theorem ones_eq (from_ to_ : Nat) (hfrom : 8 ∣ from_) :
    ones alive from_ to_ = onesIn alive from_ to_ := by
  unfold ones
  split
  · unfold onesIn
    rw [show to_ - from_ = 0 by omega]
    rfl
  · simp only
    show onesIn alive from_ (min ((from_ + 7) / 8 * 8) to_) + _ +
      onesIn alive (max (to_ / 8 * 8) from_) to_ = _
    rw [show min ((from_ + 7) / 8 * 8) to_ = from_ by omega, onesIn_self, Nat.zero_add]
    split
    · obtain ⟨n, hn⟩ : ∃ n, to_ / 8 = (from_ + 7) / 8 + n := ⟨to_ / 8 - (from_ + 7) / 8, by omega⟩
      rw [hn, sum_bytes, ← hn, show 8 * ((from_ + 7) / 8) = from_ by omega,
        show max (to_ / 8 * 8) from_ = 8 * (to_ / 8) by omega]
      exact onesIn_add alive (by omega) (by omega)
    · rw [Nat.zero_add, show max (to_ / 8 * 8) from_ = from_ by omega]

/-! ## The table -/

namespace LiveRank

theorem build_rows (rows : Nat) : (build alive rows).rows = rows := by
  unfold build
  split <;> rfl

theorem strides_getElem? (fuel : Nat) : ∀ (running : Nat) (bytes : Str), bytes.length ≤ fuel →
    ∀ k, (strides fuel running bytes)[k]? =
      if 64 * k < bytes.length then some (running + ((bytes.take (64 * k)).map countOnes).sum)
      else none := by
  have h64 : STRIDE / 8 = 64 := rfl
  induction fuel with
  | zero =>
    intro running bytes h k
    rw [if_neg (by omega)]
    rfl
  | succ fuel ih =>
    intro running bytes h k
    unfold strides
    cases hb : bytes with
    | nil => simp
    | cons b t =>
      rw [← hb, if_neg (by rw [hb]; simp), h64]
      have hpos : 0 < bytes.length := by rw [hb]; simp
      cases k with
      | zero => simp [hpos]
      | succ k =>
        rw [List.getElem?_cons_succ, ih _ _ (by rw [List.length_drop]; omega), List.length_drop]
        by_cases hk : 64 * (k + 1) < bytes.length
        · rw [if_pos (by omega), if_pos hk, show 64 * (k + 1) = 64 + 64 * k by omega, List.take_add,
            List.map_append, List.sum_append, Nat.add_assoc]
        · rw [if_neg (by omega), if_neg hk]

/-- An entry of the table is the count of what is before it. -/
theorem build_getElem? (k : Nat) (h : 64 * k < alive.length) :
    (strides alive.length 0 alive)[k]? = some (onesIn alive 0 (k * STRIDE)) := by
  have hsum := sum_bytes alive 0 (64 * k)
  rw [strides_getElem? _ _ _ (le_refl _), if_pos h, Nat.zero_add]
  rw [Nat.zero_add, List.drop_zero] at hsum
  rw [hsum, show 8 * (64 * k) = k * STRIDE by rw [show STRIDE = 512 from rfl]; omega]

/-- The live rows before a row. -/
theorem upto_onesIn (rows row : Nat) (hne : alive ≠ []) :
    (build alive rows).upto alive row = onesIn alive 0 (min row rows) := by
  have hS : STRIDE = 512 := rfl
  have hpos := List.length_pos_of_ne_nil hne
  have hempty : alive.isEmpty = false := by simpa using hne
  unfold build upto
  simp only [hempty, Bool.false_eq_true, if_false]
  generalize hm : min row rows = n
  have hlen : ∀ k, k < (strides alive.length 0 alive).length ↔ 64 * k < alive.length := by
    intro k
    have h := strides_getElem? alive.length 0 alive (le_refl _) k
    rw [← not_iff_not, not_lt, ← List.getElem?_eq_none_iff, h]
    by_cases hk : 64 * k < alive.length <;> simp [hk]
  by_cases hk : 64 * (n / STRIDE) < alive.length
  · rw [build_getElem? alive _ hk]
    simp only
    rw [ones_eq alive _ _ (by rw [hS]; omega)]
    exact onesIn_add alive (by omega) (by rw [hS]; omega)
  · have hL : 0 < (strides alive.length 0 alive).length := (hlen 0).mpr (by omega)
    have hlast := (hlen ((strides alive.length 0 alive).length - 1)).mp (by omega)
    have hmore := fun h => hk ((hlen (n / STRIDE)).mp h)
    rw [List.getElem?_eq_none_iff.mpr (by omega), List.getLast?_eq_getElem?,
      build_getElem? alive _ hlast, Option.getD_some]
    simp only
    rw [ones_eq alive _ _ (by rw [hS]; omega)]
    exact onesIn_add alive (by omega) (by rw [hS] at *; omega)

end LiveRank

end

/-- The live rows of a segment before a row: all of them where the bitmap is absent. -/
theorem LiveRank.upto_eq (v : View) (rows row : Nat) :
    (build v.alive rows).upto v.alive row = (List.range (min row rows)).countP v.isAlive := by
  by_cases hnil : v.alive = []
  · have hall : ∀ i ∈ List.range (min row rows), v.isAlive i = true := by
      intro i _
      unfold View.isAlive
      rw [hnil]
      rfl
    rw [List.countP_eq_length.mpr hall, List.length_range]
    unfold build upto
    rw [hnil]
    rfl
  · rw [upto_onesIn v.alive rows row hnil]
    unfold onesIn
    rw [Nat.sub_zero, List.range_eq_range']
    apply List.countP_congr
    intro i _
    have hempty : v.alive.isEmpty = false := by simpa using hnil
    unfold bitAt View.isAlive
    cases v.alive[i / 8]? <;> simp [hempty]

end Scour
