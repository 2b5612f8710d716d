import Scour.Alternation
import Scour.Civil
import Scour.Negation

/-!
# Dates both ways

A whole day that is described and typed back in after a time field is the same condition
(`parseIn_isoDay`).  Reading a time value never overflows for a relative window, whose product is a
`checked_mul`, and overflows for a date past the last day whose seconds fit, whose product is not one
(`dates_iff`).
-/

namespace Scour

/-! ## What is written -/

/-- `{n:0width}` -/
def padded (width : Nat) (n : Int64) : Text :=
  let digits := Nat.toDigits 10 n.toInt.natAbs
  if n < 0 then '-' :: (List.replicate (width - 1 - digits.length) '0' ++ digits)
  else List.replicate (width - digits.length) '0' ++ digits

/-- Epoch seconds back to `YYYY-MM-DD` in UTC. -/
def isoDay (secs : Int64) : Text :=
  let (y, m, d) := civilFromDays (divEuclid secs 86400)
  padded 4 y ++ '-' :: padded 2 m ++ '-' :: padded 2 d

def timeWord : TimeField → Text
  | .modified => "modified".toList
  | .created => "created".toList
  | .accessed => "accessed".toList

def Cmp.symbol : Cmp → Text
  | .lt => ['<']
  | .le => "<=".toList
  | .eq => ['=']
  | .ge => ">=".toList
  | .gt => ['>']

/-- `describe_match` of a time. -/
def describeTime (f : TimeField) (cmp : Cmp) (secs : Int64) : Text :=
  match cmp with
  | .eq => timeWord f ++ " on ".toList ++ isoDay secs
  | cmp => timeWord f ++ ' ' :: cmp.symbol ++ ' ' :: isoDay secs

/-! ## What is read, where overflow is looked for -/

/-- The three numbers of `YYYY-MM-DD`. -/
def dateParts (s : Text) : Option (Int64 × Int64 × Int64) :=
  match Search.split '-' s with
  | [y, mo, d] => do some (← parseI64 y, ← parseI64 mo, ← parseI64 d)
  | _ => none

/-- A month there is, and a day a month may have. -/
def InYear (mo d : Int64) : Prop := 1 ≤ mo ∧ mo ≤ 12 ∧ 1 ≤ d ∧ d ≤ 31

instance decidableInYear (mo d : Int64) : Decidable (InYear mo d) := by unfold InYear; infer_instance

/-- `parse_iso_date` there: nothing where it overflows. -/
def Checked.parseIsoDate (s : Text) : Option (Option Int64) :=
  match dateParts s with
  | some (y, mo, d) =>
      if InYear mo d then ((Checked.daysFromCivil y mo d).bind (Checked.mul · Time.DAY)).map some
      else some none
  | none => some none

/-- And `parse_time`. -/
def Checked.parseTime (R : Reader) (field : TimeField) (v : Text) (now : Int64) :
    Option (Option Match) :=
  let (cmp, rest) := splitCmp v
  let rest := R.trim rest
  if rest = [] then some none
  else
    match relativeWindow rest with
    | some window =>
        (Checked.sub now window).map fun at_ =>
          some (.time field (if startsWithCmp v then cmp else .ge) at_)
    | none =>
        (Checked.parseIsoDate rest).map fun day =>
          day.map fun day => .time field (if startsWithCmp v then cmp else .eq) day

/-! ## Digits -/

theorem digits_padded {n : Int64} (h : 0 ≤ n.toInt) (width : Nat) :
    padded width n = List.replicate (width - (Nat.toDigits 10 n.toInt.natAbs).length) '0' ++
      Nat.toDigits 10 n.toInt.natAbs := by
  have hn : ¬ n < 0 := by
    rw [Int64.lt_iff_toInt_lt]
    exact not_lt.mpr h
  exact if_neg hn

theorem isDigit_of_mem_padded {n : Int64} (h : 0 ≤ n.toInt) {width : Nat} {c : Char}
    (hc : c ∈ padded width n) : c.isDigit = true := by
  rw [digits_padded h, List.mem_append] at hc
  rcases hc with hc | hc
  · rw [List.eq_of_mem_replicate hc]
    rfl
  · exact Nat.isDigit_of_mem_toDigits (by decide) (by decide) hc

theorem padded_ne_nil {n : Int64} (h : 0 ≤ n.toInt) (width : Nat) : padded width n ≠ [] := by
  rw [digits_padded h]
  simp [Nat.toDigits_ne_nil]

theorem toNat_of_isDigit {c : Char} (h : c.isDigit = true) : 48 ≤ c.toNat ∧ c.toNat ≤ 57 := by
  simp only [Char.isDigit, Bool.and_eq_true, decide_eq_true_eq] at h
  exact ⟨UInt32.le_iff_toNat_le.mp h.1, UInt32.le_iff_toNat_le.mp h.2⟩

/-- What `from_str_radix` makes of digits. -/
theorem digits_fold {t : Text} (h : ∀ c ∈ t, c.isDigit = true) :
    t.all (fun c => 48 ≤ c.toNat && c.toNat < 48 + 10) = true ∧
      t.foldl (fun n c => n * 10 + (c.toNat - 48)) 0 = Nat.ofDigitChars 10 t 0 := by
  constructor
  · rw [List.all_eq_true]
    intro c hc
    have := toNat_of_isDigit (h c hc)
    simp
    omega
  · rw [Nat.ofDigitChars_eq_foldl]
    congr 1
    funext m c
    rw [Nat.mul_comm]
    rfl

/-- Digits are read as their number. -/
theorem parseI64_of_digits {t : Text} (hne : t ≠ []) (h : ∀ c ∈ t, c.isDigit = true)
    (hlt : Nat.ofDigitChars 10 t 0 < 2 ^ 63) :
    parseI64 t = some (Int64.ofInt (Nat.ofDigitChars 10 t 0)) := by
  obtain ⟨hall, hfold⟩ := digits_fold h
  have hsign : ∀ c ∈ t.head?, c ≠ '-' ∧ c ≠ '+' := by
    intro c hc
    have := toNat_of_isDigit (h c (List.mem_of_mem_head? hc))
    constructor <;> rintro rfl <;> exact absurd this.1 (by decide)
  unfold parseI64 fromStrRadix
  split
  rename_i negative digits heq
  have hplain : negative = false ∧ digits = t := by
    split at heq
    · exact absurd rfl (hsign '-' rfl).1
    · exact absurd rfl (hsign '+' rfl).2
    · cases heq
      exact ⟨rfl, rfl⟩
  obtain ⟨rfl, rfl⟩ := hplain
  rw [if_neg (by simp [hne, hall])]
  simp only [hfold, Bool.false_eq_true, if_false]
  exact if_pos ⟨by omega, by omega⟩

/-- And after a minus as what it takes away. -/
theorem parseI64_minus {t : Text} (hne : t ≠ []) (h : ∀ c ∈ t, c.isDigit = true)
    (hle : Nat.ofDigitChars 10 t 0 ≤ 2 ^ 63) :
    parseI64 ('-' :: t) = some (Int64.ofInt (-(Nat.ofDigitChars 10 t 0 : Int))) := by
  obtain ⟨hall, hfold⟩ := digits_fold h
  unfold parseI64 fromStrRadix
  simp only
  rw [if_neg (by simp [hne, hall])]
  simp only [hfold, if_true]
  exact if_pos ⟨by omega, by omega⟩

/-- Without a sign nothing negative is read. -/
theorem parseI64_nonneg {t : Text} {n : Int64} (hsign : t.head? ≠ some '-') (h : parseI64 t = some n) :
    0 ≤ n.toInt := by
  unfold parseI64 fromStrRadix at h
  split at h
  rename_i negative digits heq
  have hplain : negative = false := by
    split at heq
    · exact absurd rfl hsign
    · cases heq
      rfl
    · cases heq
      rfl
  subst hplain
  split at h
  · cases h
  · simp only [Bool.false_eq_true, if_false] at h
    split at h
    · rename_i h2
      rw [← Option.some.inj h, Int64.toInt_ofInt_of_le h2.1 h2.2]
      exact Int.natCast_nonneg _
    · cases h

/-- A number that is written out is read back. -/
theorem parseI64_padded {n : Int64} (h : 0 ≤ n.toInt) (width : Nat) :
    parseI64 (padded width n) = some n := by
  have hvalue : Nat.ofDigitChars 10 (padded width n) 0 = n.toInt.natAbs := by
    rw [digits_padded h, Nat.ofDigitChars_append, Nat.ofDigitChars_replicate_zero, Nat.mul_zero,
      Nat.ofDigitChars_ten_toDigits]
  have hlt := n.toInt_lt
  rw [parseI64_of_digits (padded_ne_nil h width) (fun c hc => isDigit_of_mem_padded h hc) (by omega),
    hvalue, Int.natAbs_of_nonneg h, Int64.ofInt_toInt]

/-! ## A window -/

/-- No spelling of a window or of its unit has this. -/
theorem named_of_mem {table : List (List String × Int64)} {s : Text} {c : Char}
    (h : ∀ r ∈ table, ∀ w ∈ r.1, c ∉ w.toList) (hs : c ∈ s) : named table s = none := by
  unfold named
  rw [Option.map_eq_none_iff, List.find?_eq_none]
  intro r hr hc
  simp only [List.contains_iff_mem, List.mem_map] at hc
  obtain ⟨w, hw, rfl⟩ := hc
  exact h r hr w hw hs

theorem relativeWindow_of_mem {s : Text} {d : Char} (hd : d = '-' ∨ d = '.') (hs : d ∈ s) :
    relativeWindow s = none := by
  have hspelled : d.isDigit = false ∧ (∀ r ∈ WINDOWS, ∀ w ∈ r.1, d ∉ w.toList) ∧
      ∀ r ∈ timeUnits, ∀ w ∈ r.1, d ∉ w.toList := by
    rcases hd with rfl | rfl <;> decide
  obtain ⟨hdigit, hwindows, hunits⟩ := hspelled
  have hunit : d ∈ s.dropWhile Char.isDigit := by
    rw [← List.takeWhile_append_dropWhile (p := Char.isDigit) (l := s), List.mem_append] at hs
    rcases hs with hs | hs
    · rw [List.mem_takeWhile_imp hs] at hdigit
      cases hdigit
    · exact hs
  unfold relativeWindow
  rw [named_of_mem hwindows hs]
  simp only
  cases hrest : s.dropWhile Char.isDigit with
  | nil => rfl
  | cons c unit =>
    rw [hrest] at hunit
    simp only [named_of_mem hunits hunit, Option.bind_eq_bind]
    cases parseI64 (s.takeWhile Char.isDigit) <;> rfl

theorem named_nonneg {table : List (List String × Int64)} {s : Text} {w : Int64}
    (h : ∀ r ∈ table, 0 ≤ r.2.toInt) (hw : named table s = some w) : 0 ≤ w.toInt := by
  unfold named at hw
  obtain ⟨r, hr, rfl⟩ := Option.map_eq_some_iff.mp hw
  exact h r (List.mem_of_find?_eq_some hr)

/-- A window is never negative. -/
theorem relativeWindow_nonneg {s : Text} {w : Int64} (h : relativeWindow s = some w) : 0 ≤ w.toInt := by
  unfold relativeWindow at h
  split at h
  · rename_i w' hw'
    cases h
    exact named_nonneg (by decide) hw'
  · simp only at h
    split at h
    · cases h
    · obtain ⟨n, hn, h⟩ := Option.bind_eq_some_iff.mp h
      obtain ⟨unit, hunit, h⟩ := Option.bind_eq_some_iff.mp h
      unfold checkedMul at h
      split_ifs at h with hexact
      cases h
      rw [hexact]
      apply mul_nonneg
      · apply parseI64_nonneg _ hn
        intro hhead
        exact absurd (List.mem_takeWhile_imp (List.mem_of_mem_head? hhead)) (by decide)
      · have hunits : ∀ r ∈ timeUnits, 0 ≤ r.2.toInt := by decide
        exact named_nonneg hunits hunit

/-! ## A date -/

theorem parseIsoDate_eq (s : Text) : parseIsoDate s =
    match dateParts s with
    | some (y, mo, d) => if InYear mo d then some (daysFromCivil y mo d * Time.DAY) else none
    | none => none := by
  unfold parseIsoDate dateParts
  generalize Search.split '-' s = parts
  match parts with
  | [a, b, c] =>
    dsimp only
    cases parseI64 a with
    | none => rfl
    | some y =>
      cases parseI64 b with
      | none => rfl
      | some mo => cases parseI64 c <;> rfl
  | [] => rfl
  | [_] => rfl
  | [_, _] => rfl
  | _ :: _ :: _ :: _ :: _ => rfl

theorem dateParts_of {s a b c : Text} {y mo d : Int64} (hsplit : Search.split '-' s = [a, b, c])
    (ha : parseI64 a = some y) (hb : parseI64 b = some mo) (hc : parseI64 c = some d) :
    dateParts s = some (y, mo, d) := by
  unfold dateParts
  rw [hsplit]
  simp only [ha, hb, hc, Option.bind_eq_bind, Option.bind_some]

/-- A value that is no window is read as a date. -/
theorem parseTime_of_date {R : Reader} {v rest : Text} {cmp : Cmp} (hcmp : splitCmp v = (cmp, rest))
    (hne : R.trim rest ≠ []) (hwindow : relativeWindow (R.trim rest) = none) (f : TimeField)
    (now : Int64) : parseTime R f v now = (parseIsoDate (R.trim rest)).map fun day =>
      .time f (if startsWithCmp v then cmp else .eq) day := by
  unfold parseTime
  simp only [hcmp, if_neg hne, hwindow]

/-! ## A day typed back in -/

/-- The day is a whole one. -/
def WholeDay (secs : Int64) : Prop := 86400 ∣ secs.toInt

/-- What the calendar says of it. -/
def dateAt (secs : Int64) : Search.Date := Search.dateOf (secs.toInt / 86400)

section

variable {secs : Int64} (hday : WholeDay secs) (hyear : 0 ≤ (dateAt secs).year)

/-- Three numbers between dashes, which are the date. -/
theorem isoDay_eq (hday : WholeDay secs) : ∃ y m d : Int64,
    isoDay secs = padded 4 y ++ '-' :: padded 2 m ++ '-' :: padded 2 d ∧
      y.toInt = (dateAt secs).year ∧ m.toInt = (dateAt secs).month ∧ d.toInt = (dateAt secs).day := by
  have hsecs : (divEuclid secs 86400).toInt = secs.toInt / 86400 := by
    have h0 := secs.le_toInt
    have h1 := secs.toInt_lt
    exact Int64.toInt_ofInt_of_le (by change _ ≤ secs.toInt / 86400; omega)
      (by change secs.toInt / 86400 < _; omega)
  have hfits : DayFits (divEuclid secs 86400).toInt := by
    have hexact := Int.ediv_mul_cancel hday
    have h0 := secs.le_toInt
    have h1 := secs.toInt_lt
    rw [hsecs]
    exact ⟨by omega, by omega⟩
  have h := civilFromDays_eq hfits
  rw [hsecs, Search.splitDay_eq] at h
  obtain ⟨hy, hm, hd⟩ : _ ∧ _ ∧ _ := by simpa only [Prod.mk.injEq] using h
  exact ⟨_, _, _, rfl, hy, hm, hd⟩

theorem parseIsoDate_isoDay (hday : WholeDay secs) (hyear : 0 ≤ (dateAt secs).year) :
    parseIsoDate (isoDay secs) = some secs := by
  obtain ⟨y, m, d, heq, hy, hm, hd⟩ := isoDay_eq hday
  have hy0 : 0 ≤ y.toInt := by rw [hy]; exact hyear
  have hm0 : 1 ≤ m.toInt := by rw [hm]; exact (dateAt secs).month_pos
  have hd0 : 1 ≤ d.toInt := by rw [hd]; exact (dateAt secs).day_pos
  have hm12 : m.toInt ≤ 12 := by rw [hm]; exact (dateAt secs).month_le
  have hd31 : d.toInt ≤ 31 := by
    rw [hd]
    exact (dateAt secs).day_le.trans (Search.monthLength_bounds _ _).2
  have hdash : ∀ {n : Int64} {w : Nat}, 0 ≤ n.toInt → '-' ∉ padded w n := by
    intro n w hn hmem
    exact absurd (isDigit_of_mem_padded hn hmem) (by decide)
  have hnum : (dateAt secs).number = secs.toInt / 86400 := Search.dayNumber_dateOf _
  have hfits : DayFits (dateAt secs).number := by
    rw [hnum]
    have hexact := Int.ediv_mul_cancel hday
    exact ⟨by have := secs.le_toInt; omega, by have := secs.toInt_lt; omega⟩
  have hsplit : Search.split '-' (isoDay secs) = [padded 4 y, padded 2 m, padded 2 d] := by
    rw [heq, Search.split_append_cons, Search.split_append_cons, Search.split_of_notMem (hdash hy0),
      Search.split_of_notMem (hdash (by omega)), Search.split_of_notMem (hdash (by omega))]
    rfl
  have hsecs : daysFromCivil y m d * Time.DAY = secs := by
    have hmul := toInt_mul_of (b := Time.DAY) (y := 86400) (daysFromCivil_date hy hm hd hfits) rfl hfits
    apply Int64.toInt_inj.mp
    rw [hmul, hnum, Int.ediv_mul_cancel hday]
  have hrange : InYear m d := by
    simp only [InYear, Int64.le_iff_toInt_le]
    exact ⟨hm0, hm12, hd0, hd31⟩
  rw [parseIsoDate_eq, dateParts_of hsplit (parseI64_padded hy0 4) (parseI64_padded (by omega) 2)
    (parseI64_padded (by omega) 2)]
  simp only [if_pos hrange, hsecs]

/-- Digits and dashes, and a digit first. -/
theorem isoDay_chars (hday : WholeDay secs) (hyear : 0 ≤ (dateAt secs).year) :
    (∀ c ∈ isoDay secs, c.isDigit = true ∨ c = '-') ∧ '-' ∈ isoDay secs ∧
      ∃ c s, isoDay secs = c :: s ∧ c.isDigit = true := by
  obtain ⟨y, m, d, heq, hy, hm, hd⟩ := isoDay_eq hday
  have hy0 : 0 ≤ y.toInt := by rw [hy]; exact hyear
  have hm0 : 0 ≤ m.toInt := by
    have := (dateAt secs).month_pos
    omega
  have hd0 : 0 ≤ d.toInt := by
    have := (dateAt secs).day_pos
    omega
  rw [heq]
  refine ⟨?_, by simp, ?_⟩
  · intro c hc
    simp only [List.mem_append, List.mem_cons] at hc
    rcases hc with (hc | rfl | hc) | rfl | hc
    · exact Or.inl (isDigit_of_mem_padded hy0 hc)
    · exact Or.inr rfl
    · exact Or.inl (isDigit_of_mem_padded hm0 hc)
    · exact Or.inr rfl
    · exact Or.inl (isDigit_of_mem_padded hd0 hc)
  · cases hp : padded 4 y with
    | nil => exact absurd hp (padded_ne_nil hy0 4)
    | cons c s =>
      have hc : c ∈ padded 4 y := by
        rw [hp]
        exact List.mem_cons_self
      exact ⟨c, _, rfl, isDigit_of_mem_padded hy0 hc⟩

/-- What means nothing to the passes, is folded and is no mark. -/
theorem quiet_of_digit {R : Reader} {c : Char} (h : c.isDigit = true ∨ c = '-') :
    c.toNat < 128 ∧ c.toLower = c ∧ R.isWhitespace c = false ∧ c ∉ "\"|()<>!;.=:".toList := by
  have hrange : 45 ≤ c.toNat ∧ c.toNat ≤ 57 ∧ c ≠ '.' := by
    rcases h with h | rfl
    · simp only [Char.isDigit, Bool.and_eq_true, decide_eq_true_eq] at h
      have h0 : 48 ≤ c.toNat := UInt32.le_iff_toNat_le.mp h.1
      have h1 : c.toNat ≤ 57 := UInt32.le_iff_toNat_le.mp h.2
      refine ⟨by omega, h1, ?_⟩
      rintro rfl
      exact absurd h0 (by decide)
    · decide
  obtain ⟨h0, h1, hdot⟩ := hrange
  refine ⟨by omega, ?_, ?_, ?_⟩
  · unfold Char.toLower
    rw [dif_neg]
    rintro ⟨h2, -⟩
    have h2 : 65 ≤ c.toNat := UInt32.le_iff_toNat_le.mp h2
    omega
  · rw [R.whitespace_ascii c (by omega)]
    have hspace : c ≠ ' ' := by
      rintro rfl
      exact absurd h0 (by decide)
    simp [hspace]
    omega
  · intro hc
    simp at hc
    rcases hc with rfl | rfl | rfl | rfl | rfl | rfl | rfl | rfl | rfl | rfl | rfl
    all_goals first | exact hdot rfl | exact absurd h0 (by decide) | exact absurd h1 (by decide)

theorem parseTime_isoDay (R : Reader) (f : TimeField) (now : Int64) (hday : WholeDay secs)
    (hyear : 0 ≤ (dateAt secs).year) :
    parseTime R f (isoDay secs) now = some (.time f .eq secs) := by
  obtain ⟨hchars, hdash, c, s, heq, hc⟩ := isoDay_chars hday hyear
  have hmark : c ≠ '>' ∧ c ≠ '<' ∧ c ≠ '=' := by
    obtain ⟨-, -, -, h⟩ := quiet_of_digit (R := R) (Or.inl hc)
    refine ⟨?_, ?_, ?_⟩ <;> rintro rfl <;> exact h (by decide)
  have hcmp : splitCmp (isoDay secs) = (.ge, isoDay secs) := by
    rw [heq]
    unfold splitCmp
    split <;> simp_all
  have hstarts : startsWithCmp (isoDay secs) = false := by
    rw [heq]
    simp [startsWithCmp, hmark]
  have htrim : R.trim (isoDay secs) = isoDay secs :=
    trim_of_notMem _ fun d hd => (quiet_of_digit (hchars d hd)).2.2.1
  have hne : R.trim (isoDay secs) ≠ [] := by
    rw [htrim]
    exact List.ne_nil_of_mem hdash
  have hwindow : relativeWindow (R.trim (isoDay secs)) = none := by
    rw [htrim]
    exact relativeWindow_of_mem (Or.inl rfl) hdash
  rw [parseTime_of_date hcmp hne hwindow, htrim, parseIsoDate_isoDay hday hyear, hstarts]
  rfl

end

/-- The field of a timestamp. -/
def TimeField.fieldName : TimeField → FieldName
  | .modified => .dm
  | .created => .dc
  | .accessed => .da

theorem fieldMatch_time (R : Reader) (now : Int64) (home : Option Text) (f : TimeField) (raw : Text) :
    fieldMatch R now home f.fieldName raw = parseTime R f (DefaultFolder.fold R.case raw) now := by
  cases f <;> rfl

theorem quiet_of_lower {R : Reader} {c : Char} (h : c.isLower = true) :
    R.isWhitespace c = false ∧ c ≠ '"' ∧ c ≠ '|' ∧ c ≠ '(' ∧ c ≠ ')' ∧ c ≠ '<' ∧ c ≠ '>' ∧ c ≠ '!' ∧
      c ≠ ';' := by
  have hrange : 97 ≤ c.toNat ∧ c.toNat ≤ 122 := by
    have hl : decide (c.val ≥ 'a'.val) && decide (c.val ≤ 'z'.val) := h
    simpa [UInt32.le_iff_toNat_le] using hl
  have hother : ∀ d : Char, d.toNat < 97 ∨ 122 < d.toNat → c ≠ d := by
    rintro d hd rfl
    omega
  refine ⟨?_, hother _ (by decide), hother _ (by decide), hother _ (by decide), hother _ (by decide),
    hother _ (by decide), hother _ (by decide), hother _ (by decide), hother _ (by decide)⟩
  rw [R.whitespace_ascii c (by omega)]
  simp [hother ' ' (by decide)]
  omega

theorem spelled_time (f : TimeField) : ∀ s ∈ f.fieldName.spellings,
    2 ≤ s.length ∧ (∀ c ∈ s, c.isLower = true) ∧ lookup s = some f.fieldName := by
  cases f <;> decide

/-- A described day, typed in after any spelling of the field, is the condition that was described. -/
theorem parseIn_isoDay (R : Reader) (now : Int64) (home : Option Text) (f : TimeField) {secs : Int64}
    (hday : WholeDay secs) (hyear : 0 ≤ (dateAt secs).year) {name : Text}
    (hname : name ∈ f.fieldName.spellings) :
    parseIn R now home (name ++ ':' :: isoDay secs) = ⟨[⟨[(false, .time f .eq secs)]⟩]⟩ := by
  obtain ⟨hlen, hlower, hlookup⟩ := spelled_time f name hname
  obtain ⟨hchars, -, -⟩ := isoDay_chars hday hyear
  have hiso : ∀ c ∈ isoDay secs, _ := fun c hc => quiet_of_digit (R := R) (hchars c hc)
  have hfield : splitField R (name ++ ':' :: isoDay secs) = some (name, isoDay secs) :=
    splitField_lower name hlen hlower _
  have hquiet : Quiet R (name ++ ':' :: isoDay secs) := by
    intro c hc
    simp only [List.mem_append, List.mem_cons] at hc
    rcases hc with hc | rfl | hc
    · exact quiet_of_lower (hlower c hc)
    · refine ⟨?_, by decide⟩
      rw [R.whitespace_ascii ':' (by decide)]
      decide
    · obtain ⟨-, -, h1, h2⟩ := hiso c hc
      obtain ⟨h3, h4, h5, h6, h7, h8, h9, h10, -⟩ := by simpa using h2
      exact ⟨h1, h3, h4, h5, h6, h7, h8, h9, h10⟩
  have hne : name ++ ':' :: isoDay secs ≠ [] := by simp
  have hbang : (name ++ ':' :: isoDay secs).head? ≠ some '!' := fun h =>
    (hquiet.head _ h).2.2.1 rfl
  have hdots : splitDots (isoDay secs) = none := by
    rw [Option.eq_none_iff_forall_ne_some]
    rintro ⟨lo, hi⟩ h
    refine (hiso '.' ?_).2.2.2 (by decide)
    rw [splitDots_eq h]
    simp
  have hexpand : expand R (name ++ ':' :: isoDay secs) = [name ++ ':' :: isoDay secs] := by
    have hof : fieldOf R (name ++ ':' :: isoDay secs) = some (f.fieldName, name, isoDay secs) := by
      simp only [fieldOf, hfield, Option.bind_some, hlookup, Option.map_some]
    rw [expand_eq R hbang, hof]
    simp only [expandField, hdots]
    cases f <;> rfl
  have hmatch : fieldMatch R now home f.fieldName (unquote (isoDay secs)) =
      some (.time f .eq secs) := by
    have hquote : unquote (isoDay secs) = isoDay secs := by
      apply List.filter_eq_self.mpr
      intro c hc
      rw [decide_eq_true_eq]
      rintro rfl
      exact (hiso '"' hc).2.2.2 (by decide)
    rw [hquote, fieldMatch_time, fold_of_lower R.case _ fun c hc => ⟨(hiso c hc).1, (hiso c hc).2.1⟩,
      parseTime_isoDay R f now hday hyear]
  unfold parseIn
  rw [passes_alone hquiet hne]
  simp only [List.flatMap_singleton, hexpand, List.map_singleton]
  rw [alternatives_plain fun c hc => ⟨(hquiet c hc).2.1, (hquiet c hc).2.2.1⟩,
    parseAlt_plain R now home hne hbang, parseBody_of_field R now home hfield hlookup hmatch]
  rfl

/-! ## Overflow -/

/-- The date, if it is one, is not past the fourth of December 292277026596. -/
def InTime (s : Text) : Prop := ∀ y mo d, dateParts s = some (y, mo, d) → InYear mo d →
  y.toInt < 292277026596 ∨ y.toInt = 292277026596 ∧ (mo.toInt < 12 ∨ d.toInt ≤ 4)

/-- A part holds no dash, so the year has no sign. -/
theorem year_nonneg {s : Text} {y mo d : Int64} (h : dateParts s = some (y, mo, d)) : 0 ≤ y.toInt := by
  unfold dateParts at h
  split at h
  · rename_i a b c hsplit
    obtain ⟨y', ha, h⟩ := Option.bind_eq_some_iff.mp h
    obtain ⟨mo', -, h⟩ := Option.bind_eq_some_iff.mp h
    obtain ⟨d', -, h⟩ := Option.bind_eq_some_iff.mp h
    cases h
    apply parseI64_nonneg _ ha
    intro hhead
    exact Search.notMem_of_mem_split '-' s a (by rw [hsplit]; exact List.mem_cons_self)
      (List.mem_of_mem_head? hhead)
  · cases h

/-- A date is read without overflow exactly where it is in time. -/
theorem parseIsoDate_iff (s : Text) : Checked.parseIsoDate s = some (parseIsoDate s) ↔ InTime s := by
  rw [parseIsoDate_eq]
  unfold Checked.parseIsoDate InTime
  cases h : dateParts s with
  | none => simp
  | some p =>
    obtain ⟨y, mo, d⟩ := p
    by_cases hrange : InYear mo d
    · have hr := hrange
      simp only [InYear, Int64.le_iff_toInt_le] at hr
      obtain ⟨hm1, hm12, hd1, hd31⟩ := hr
      have hseconds := seconds_eq (year_nonneg h) hm1 hm12 hd1 hd31
      have hfits := dayFits_iff (year_nonneg h) hm1 hm12 hd1 hd31
      simp only [if_pos hrange, hseconds, hfits]
      split_ifs with hin
      · simp [hin]
      · simp [hin, hrange]
    · simp only [if_neg hrange, true_iff]
      intro y' mo' d' h' hr
      cases h'
      exact absurd hr hrange

theorem dash_of_dateParts {s : Text} {p : Int64 × Int64 × Int64} (h : dateParts s = some p) :
    '-' ∈ s := by
  by_contra hdash
  unfold dateParts at h
  rw [Search.split_of_notMem hdash] at h
  cases h

theorem inTime_of_window {s : Text} {w : Int64} (h : relativeWindow s = some w) : InTime s := by
  intro y mo d hparts
  rw [relativeWindow_of_mem (Or.inl rfl) (dash_of_dateParts hparts)] at h
  cases h

/-- A value is read without overflow exactly where a date in it is in time. -/
theorem parseTime_iff (R : Reader) (f : TimeField) (v : Text) {now : Int64} (hnow : 0 ≤ now.toInt) :
    Checked.parseTime R f v now = some (parseTime R f v now) ↔ InTime (R.trim (splitCmp v).2) := by
  unfold Checked.parseTime parseTime
  rcases splitCmp v with ⟨cmp, rest⟩
  simp only
  generalize R.trim rest = text
  by_cases hne : text = []
  · subst hne
    simp only [if_true, true_iff]
    intro y mo d h
    exact absurd (dash_of_dateParts h) List.not_mem_nil
  · simp only [if_neg hne]
    cases hw : relativeWindow text with
    | some window =>
      have hwindow := relativeWindow_nonneg hw
      have hlt := window.toInt_lt
      have hnlt := now.toInt_lt
      simp only [Checked.sub_eq (a := now) (b := window) rfl rfl ⟨by omega, by omega⟩, Option.map_some,
        true_iff]
      exact inTime_of_window hw
    | none =>
      simp only
      rw [← parseIsoDate_iff]
      cases Checked.parseIsoDate text with
      | none => simp
      | some day =>
        simp only [Option.map_some, Option.some.injEq]
        constructor
        · intro h
          refine Option.map_injective ?_ h
          intro a b hab
          cases hab
          rfl
        · rintro rfl
          rfl

/-- Both ways of writing a day are the calendar's date, and the date is read back as the day. -/
def BothWays : Prop := ∀ z : Int64, DayFits z.toInt →
  ((civilFromDays z).1.toInt, (civilFromDays z).2.1.toInt, (civilFromDays z).2.2.toInt) =
    ((Search.dateOf z.toInt).year, (Search.dateOf z.toInt).month, (Search.dateOf z.toInt).day) ∧
  ((civil z).1.toInt, ((civil z).2.1.toNat : Int), ((civil z).2.2.toNat : Int)) =
    ((Search.dateOf z.toInt).year, (Search.dateOf z.toInt).month, (Search.dateOf z.toInt).day) ∧
  daysFromCivil (civilFromDays z).1 (civilFromDays z).2.1 (civilFromDays z).2.2 = z

theorem bothWays : BothWays := by
  intro z hz
  have h := civilFromDays_eq hz
  rw [Search.splitDay_eq] at h
  refine ⟨h, ?_, ?_⟩
  · rw [civil_eq hz, Search.splitDay_eq]
  · obtain ⟨hy, hm, hd⟩ : _ ∧ _ ∧ _ := by simpa only [Prod.mk.injEq] using h
    have hnum := Search.dayNumber_dateOf z.toInt
    apply Int64.toInt_inj.mp
    rw [daysFromCivil_date hy hm hd (by rw [hnum]; exact hz), hnum]

/-- What is described of a whole day that is equal to a time, typed in after the field, is that. -/
def TypedBack (R : Reader) (now : Int64) : Prop := ∀ (home : Option Text) (f : TimeField) (secs : Int64),
  WholeDay secs → 0 ≤ (dateAt secs).year → ∀ name ∈ f.fieldName.spellings,
    ∃ day, describeTime f .eq secs = timeWord f ++ " on ".toList ++ day ∧
      parseIn R now home (name ++ ':' :: day) = ⟨[⟨[(false, .time f .eq secs)]⟩]⟩

/-- Dates are the calendar both ways, a described day is read back, and a value is read without
overflow: all of it exactly where the value is no date that is past the end. -/
theorem dates_iff (R : Reader) (f : TimeField) (v : Text) (now : Int64) (hnow : 0 ≤ now.toInt) :
    (BothWays ∧ TypedBack R now ∧ Checked.parseTime R f v now = some (parseTime R f v now)) ↔
      InTime (R.trim (splitCmp v).2) := by
  have htyped : TypedBack R now := by
    intro home f secs hday hyear name hname
    exact ⟨isoDay secs, rfl, parseIn_isoDay R now home f hday hyear hname⟩
  rw [parseTime_iff R f v hnow]
  exact ⟨fun h => h.2.2, fun h => ⟨bothWays, htyped, h⟩⟩

theorem dates_today : (0 : Int) ≤ (1800000000 : Int64).toInt ∧
    ((BothWays ∧ TypedBack .plain 1800000000 ∧
      Checked.parseTime .plain .modified "2026-01-31".toList 1800000000 =
        some (parseTime .plain .modified "2026-01-31".toList 1800000000)) ↔
      InTime (Reader.plain.trim (splitCmp "2026-01-31".toList).2)) :=
  ⟨by decide, dates_iff .plain .modified _ _ (by decide)⟩

/-- A year that `i64` holds, and whose days it does not. -/
theorem not_dates : ¬ ∀ (R : Reader) (f : TimeField) (v : Text) (now : Int64), 0 ≤ now.toInt →
    BothWays ∧ TypedBack R now ∧ (Checked.parseTime R f v now).isSome = true := by
  intro h
  have h := (h .plain .modified "9223372036854775807-01-01".toList 0 (by decide)).2.2
  revert h
  decide

end Scour
