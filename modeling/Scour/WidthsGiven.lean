import Scour.WidthsTaken

/-!
# Giving room

`handOut` gives the budget to the free columns by their shares, each between its floor and its
ceiling, so what is asked for altogether is the floors and the budget at most (`handOut_spec`).
`shareOut` gives what is spare to the columns that are still open, in rounds, and to the last of the
stretching columns where none is: all of it is given (`shareOut_spec`).
-/

namespace Scour.Widths

/-- The columns are some of those there are. -/
def Known (cells : List Cell) : Prop := ∀ c ∈ cells, c.col ∈ COLUMNS

theorem Known.tail {c : Cell} {cells : List Cell} (h : Known (c :: cells)) : Known cells :=
  fun d hd => h d (List.mem_cons_of_mem _ hd)

theorem bounds_of_mem : ∀ c ∈ COLUMNS, c.near ≤ 100 ∧ c.far ≤ 100 ∧ 0 < c.min ∧ c.min ≤ 120 ∧
    c.width ≤ 320 := by decide

/-! ## Sharing what the others left -/

theorem clamp_ge (c : Column) (want : ℕ) : c.min ≤ c.clamp want := by
  unfold Column.clamp
  simp only
  split <;> omega

theorem clamp_le (c : Column) (want : ℕ) : c.clamp want ≤ want + c.min := by
  unfold Column.clamp
  simp only
  split <;> omega

/-- The share of a column, in parts of a thousand. -/
def shareOf (avail : ℕ) (c : Cell) : ℕ := (shareAt c.col avail).getD 0

theorem shareAt_eq {avail : ℕ} (h : avail < 2 ^ 20) {c : Cell} (hc : c.col ∈ COLUMNS) :
    shareAt c.col avail = some (shareOf avail c) ∧ shareOf avail c ≤ 1000 := by
  obtain ⟨hnear, hfar, -⟩ := bounds_of_mem _ hc
  have hslide : ∃ t, (if avail ≤ NARROW then some 0
      else if WIDE ≤ avail then some 1000
      else fair (avail - NARROW) 1000 (WIDE - NARROW)) = some t ∧ t ≤ 1000 := by
    by_cases hn : avail ≤ NARROW
    · exact ⟨0, by rw [if_pos hn], by omega⟩
    · by_cases hw : WIDE ≤ avail
      · exact ⟨1000, by rw [if_neg hn, if_pos hw], le_refl _⟩
      · refine ⟨(avail - NARROW) * 1000 / (WIDE - NARROW), ?_, ?_⟩
        · rw [if_neg hn, if_neg hw, fair_eq]
          unfold NARROW
          omega
        · unfold NARROW WIDE at *
          omega
  obtain ⟨t, ht, hle⟩ := hslide
  have h1 : c.col.near * 10 * (1000 - t) ≤ 1000 * (1000 - t) := Nat.mul_le_mul_right _ (by omega)
  have h2 : c.col.far * 10 * t ≤ 1000 * t := Nat.mul_le_mul_right _ (by omega)
  have hsum : c.col.near * 10 * (1000 - t) + c.col.far * 10 * t ≤ 1000 * 1000 := by omega
  have heq : shareAt c.col avail =
      some ((c.col.near * 10 * (1000 - t) + c.col.far * 10 * t) / 1000) := by
    unfold shareAt
    rw [ht, Option.bind_some, u32_eq (by omega)]
    rfl
  unfold shareOf
  rw [heq]
  exact ⟨rfl, by simp only [Option.getD_some]; omega⟩

/-- The shares of all free columns. -/
def shares (avail : ℕ) (cells : List Cell) : ℕ := ((cells.filter isFree).map (shareOf avail)).sum

theorem shares_cons (avail : ℕ) (c : Cell) (cells : List Cell) :
    shares avail (c :: cells) = (if isFree c then shareOf avail c else 0) + shares avail cells := by
  unfold shares
  by_cases h : isFree c = true <;> simp [h]

theorem weightOf_eq {avail : ℕ} (h : avail < 2 ^ 20) : ∀ {cells : List Cell}, Known cells →
    cells.length ≤ 12 →
    weightOf avail cells = some (shares avail cells) ∧ shares avail cells ≤ 1000 * cells.length := by
  intro cells
  induction cells with
  | nil => intro _ _; exact ⟨rfl, le_refl _⟩
  | cons c cells ih =>
    intro hknown hlen
    rw [List.length_cons] at hlen
    obtain ⟨hrest, hle⟩ := ih hknown.tail (by omega)
    obtain ⟨hshare, hle'⟩ := shareAt_eq h (hknown c List.mem_cons_self)
    rw [shares_cons, List.length_cons]
    unfold weightOf
    by_cases hc : isFree c = true
    · rw [if_pos hc, if_pos hc, hshare, hrest]
      simp only [Option.bind_eq_bind, Option.bind_some]
      exact ⟨u32_eq (by omega), by omega⟩
    · rw [if_neg hc, if_neg hc, hrest, Nat.zero_add]
      exact ⟨rfl, by omega⟩

/-- What handing out does to a cell. -/
structure Handed (c d : Cell) : Prop where
  col : d.col = c.col
  set : d.set = c.set
  other : isFree c = false → d = c
  floor : isFree c = true → c.col.min ≤ d.w

theorem floors_cons (p : Cell → Bool) (c : Cell) (cells : List Cell) :
    floors p (c :: cells) = (if p c then { c with w := c.col.min } else c) :: floors p cells := rfl

/-- Each gets its floor and its part of the budget at most. -/
theorem handOut_spec {avail budget : ℕ} (havail : avail < 2 ^ 20) (hbudget : budget < 2 ^ 20)
    (weight : ℕ) :
    ∀ (cells : List Cell) (handed : ℕ), Known cells → handed ≤ budget →
    (weight ≠ 0 → handed * weight + budget * shares avail cells ≤ budget * weight) →
    ∃ cells', handOut avail budget weight handed cells = some cells' ∧
      List.Forall₂ Handed cells cells' ∧
      total cells' + handed ≤ total (floors isFree cells) + budget := by
  intro cells
  induction cells with
  | nil => intro handed _ hle _; exact ⟨[], rfl, .nil, by simpa [floors] using hle⟩
  | cons c cells ih =>
    intro handed hknown hle hinv
    rw [shares_cons] at hinv
    rw [floors_cons, total_cons]
    unfold handOut
    by_cases hc : isFree c = true
    · simp only [if_pos hc] at hinv ⊢
      obtain ⟨hshare, hle'⟩ := shareAt_eq havail (hknown c List.mem_cons_self)
      have hfree : ∀ want, handed + want ≤ budget →
          (weight ≠ 0 → (handed + want) * weight + budget * shares avail cells ≤ budget * weight) →
          ∃ cells', ((u32 (handed + want)).bind fun handed =>
            (handOut avail budget weight handed cells).bind fun rest =>
              some ({ c with w := c.col.clamp want } :: rest)) = some cells' ∧
            List.Forall₂ Handed (c :: cells) cells' ∧
            total cells' + handed ≤ c.col.min + total (floors isFree cells) + budget := by
        intro want hwant hinv'
        obtain ⟨cells', hrun, hhanded, htotal⟩ := ih _ hknown.tail hwant hinv'
        rw [u32_eq (by omega)]
        simp only [Option.bind_some, hrun]
        refine ⟨_, rfl, .cons ⟨rfl, rfl, fun h => ?_, fun _ => clamp_ge _ _⟩ hhanded, ?_⟩
        · rw [hc] at h
          cases h
        · have := clamp_le c.col want
          simp only [total_cons]
          omega
      by_cases hany : cells.any isFree = true
      · rw [if_pos hany, hshare]
        have hprod : budget * shareOf avail c < 2 ^ 32 :=
          lt_of_le_of_lt (Nat.mul_le_mul (le_of_lt hbudget) hle') (by decide)
        have hdiv := Nat.div_mul_le_self (budget * shareOf avail c) weight
        have hwant : weight = 0 → budget * shareOf avail c / weight = 0 := by
          rintro rfl
          exact Nat.div_zero _
        simp only [Option.bind_eq_bind, Option.bind_some, fair_eq _ hprod]
        generalize budget * shareOf avail c / weight = want at *
        have hnext : weight ≠ 0 →
            (handed + want) * weight + budget * shares avail cells ≤ budget * weight := by
          intro hw
          have := hinv hw
          rw [Nat.mul_add] at this
          rw [Nat.add_mul]
          omega
        refine hfree want ?_ hnext
        by_cases hw : weight = 0
        · have := hwant hw
          omega
        · have := hnext hw
          exact Nat.le_of_mul_le_mul_right (by omega) (Nat.pos_of_ne_zero hw)
      · have hzero : shares avail cells = 0 := by
          unfold shares
          have : cells.filter isFree = [] := by
            rw [List.filter_eq_nil_iff]
            intro d hd
            simpa using List.any_eq_false.mp (by simpa using hany) d hd
          rw [this]
          rfl
        rw [if_neg hany]
        simp only [Option.bind_eq_bind, Option.bind_some]
        refine hfree _ (by omega) fun _ => ?_
        rw [hzero, Nat.mul_zero, Nat.add_zero]
        exact Nat.mul_le_mul_right _ (by omega)
    · simp only [if_neg hc] at hinv ⊢
      obtain ⟨cells', hrun, hhanded, htotal⟩ := ih handed hknown.tail hle (by simpa using hinv)
      simp only [Option.bind_eq_bind, hrun, Option.bind_some]
      refine ⟨_, rfl, .cons ⟨rfl, rfl, fun _ => rfl, fun h => absurd h hc⟩ hhanded, ?_⟩
      simp only [total_cons]
      omega

/-! ## Handing out what is spare -/

/-- What a column gets of what is spare, against the others. -/
def openParts (cells : List Cell) : ℕ := ((cells.filter isOpen).map parts).sum

theorem openParts_cons (c : Cell) (cells : List Cell) :
    openParts (c :: cells) = (if isOpen c then parts c else 0) + openParts cells := by
  unfold openParts
  by_cases h : isOpen c = true <;> simp [h]

theorem parts_le {c : Cell} (hc : c.col ∈ COLUMNS) : parts c ≤ 100 := by
  have := (bounds_of_mem _ hc).2.1
  unfold parts
  omega

theorem openParts_le : ∀ {cells : List Cell}, Known cells → openParts cells ≤ 100 * cells.length := by
  intro cells
  induction cells with
  | nil => intro _; exact le_refl _
  | cons c cells ih =>
    intro h
    have := ih h.tail
    have := parts_le (h c List.mem_cons_self)
    rw [openParts_cons, List.length_cons]
    split <;> omega

theorem openParts_eq_zero {cells : List Cell} : openParts cells = 0 ↔ cells.any isOpen = false := by
  induction cells with
  | nil => simp [openParts]
  | cons c cells ih =>
    have hpos : 0 < parts c := by unfold parts; omega
    rw [openParts_cons, List.any_cons, Bool.or_eq_false_iff, ← ih]
    by_cases hc : isOpen c = true
    · rw [if_pos hc]
      refine ⟨fun h => by omega, fun h => ?_⟩
      rw [hc] at h
      cases h.1
    · simp [hc]

/-- What giving does to a cell: it gets wider, if it is one of those that are given to. -/
structure Raised (p : Cell → Bool) (c d : Cell) : Prop where
  col : d.col = c.col
  set : d.set = c.set
  le : c.w ≤ d.w
  other : p c = false → d = c

theorem Raised.refl (p : Cell → Bool) (c : Cell) : Raised p c c := ⟨rfl, rfl, le_refl _, fun _ => rfl⟩

theorem forall₂_raised_refl (p : Cell → Bool) (cells : List Cell) :
    List.Forall₂ (Raised p) cells cells := List.forall₂_same.mpr fun c _ => Raised.refl p c

theorem Raised.mono {p q : Cell → Bool} (hpq : ∀ c, p c = true → q c = true) {c d : Cell}
    (h : Raised p c d) : Raised q c d where
  col := h.col
  set := h.set
  le := h.le
  other hc := h.other (by
    by_contra hp
    rw [hpq c (by simpa using hp)] at hc
    cases hc)

theorem Raised.trans {p : Cell → Bool} (hp : Stable p) {c d e : Cell} (h : Raised p c d)
    (h' : Raised p d e) : Raised p c e where
  col := h'.col.trans h.col
  set := h'.set.trans h.set
  le := le_trans h.le h'.le
  other hc := by rw [h'.other ((hp c d h.col h.set).trans hc), h.other hc]

theorem forall₂_raised_trans {p : Cell → Bool} (hp : Stable p) {cells cells' cells'' : List Cell}
    (h : List.Forall₂ (Raised p) cells cells') (h' : List.Forall₂ (Raised p) cells' cells'') :
    List.Forall₂ (Raised p) cells cells'' := by
  induction h generalizing cells'' with
  | nil => exact h'
  | cons hcd _ ih =>
    cases h' with
    | cons hde hrest => exact .cons (hcd.trans hp hde) (ih hrest)

theorem Known.of_forall₂ {R : Cell → Cell → Prop} (hR : ∀ c d, R c d → d.col = c.col)
    {cells cells' : List Cell} (h : List.Forall₂ R cells cells') (hk : Known cells) :
    Known cells' := by
  induction h with
  | nil => exact hk
  | @cons c d _ _ hcd _ ih =>
    intro e he
    rcases List.mem_cons.mp he with rfl | he
    · rw [hR c _ hcd]
      exact hk c List.mem_cons_self
    · exact ih hk.tail e he

/-- What a round of giving has done. -/
structure Shared (left spent : ℕ) (cells cells' : List Cell) (spent' : ℕ) : Prop where
  raised : List.Forall₂ (Raised isOpen) cells cells'
  le : spent' ≤ left
  total : total cells' + spent = total cells + spent'
  some : 0 < left → cells.any isOpen = true → 0 < spent'

/-- As with taking, the shares are parts of what is left. -/
theorem shareRound_spec {left weight : ℕ} (hweight : 0 < weight) (hleft : left < 2 ^ 20) :
    ∀ (cells : List Cell) (spent : ℕ), Known cells → total cells + left < 2 ^ 32 →
    spent * weight + left * openParts cells ≤ left * weight →
    ∃ cells' spent', shareRound left weight spent cells = some (cells', spent') ∧
      Shared left spent cells cells' spent' ∧ spent ≤ spent' := by
  intro cells
  induction cells with
  | nil =>
    intro spent _ _ hinv
    have hspent : spent ≤ left := Nat.le_of_mul_le_mul_right (by omega) hweight
    exact ⟨[], spent, rfl, ⟨.nil, hspent, rfl, fun _ h => by simp at h⟩, le_refl _⟩
  | cons c cells ih =>
    intro spent hknown h32 hinv
    rw [openParts_cons] at hinv
    rw [total_cons] at h32
    unfold shareRound
    by_cases hc : isOpen c = true
    · rw [if_pos hc] at hinv ⊢
      rw [Nat.mul_add] at hinv
      have hspent : spent ≤ left := Nat.le_of_mul_le_mul_right (by omega) hweight
      have hopen : c.col.max = 0 ∨ c.w < c.col.max := by
        simp only [isOpen, Bool.and_eq_true, Bool.or_eq_true, decide_eq_true_eq] at hc
        exact hc.2
      -- one column with its share, and then the others
      have hone : ∀ share, share ≤ left →
          (∀ grown ≤ share, (spent + grown) * weight + left * openParts cells ≤ left * weight) →
          (0 < left → cells.any isOpen = false → 0 < spent + share) →
          ∃ cells' spent', ((u32 (c.w + share)).bind fun want =>
            (minus (if 0 < c.col.max then Min.min want c.col.max else want) c.w).bind fun grown =>
            (u32 (spent + grown)).bind fun spent =>
            (shareRound left weight spent cells).bind fun x =>
              some ({ c with w := if 0 < c.col.max then Min.min want c.col.max else want } :: x.1,
                x.2)) = some (cells', spent') ∧
            Shared left spent (c :: cells) cells' spent' ∧ spent ≤ spent' := by
        intro share hshare hinv' hlast
        have hw : c.w ≤ (if 0 < c.col.max then Min.min (c.w + share) c.col.max else c.w + share) ∧
            (if 0 < c.col.max then Min.min (c.w + share) c.col.max else c.w + share) ≤
              c.w + share ∧ (0 < share →
            c.w < if 0 < c.col.max then Min.min (c.w + share) c.col.max else c.w + share) := by
          split <;> omega
        rw [u32_eq (by omega)]
        simp only [Option.bind_some]
        generalize (if 0 < c.col.max then Min.min (c.w + share) c.col.max else c.w + share) = w at *
        rw [minus_eq hw.1, Option.bind_some]
        obtain ⟨cells', spent', hrun, hshared, hmono⟩ := ih (spent + (w - c.w))
          hknown.tail (by omega) (hinv' _ (by omega))
        have hle := hshared.le
        rw [u32_eq (by omega), Option.bind_some, hrun, Option.bind_some]
        refine ⟨_, spent', rfl, ⟨.cons ⟨rfl, rfl, hw.1, fun h => ?_⟩ hshared.raised, hle, ?_, ?_⟩,
          by omega⟩
        · rw [hc] at h
          cases h
        · have := hshared.total
          simp only [total_cons]
          omega
        · intro hpos _
          by_cases hany : cells.any isOpen = true
          · exact hshared.some hpos hany
          · have := hlast hpos (by simpa using hany)
            omega
      by_cases hany : cells.any isOpen = true
      · have hprod : left * parts c < 2 ^ 32 := lt_of_le_of_lt
          (Nat.mul_le_mul (le_of_lt hleft) (parts_le (hknown c List.mem_cons_self))) (by decide)
        rw [if_pos hany, fair_eq _ hprod]
        have hdiv := Nat.div_mul_le_self (left * parts c) weight
        generalize left * parts c / weight = share at *
        refine hone share ?_ (fun grown hgrown => ?_) fun _ h => ?_
        · refine Nat.le_of_mul_le_mul_right ?_ hweight
          omega
        · have := Nat.mul_le_mul_right weight hgrown
          rw [Nat.add_mul]
          omega
        · rw [hany] at h
          cases h
      · have hzero := openParts_eq_zero.mpr (by simpa using hany)
        rw [if_neg hany, minus_eq hspent]
        refine hone (left - spent) (Nat.sub_le _ _) (fun grown hgrown => ?_) fun h _ => by omega
        rw [hzero, Nat.mul_zero, Nat.add_zero]
        exact Nat.mul_le_mul_right _ (by omega)
    · rw [if_neg hc] at hinv ⊢
      rw [Nat.zero_add] at hinv
      obtain ⟨cells', spent', hrun, hshared, hmono⟩ := ih spent hknown.tail (by omega) hinv
      simp only [Option.bind_eq_bind, hrun, Option.bind_some]
      refine ⟨_, spent', rfl, ⟨.cons (Raised.refl _ c) hshared.raised, hshared.le, ?_, ?_⟩, hmono⟩
      · have := hshared.total
        simp only [total_cons]
        omega
      · intro hpos hany
        have hc' : isOpen c = false := by simpa using hc
        simp only [List.any_cons, hc', Bool.false_or] at hany
        exact hshared.some hpos hany

/-- The last stretching column takes the rest. -/
theorem giveLast_spec {left : ℕ} : ∀ {cells : List Cell}, (∃ c ∈ cells, 0 < c.col.near) →
    total cells + left < 2 ^ 32 →
    ∃ cells', giveLast left cells = some cells' ∧ List.Forall₂ (Raised every) cells cells' ∧
      total cells' = total cells + left := by
  intro cells
  induction cells with
  | nil => rintro ⟨c, hc, -⟩; cases hc
  | cons c cells ih =>
    intro hex h32
    rw [total_cons] at h32
    unfold giveLast
    by_cases hlast : 0 < c.col.near ∧ cells.any (0 < ·.col.near) = false
    · rw [if_pos hlast, u32_eq (by omega)]
      refine ⟨_, rfl, .cons ⟨rfl, rfl, Nat.le_add_right _ _, fun h => by cases h⟩
        (forall₂_raised_refl _ _), ?_⟩
      simp only [total_cons]
      omega
    · rw [if_neg hlast]
      have hrest : ∃ d ∈ cells, 0 < d.col.near := by
        by_contra hno
        have hany : cells.any (0 < ·.col.near) = false := by
          rw [List.any_eq_false]
          intro d hd
          have := fun h => hno ⟨d, hd, h⟩
          simpa using this
        obtain ⟨d, hd, hpos⟩ := hex
        rcases List.mem_cons.mp hd with rfl | hd
        · exact hlast ⟨hpos, hany⟩
        · exact hno ⟨d, hd, hpos⟩
      obtain ⟨cells', hrun, hraised, htotal⟩ := ih hrest (by omega)
      rw [hrun]
      refine ⟨_, rfl, .cons (Raised.refl _ c) hraised, ?_⟩
      simp only [total_cons]
      omega

/-- Is there a free column with no ceiling? -/
def Unbounded (cells : List Cell) : Prop := ∃ c ∈ cells, isFree c = true ∧ c.col.max = 0

theorem isFree_stable : Stable isFree := fun c d hcol hset => by unfold isFree; rw [hcol, hset]

theorem every_stable : Stable every := fun _ _ _ _ => rfl

theorem isFree_of_isOpen (c : Cell) (h : isOpen c = true) : isFree c = true := by
  unfold isOpen at h
  simp only [Bool.and_eq_true] at h
  exact h.1

theorem exists_of_forall₂ {R : Cell → Cell → Prop} {P : Cell → Prop}
    (hR : ∀ c d, R c d → P c → P d) {cells cells' : List Cell} (h : List.Forall₂ R cells cells') :
    (∃ c ∈ cells, P c) → ∃ d ∈ cells', P d := by
  induction h with
  | nil => exact id
  | @cons c d _ _ hcd _ ih =>
    rintro ⟨e, he, hP⟩
    rcases List.mem_cons.mp he with rfl | he
    · exact ⟨d, List.mem_cons_self, hR _ _ hcd hP⟩
    · obtain ⟨e', he', hP'⟩ := ih ⟨e, he, hP⟩
      exact ⟨e', List.mem_cons_of_mem _ he', hP'⟩

theorem mem_of_forall₂ {R : Cell → Cell → Prop} {cells cells' : List Cell}
    (h : List.Forall₂ R cells cells') {d : Cell} (hd : d ∈ cells') : ∃ c ∈ cells, R c d := by
  induction h with
  | nil => cases hd
  | @cons c _ _ _ hcd _ ih =>
    rcases List.mem_cons.mp hd with rfl | hd
    · exact ⟨c, List.mem_cons_self, hcd⟩
    · obtain ⟨c', hc', hR⟩ := ih hd
      exact ⟨c', List.mem_cons_of_mem _ hc', hR⟩

/-- All that is spare is given, and to the free columns alone where one of them has no ceiling. -/
theorem shareOut_spec (fuel : ℕ) : ∀ (cells : List Cell) (left : ℕ), left < fuel → Known cells →
    cells.length ≤ 12 → (∃ c ∈ cells, 0 < c.col.near) → left < 2 ^ 20 →
    total cells + left < 2 ^ 32 →
    ∃ cells', shareOut fuel cells left = some cells' ∧ List.Forall₂ (Raised every) cells cells' ∧
      total cells' = total cells + left ∧
      (Unbounded cells → List.Forall₂ (Raised isFree) cells cells') := by
  induction fuel with
  | zero => intro cells left h; omega
  | succ fuel ih =>
    intro cells left hfuel hknown hlen hex hleft h32
    have hparts := openParts_le hknown
    unfold shareOut
    have hw : u32 ((cells.filter isOpen).map parts).sum = some (openParts cells) :=
      u32_eq (show openParts cells < 2 ^ 32 by omega)
    rw [hw, Option.bind_some]
    by_cases hzero : left = 0
    · subst hzero
      rw [if_pos rfl]
      exact ⟨cells, rfl, forall₂_raised_refl _ _, rfl, fun _ => forall₂_raised_refl _ _⟩
    · rw [if_neg hzero]
      by_cases hweight : openParts cells = 0
      · rw [if_pos hweight]
        obtain ⟨cells', hrun, hraised, htotal⟩ := giveLast_spec hex h32
        refine ⟨cells', hrun, hraised, htotal, ?_⟩
        rintro ⟨c, hc, hfree, hmax⟩
        have := List.any_eq_false.mp (openParts_eq_zero.mp hweight) c hc
        simp [isOpen, hfree, hmax] at this
      · rw [if_neg hweight]
        obtain ⟨cells₁, spent, hrun, hshared, -⟩ := shareRound_spec (Nat.pos_of_ne_zero hweight)
          hleft cells 0 hknown h32 (by omega)
        have hany : cells.any isOpen = true := by
          by_contra h
          exact hweight (openParts_eq_zero.mpr (by simpa using h))
        have hpos := hshared.some (Nat.pos_of_ne_zero hzero) hany
        have hle := hshared.le
        have htotal := hshared.total
        have hr₁ : List.Forall₂ (Raised isFree) cells cells₁ :=
          hshared.raised.imp fun _ _ h => h.mono isFree_of_isOpen
        have he₁ : List.Forall₂ (Raised every) cells cells₁ :=
          hshared.raised.imp fun _ _ h => h.mono fun _ _ => rfl
        obtain ⟨cells', hrest, hraised, htotal', hfree⟩ := ih cells₁
          (left - spent) (by omega) (hknown.of_forall₂ (fun _ _ h => h.col) he₁)
          (he₁.length_eq ▸ hlen) (exists_of_forall₂ (fun _ _ h hp => h.col ▸ hp) he₁ hex)
          (by omega) (by omega)
        rw [hrun]
        simp only [Option.bind_some]
        rw [if_neg (by omega), minus_eq hle, Option.bind_some]
        refine ⟨cells', hrest, forall₂_raised_trans every_stable he₁ hraised, by omega, fun hu => ?_⟩
        refine forall₂_raised_trans isFree_stable hr₁ (hfree ?_)
        exact exists_of_forall₂ (fun c d h hp =>
          ⟨(isFree_stable c d h.col h.set).trans hp.1, h.col ▸ hp.2⟩) he₁ hu

end Scour.Widths
