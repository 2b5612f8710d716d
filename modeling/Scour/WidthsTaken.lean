import Scour.Widths

/-!
# Taking room back

A round of `takeBack` takes from every column in proportion to what it has above its floor, and the
last one makes up for the rounding.  `takeRound_spec` is what a round takes; `takeBack_spec` is the
loop, which comes to an end with everything taken or every one of the columns on its floor.  The
products are of 32 bits: `Fits` says that none of the first round's is larger, and where one is the
result is an overflow (`takeBack_none`).
-/

namespace Scour.Widths

theorem u32_eq {n : ℕ} (h : n < 2 ^ 32) : u32 n = some n := if_pos h

theorem minus_eq {a b : ℕ} (h : b ≤ a) : minus a b = some (a - b) := if_pos h

theorem fair_eq {a b : ℕ} (c : ℕ) (h : a * b < 2 ^ 32) : fair a b c = some (a * b / c) := by
  rw [fair, u32_eq h]
  rfl

theorem fair_none {a b : ℕ} (c : ℕ) (h : 2 ^ 32 ≤ a * b) : fair a b c = none := by
  unfold fair u32
  rw [if_neg (Nat.not_lt.mpr h)]
  rfl

@[simp] theorem total_nil : total [] = 0 := rfl

@[simp] theorem total_cons (c : Cell) (cells : List Cell) : total (c :: cells) = c.w + total cells := by
  simp [total]

/-! ## One round -/

section
variable (p : Cell → Bool)

/-- The products of a round that takes so much, the last column's aside. -/
def Fits (take : ℕ) : List Cell → Prop
  | [] => True
  | c :: cells =>
    (above p c = true → cells.any (above p) = true → take * (c.w - c.col.min) < 2 ^ 32) ∧
      Fits take cells

/-- What taking back does to a cell: it gets narrower, but not under its floor, and only if it is
one of those that are taken from. -/
structure Lowered (c d : Cell) : Prop where
  col : d.col = c.col
  set : d.set = c.set
  le : d.w ≤ c.w
  floor : c.col.min ≤ c.w → c.col.min ≤ d.w
  other : p c = false → d = c

theorem Lowered.refl (c : Cell) : Lowered p c c := ⟨rfl, rfl, le_refl _, id, fun _ => rfl⟩

variable {p}

theorem roomOf_cons (c : Cell) (cells : List Cell) :
    roomOf p (c :: cells) = (if above p c then c.w - c.col.min else 0) + roomOf p cells := by
  unfold roomOf
  by_cases h : above p c = true <;> simp [h]

theorem roomOf_eq_zero {cells : List Cell} (h : cells.any (above p) = false) : roomOf p cells = 0 := by
  unfold roomOf
  have : cells.filter (above p) = [] := by
    rw [List.filter_eq_nil_iff]
    intro c hc
    simpa using (List.any_eq_false.mp h) c hc
  rw [this]
  rfl

theorem takeRound_none {take room : ℕ} : ∀ {cells : List Cell} {taken : ℕ}, ¬ Fits p take cells →
    takeRound p take room taken cells = none := by
  intro cells
  induction cells with
  | nil => intro taken h; exact absurd trivial h
  | cons c cells ih =>
    intro taken h
    unfold takeRound
    by_cases hc : above p c = true
    · rw [if_pos hc]
      by_cases hany : cells.any (above p) = true
      · rw [if_pos hany]
        by_cases hprod : take * (c.w - c.col.min) < 2 ^ 32
        · have hrest : ¬ Fits p take cells := fun hf => h ⟨fun _ _ => hprod, hf⟩
          simp only [ih hrest]
          cases fair take (c.w - c.col.min) room with
          | none => rfl
          | some want =>
            simp only [Option.bind_eq_bind, Option.bind_some]
            cases u32 (taken + Min.min want (c.w - c.col.min)) <;> rfl
        · rw [fair_none _ (Nat.le_of_not_lt hprod)]
          rfl
      · have hrest : ¬ Fits p take cells := fun hf => h ⟨fun _ h' => absurd h' hany, hf⟩
        simp only [ih hrest]
        rw [if_neg hany]
        cases minus take taken with
        | none => rfl
        | some want =>
          simp only [Option.bind_eq_bind, Option.bind_some]
          cases u32 (taken + Min.min want (c.w - c.col.min)) <;> rfl
    · have hrest : ¬ Fits p take cells := fun hf => h ⟨fun h' => absurd h' hc, hf⟩
      rw [if_neg hc, ih hrest]
      rfl

/-- What a round has done with the columns it has seen. -/
structure Round (take taken : ℕ) (cells cells' : List Cell) (taken' : ℕ) : Prop where
  lowered : List.Forall₂ (Lowered p) cells cells'
  le : taken' ≤ take
  total : total cells' + taken' = total cells + taken
  some : 0 < take → cells.any (above p) = true → 0 < taken'

variable (p) in
/-- The shares of a round never add up to more than is to be taken: what was taken so far and the
shares to come are a part of `take` each, in the proportion of the room. -/
theorem takeRound_spec {take room : ℕ} (hroom : 0 < room) (hle : take ≤ room)
    (h32 : take < 2 ^ 32) : ∀ (cells : List Cell) (taken : ℕ), Fits p take cells →
    taken * room + take * roomOf p cells ≤ take * room →
    ∃ cells' taken', takeRound p take room taken cells = some (cells', taken') ∧
      Round (p := p) take taken cells cells' taken' ∧ taken ≤ taken' := by
  intro cells
  induction cells with
  | nil =>
    intro taken _ hinv
    have htaken : taken ≤ take := Nat.le_of_mul_le_mul_right (by omega) hroom
    exact ⟨[], taken, rfl, ⟨.nil, htaken, rfl, fun _ h => by simp at h⟩, le_refl _⟩
  | cons c cells ih =>
    intro taken hfits hinv
    rw [roomOf_cons] at hinv
    unfold takeRound
    by_cases hc : above p c = true
    · rw [if_pos hc] at hinv ⊢
      have hcp : p c = true ∧ c.col.min < c.w := by simpa [above] using hc
      rw [Nat.mul_add] at hinv
      have htaken : taken ≤ take := Nat.le_of_mul_le_mul_right (by omega) hroom
      by_cases hany : cells.any (above p) = true
      · have hprod := hfits.1 hc hany
        rw [if_pos hany, fair_eq _ hprod]
        have hwant : take * (c.w - c.col.min) / room ≤ c.w - c.col.min := by
          apply Nat.div_le_of_le_mul
          exact Nat.mul_le_mul_right _ hle
        have hshare := Nat.div_mul_le_self (take * (c.w - c.col.min)) room
        generalize take * (c.w - c.col.min) / room = want at hwant hshare
        have hinv' : (taken + want) * room + take * roomOf p cells ≤ take * room := by
          rw [Nat.add_mul]
          omega
        obtain ⟨cells', taken', hrun, hround, hmono⟩ := ih (taken + want) hfits.2 hinv'
        have htaken' : taken + want ≤ take := le_trans hmono hround.le
        simp only [Option.bind_eq_bind, Option.bind_some, Nat.min_eq_left hwant]
        rw [u32_eq (by omega)]
        simp only [Option.bind_some, hrun]
        refine ⟨_, taken', rfl, ⟨.cons ⟨rfl, rfl, ?_, ?_, ?_⟩ hround.lowered, hround.le, ?_, ?_⟩,
          by omega⟩
        · exact Nat.sub_le _ _
        · intro _
          show c.col.min ≤ c.w - want
          omega
        · intro h
          rw [hcp.1] at h
          cases h
        · have := hround.total
          simp only [total_cons]
          omega
        · exact fun htake _ => hround.some htake hany
      · have hzero := roomOf_eq_zero (by simpa using hany)
        have hrest : Fits p take cells := hfits.2
        rw [if_neg hany, minus_eq htaken]
        generalize hshare : Min.min (take - taken) (c.w - c.col.min) = share
        have hshare' : share ≤ take - taken := hshare ▸ Nat.min_le_left _ _
        have hshare'' : share ≤ c.w - c.col.min := hshare ▸ Nat.min_le_right _ _
        have hinv' : (taken + share) * room + take * roomOf p cells ≤ take * room := by
          rw [hzero, Nat.mul_zero, Nat.add_zero]
          exact Nat.mul_le_mul_right _ (by omega)
        obtain ⟨cells', taken', hrun, hround, hmono⟩ := ih (taken + share) hrest hinv'
        simp only [Option.bind_eq_bind, Option.bind_some, hshare]
        rw [u32_eq (by omega)]
        simp only [Option.bind_some, hrun]
        refine ⟨_, taken', rfl, ⟨.cons ⟨rfl, rfl, ?_, ?_, ?_⟩ hround.lowered, hround.le, ?_, ?_⟩,
          by omega⟩
        · exact Nat.sub_le _ _
        · intro _
          show c.col.min ≤ c.w - share
          omega
        · intro h
          rw [hcp.1] at h
          cases h
        · have := hround.total
          simp only [total_cons]
          omega
        · -- the last column takes at least a pixel, unless the ones before it took them all
          intro htake _
          omega
    · rw [if_neg hc] at hinv ⊢
      rw [Nat.zero_add] at hinv
      obtain ⟨cells', taken', hrun, hround, hmono⟩ := ih taken hfits.2 hinv
      simp only [Option.bind_eq_bind, hrun, Option.bind_some]
      refine ⟨_, taken', rfl, ⟨.cons (Lowered.refl p c) hround.lowered, hround.le, ?_, ?_⟩, hmono⟩
      · have := hround.total
        simp only [total_cons]
        omega
      · intro htake hany
        have hc' : above p c = false := by simpa using hc
        simp only [List.any_cons, hc', Bool.false_or] at hany
        exact hround.some htake hany

/-! ## The loop -/

theorem fits_zero (cells : List Cell) : Fits p 0 cells := by
  induction cells with
  | nil => trivial
  | cons c cells ih => exact ⟨fun _ _ => by omega, ih⟩

theorem fits_of_roomOf_eq_zero {take : ℕ} {cells : List Cell} (h : roomOf p cells = 0) :
    Fits p take cells := by
  induction cells with
  | nil => trivial
  | cons c cells ih =>
    rw [roomOf_cons] at h
    refine ⟨fun hc _ => ?_, ih (by omega)⟩
    have hlt : p c = true ∧ c.col.min < c.w := by simpa [above] using hc
    rw [if_pos hc] at h
    omega

theorem roomOf_le_total (cells : List Cell) : roomOf p cells ≤ total cells := by
  induction cells with
  | nil => simp [roomOf]
  | cons c cells ih =>
    rw [roomOf_cons, total_cons]
    split <;> omega

theorem any_of_roomOf_pos {cells : List Cell} (h : 0 < roomOf p cells) :
    cells.any (above p) = true := by
  by_contra hany
  have := roomOf_eq_zero (p := p) (by simpa using hany)
  omega

/-- Which cells are taken from is told by what they ask for, not by their width. -/
def Stable (p : Cell → Bool) : Prop := ∀ c d : Cell, d.col = c.col → d.set = c.set → p d = p c

theorem Lowered.above (hp : Stable p) {c d : Cell} (h : Lowered p c d) (hd : above p d = true) :
    above p c = true := by
  have hd' : p d = true ∧ d.col.min < d.w := by simpa [Widths.above] using hd
  rw [hp c d h.col h.set, h.col] at hd'
  simp only [Widths.above, Bool.and_eq_true, decide_eq_true_eq]
  exact ⟨hd'.1, lt_of_lt_of_le hd'.2 h.le⟩

theorem Lowered.trans {c d e : Cell} (h : Lowered p c d) (h' : Lowered p d e) (hp : Stable p) :
    Lowered p c e where
  col := h'.col.trans h.col
  set := h'.set.trans h.set
  le := le_trans h'.le h.le
  floor hc := by
    have hd := h.floor hc
    rw [← h.col] at hd ⊢
    exact h'.floor hd
  other hc := by
    have hd : p d = false := (hp c d h.col h.set).trans hc
    rw [h'.other hd, h.other hc]

theorem any_above_of_lowered (hp : Stable p) {cells cells' : List Cell}
    (h : List.Forall₂ (Lowered p) cells cells') (hany : cells'.any (above p) = true) :
    cells.any (above p) = true := by
  induction h with
  | nil => exact hany
  | cons hcd _ ih =>
    rw [List.any_cons, Bool.or_eq_true] at hany ⊢
    exact hany.imp (hcd.above hp) ih

theorem Fits.lowered (hp : Stable p) {take take' : ℕ} (htake : take' ≤ take)
    {cells cells' : List Cell} (h : List.Forall₂ (Lowered p) cells cells') (hf : Fits p take cells) :
    Fits p take' cells' := by
  induction h with
  | nil => trivial
  | @cons c d cells cells' hcd hrest ih =>
    refine ⟨fun hd hany => ?_, ih hf.2⟩
    have hc := hf.1 (hcd.above hp hd) (any_above_of_lowered hp hrest hany)
    refine lt_of_le_of_lt (Nat.mul_le_mul htake ?_) hc
    rw [hcd.col]
    exact Nat.sub_le_sub_right hcd.le _

theorem roomOf_lowered (hp : Stable p) {cells cells' : List Cell}
    (h : List.Forall₂ (Lowered p) cells cells') : roomOf p cells' ≤ roomOf p cells := by
  induction h with
  | nil => exact le_refl _
  | @cons c d cells cells' hcd _ ih =>
    rw [roomOf_cons, roomOf_cons]
    by_cases hd : above p d = true
    · rw [if_pos hd, if_pos (hcd.above hp hd), hcd.col]
      have := hcd.le
      omega
    · rw [if_neg hd]
      omega

theorem forall₂_lowered_trans (hp : Stable p) {cells cells' cells'' : List Cell}
    (h : List.Forall₂ (Lowered p) cells cells') (h' : List.Forall₂ (Lowered p) cells' cells'') :
    List.Forall₂ (Lowered p) cells cells'' := by
  induction h generalizing cells'' with
  | nil => exact h'
  | cons hcd _ ih =>
    cases h' with
    | cons hde hrest => exact .cons (hcd.trans hde hp) (ih hrest)

theorem forall₂_lowered_refl (cells : List Cell) : List.Forall₂ (Lowered p) cells cells :=
  List.forall₂_same.mpr fun c _ => Lowered.refl p c

/-- What taking back has done when it is through. -/
structure TakenBack (p : Cell → Bool) (cells : List Cell) (left : ℕ) (cells' : List Cell)
    (left' : ℕ) : Prop where
  lowered : List.Forall₂ (Lowered p) cells cells'
  total : total cells' + left = total cells + left'
  le : left' ≤ left
  through : left' = 0 ∨ roomOf p cells' = 0

theorem takeBack_spec (hp : Stable p) (fuel : ℕ) : ∀ (cells : List Cell) (left : ℕ), left < fuel →
    total cells < 2 ^ 32 → Fits p (Min.min left (roomOf p cells)) cells →
    ∃ cells' left', takeBack p fuel cells left = some (cells', left') ∧
      TakenBack p cells left cells' left' := by
  induction fuel with
  | zero => intro cells left h; omega
  | succ fuel ih =>
    intro cells left hleft h32 hfits
    have hroom := roomOf_le_total (p := p) cells
    unfold takeBack
    rw [u32_eq (by omega)]
    simp only [Option.bind_some]
    by_cases hstop : left = 0 ∨ roomOf p cells = 0
    · rw [if_pos hstop]
      exact ⟨cells, left, rfl, forall₂_lowered_refl cells, rfl, le_refl _, hstop⟩
    · rw [if_neg hstop]
      rw [not_or] at hstop
      have htake : 0 < Min.min left (roomOf p cells) := by omega
      obtain ⟨cells₁, taken, hrun, hround, -⟩ := takeRound_spec p (Nat.pos_of_ne_zero hstop.2)
        (Nat.min_le_right left _) (by omega) cells 0 hfits (by omega)
      have hpos := hround.some htake (any_of_roomOf_pos (Nat.pos_of_ne_zero hstop.2))
      have hle := hround.le
      have htotal := hround.total
      have hroom₁ := roomOf_lowered hp hround.lowered
      obtain ⟨cells', left', hrest, hback⟩ := ih cells₁ (left - taken) (by omega)
        (by omega) (hfits.lowered hp (by omega) hround.lowered)
      rw [hrun]
      simp only [Option.bind_some]
      rw [if_neg (by omega), minus_eq (by omega), Option.bind_some]
      refine ⟨cells', left', hrest, forall₂_lowered_trans hp hround.lowered hback.lowered, ?_, ?_,
        hback.through⟩
      · have := hback.total
        omega
      · have := hback.le
        omega

theorem takeBack_none (fuel : ℕ) {cells : List Cell} {left : ℕ} (h32 : total cells < 2 ^ 32)
    (h : ¬ Fits p (Min.min left (roomOf p cells)) cells) :
    takeBack p (fuel + 1) cells left = none := by
  have hroom := roomOf_le_total (p := p) cells
  have hstop : ¬ (left = 0 ∨ roomOf p cells = 0) := by
    rintro (rfl | hzero)
    · rw [Nat.zero_min] at h
      exact h (fits_zero cells)
    · exact h (fits_of_roomOf_eq_zero hzero)
  unfold takeBack
  rw [u32_eq (by omega)]
  simp only [Option.bind_some]
  rw [if_neg hstop, takeRound_none h]
  rfl

/-- The columns that a test picks, on their floors. -/
def floors (p : Cell → Bool) (cells : List Cell) : List Cell :=
  cells.map fun c => if p c then { c with w := c.col.min } else c

/-- Where something is left, everything was taken. -/
theorem TakenBack.eq_floors (hp : Stable p) {cells cells' : List Cell} {left left' : ℕ}
    (h : TakenBack p cells left cells' left') (hleft : left' ≠ 0)
    (hfloor : ∀ c ∈ cells, c.col.min ≤ c.w) : cells' = floors p cells := by
  have hroom := h.through.resolve_left hleft
  have hlow := h.lowered
  clear h
  induction hlow with
  | nil => rfl
  | @cons c d cells cells' hcd _ ih =>
    rw [roomOf_cons] at hroom
    have hrest := ih (fun c' hc' => hfloor c' (List.mem_cons_of_mem _ hc')) (by omega)
    unfold floors at hrest ⊢
    rw [List.map_cons, hrest]
    congr 1
    by_cases hc : p c = true
    · rw [if_pos hc]
      have hd : p d = true := (hp c d hcd.col hcd.set).trans hc
      have hge := hcd.floor (hfloor c List.mem_cons_self)
      have hw : d.w = c.col.min := by
        by_contra hne
        have : above p d = true := by
          simp only [above, hd, Bool.true_and, decide_eq_true_eq, hcd.col]
          omega
        rw [if_pos this, hcd.col] at hroom
        omega
      cases d
      cases c
      simp only [Cell.mk.injEq]
      exact ⟨hcd.col, hcd.set, hw⟩
    · rw [if_neg hc]
      exact hcd.other (by simpa using hc)

end

end Scour.Widths
