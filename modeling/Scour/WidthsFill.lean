import Scour.WidthsGiven

/-!
# The columns fill the row

`squash_spec` is the last resort, where all floors together are wider than the room.  `arrange_spec`
puts the passes together: the widths fill the room, unless a product of `takeBack` does not fit 32
bits, which `Small` excludes.  `fitTo` moves room between two columns and keeps the row full.
`fills_iff` is the whole.
-/

namespace Scour.Widths

/-! ## Everything in proportion -/

theorem widestOf_spec : ∀ {ws : List ℕ}, ws ≠ [] →
    ∃ h : widestOf ws < ws.length, ∀ x ∈ ws, x ≤ ws[widestOf ws] := by
  intro ws
  induction ws with
  | nil => intro h; exact absurd rfl h
  | cons x ws ih =>
    intro _
    unfold widestOf
    by_cases hany : ws.any (x ≤ ·) = true
    · obtain ⟨y, hy, hxy⟩ := List.any_eq_true.mp hany
      have hxy := of_decide_eq_true hxy
      obtain ⟨hlt, hmax⟩ := ih (List.ne_nil_of_mem hy)
      simp only [if_pos hany]
      refine ⟨by simpa using hlt, fun z hz => ?_⟩
      simp only [List.getElem_cons_succ]
      rcases List.mem_cons.mp hz with rfl | hz
      · exact le_trans hxy (hmax y hy)
      · exact hmax z hz
    · simp only [if_neg hany]
      refine ⟨Nat.succ_pos _, fun z hz => ?_⟩
      simp only [List.getElem_cons_zero]
      rcases List.mem_cons.mp hz with rfl | hz
      · exact le_refl _
      · have hlt : ∀ y ∈ ws, y < x := by simpa using hany
        exact le_of_lt (hlt z hz)

theorem sum_eraseIdx_add {ws : List ℕ} {i : ℕ} (h : i < ws.length) (v : ℕ) :
    (ws.set i v).sum = (ws.eraseIdx i).sum + v := by
  induction ws generalizing i with
  | nil => cases h
  | cons x ws ih =>
    cases i with
    | zero => simp [Nat.add_comm]
    | succ i =>
      simp only [List.set_cons_succ, List.eraseIdx_cons_succ, List.sum_cons,
        ih (Nat.lt_of_succ_lt_succ h), Nat.add_assoc]

/-- The floors are all within a factor of two of each other, but for the one of the location. -/
theorem min_bounds : ∀ c ∈ COLUMNS, 56 ≤ c.min ∧ (c.min ≤ 110 ∨ c.id = str "path") := by decide

theorem eq_of_id : ∀ c ∈ COLUMNS, ∀ d ∈ COLUMNS, c.id = d.id → c = d := by decide

/-- Floors in proportion to a room that holds a pixel of each, and less than all of them, fill it. -/
theorem squash_spec {cols : List Column} (hcols : ∀ c ∈ cols, c ∈ COLUMNS) (hnd : cols.Nodup)
    {avail : ℕ} (hlen : cols.length ≤ avail) (hsum : avail < (cols.map (·.min)).sum) :
    (squash (cols.map (·.min)) avail).length = cols.length ∧
      (squash (cols.map (·.min)) avail).sum = avail ∧
      ∀ w ∈ squash (cols.map (·.min)) avail, 0 < w := by
  have hne : cols.map (·.min) ≠ [] := by
    intro h
    rw [h] at hsum
    exact absurd hsum (Nat.not_lt_zero _)
  obtain ⟨hwidest, hmax⟩ := widestOf_spec hne
  unfold squash
  simp only
  rw [if_neg (by simp only [List.length_map]; omega)]
  generalize hi : widestOf (cols.map (·.min)) = i at *
  have hicols : i < cols.length := by simpa using hwidest
  -- the others, each with its part
  have hothers : ((cols.map (·.min)).eraseIdx i).sum + (cols.map (·.min))[i] =
      (cols.map (·.min)).sum := by
    rw [← sum_eraseIdx_add hwidest, List.set_getElem_self]
  have hlen' : ((cols.map (·.min)).eraseIdx i).length + 1 = cols.length := by
    rw [List.length_eraseIdx_of_lt hwidest, List.length_map]
    omega
  have hsmall : ∀ x ∈ (cols.map (·.min)).eraseIdx i, 56 ≤ x ∧ x ≤ 110 := by
    intro x hx
    obtain ⟨j, hj, hji, rfl⟩ := List.mem_eraseIdx_iff_getElem.mp hx
    have hj' : j < cols.length := by simpa using hj
    rw [List.getElem_map]
    obtain ⟨h56, h110⟩ := min_bounds _ (hcols _ (List.getElem_mem hj'))
    refine ⟨h56, ?_⟩
    rcases h110 with h110 | hpath
    · exact h110
    · by_contra hgt
      have hle := hmax _ (List.getElem_mem hj)
      rw [List.getElem_map, List.getElem_map] at hle
      rcases (min_bounds _ (hcols _ (List.getElem_mem hicols))).2 with h | hpath'
      · omega
      · have heq := eq_of_id _ (hcols _ (List.getElem_mem hj')) _ (hcols _ (List.getElem_mem hicols))
          (hpath.trans hpath'.symm)
        exact hji (hnd.getElem_inj_iff.mp heq)
  have hwpos : 0 < (cols.map (·.min))[i] := by
    rw [List.getElem_map]
    have := (min_bounds _ (hcols _ (List.getElem_mem hicols))).1
    omega
  generalize (cols.map (·.min)).sum = sum at *
  have hspent : (((cols.map (·.min)).map fun x => Max.max (x * avail / sum) 1).eraseIdx i).sum <
      avail := by
    rw [List.eraseIdx_map]
    generalize (cols.map (·.min)).eraseIdx i = others at *
    by_cases hall : ∀ x ∈ others, x * avail / sum ≤ 1
    · have hone : others.map (fun x => Max.max (x * avail / sum) 1) = others.map fun _ => 1 :=
        List.map_congr_left fun x hx => by
          have := hall x hx
          omega
      have hcount : (others.map fun _ => 1).sum = others.length := by simp
      rw [hone, hcount]
      omega
    · -- one gets two pixels, so every one gets a pixel before the rounding up
      rw [not_forall] at hall
      obtain ⟨x, hx⟩ := hall
      rw [Classical.not_imp] at hx
      have hpos : 0 < sum := by omega
      have h2 : 2 * sum ≤ x * avail := by
        have := (Nat.le_div_iff_mul_le hpos).mp (Nat.lt_of_not_le hx.2)
        omega
      have h110 := Nat.mul_le_mul_right avail (hsmall x hx.1).2
      have hdiv : ∀ y ∈ others, Max.max (y * avail / sum) 1 * sum ≤ y * avail := by
        intro y hy
        have h56 := Nat.mul_le_mul_right avail (hsmall y hy).1
        have hge : 1 ≤ y * avail / sum := (Nat.le_div_iff_mul_le hpos).mpr (by omega)
        rw [Nat.max_eq_left hge]
        exact Nat.div_mul_le_self _ _
      have htotal : (others.map fun x => Max.max (x * avail / sum) 1).sum * sum ≤
          others.sum * avail := by
        clear hothers hlen' hsmall hx h2 h110
        induction others with
        | nil => simp
        | cons y others ih =>
          rw [List.map_cons, List.sum_cons, List.sum_cons, Nat.add_mul, Nat.add_mul]
          exact Nat.add_le_add (hdiv y List.mem_cons_self)
            (ih fun z hz => hdiv z (List.mem_cons_of_mem _ hz))
      have hlt : others.sum * avail < avail * sum := by
        rw [← hothers, Nat.mul_add, Nat.mul_comm others.sum]
        exact Nat.lt_add_of_pos_right (Nat.mul_pos (by omega) hwpos)
      exact Nat.lt_of_mul_lt_mul_right (lt_of_le_of_lt htotal hlt)
  refine ⟨by simp, ?_, ?_⟩
  · rw [sum_eraseIdx_add (by simpa using hicols)]
    omega
  · intro w hw
    rcases List.mem_or_eq_of_mem_set hw with hw | rfl
    · obtain ⟨x, -, rfl⟩ := List.mem_map.mp hw
      omega
    · omega

/-! ## The passes together -/

theorem total_floors {p : Cell → Bool} {cells : List Cell} (h : ∀ c ∈ cells, c.col.min ≤ c.w) :
    total (floors p cells) + roomOf p cells = total cells := by
  induction cells with
  | nil => rfl
  | cons c cells ih =>
    have hrest := ih fun d hd => h d (List.mem_cons_of_mem _ hd)
    have hc := h c List.mem_cons_self
    rw [floors_cons, total_cons, total_cons, roomOf_cons]
    by_cases hp : p c = true
    · by_cases habove : above p c = true
      · simp only [hp, habove, if_true]
        omega
      · have hle : c.w ≤ c.col.min := by simpa [above, hp] using habove
        simp only [hp, habove, if_true]
        simp only [Bool.false_eq_true, if_false]
        omega
    · have habove : above p c = false := by simp [above, hp]
      simp only [hp, habove]
      simp only [Bool.false_eq_true, if_false]
      omega

theorem floor_floors {p : Cell → Bool} {cells : List Cell} (h : ∀ c ∈ cells, c.col.min ≤ c.w) :
    ∀ c ∈ floors p cells, c.col.min ≤ c.w := by
  intro c hc
  obtain ⟨d, hd, rfl⟩ := List.mem_map.mp hc
  split
  · exact le_refl _
  · exact h d hd

theorem floors_of_lowered {p : Cell → Bool} (hp : Stable p) {cells cells' : List Cell}
    (h : List.Forall₂ (Lowered p) cells cells') : floors p cells' = floors p cells := by
  induction h with
  | nil => rfl
  | @cons c d _ _ hcd _ ih =>
    rw [floors_cons, floors_cons, ih, hp c d hcd.col hcd.set]
    congr 1
    split
    · have hcol := hcd.col
      have hset := hcd.set
      cases c
      cases d
      simp only at hcol hset
      rw [hcol, hset]
    · rename_i hc
      exact hcd.other (by simpa using hc)

theorem takeBack_zero {p : Cell → Bool} {cells : List Cell} (h32 : total cells < 2 ^ 32) :
    takeBack p (0 + 1) cells 0 = some (cells, 0) := by
  have := roomOf_le_total (p := p) cells
  unfold takeBack
  rw [u32_eq (by omega), Option.bind_some, if_pos (Or.inl rfl)]

theorem squash_eq {ws : List ℕ} {avail : ℕ} (h : ws.sum ≤ avail) : squash ws avail = ws := by
  unfold squash
  exact if_pos (Or.inl h)

theorem isDragged_stable : Stable isDragged := fun c d hcol hset => by
  unfold isDragged
  rw [hcol, hset]

/-- No product of the rounds fits less than 32 bits: with the free columns on their floors the
dragged ones are taken from, and with these on theirs every one. -/
def Small (cells : List Cell) (avail : ℕ) : Prop :=
  let tight := floors isFree cells
  let tighter := floors isDragged tight
  (avail < total tight →
      Fits isDragged (Min.min (total tight - avail) (roomOf isDragged tight)) tight) ∧
    (avail < total tighter →
      Fits every (Min.min (total tighter - avail) (roomOf every tighter)) tighter)

/-- Widths that fill the room. -/
structure Filled (cells : List Cell) (avail : ℕ) (ws : List ℕ) : Prop where
  length : ws.length = cells.length
  sum : ws.sum = avail
  pos : ∀ w ∈ ws, 0 < w
  floor : (cells.map (·.col.min)).sum ≤ avail → List.Forall₂ (fun c w => c.col.min ≤ w) cells ws
  kept : Unbounded cells → total (floors isFree cells) ≤ avail →
    List.Forall₂ (fun c w => isFree c = false → w = c.w) cells ws

theorem Filled.of_cells {cells cells' : List Cell} (hknown : Known cells) {avail : ℕ}
    (h : List.Forall₂ (fun c d => d.col = c.col ∧ c.col.min ≤ d.w) cells cells')
    (hsum : total cells' = avail)
    (hkept : Unbounded cells → total (floors isFree cells) ≤ avail →
      List.Forall₂ (fun c d => isFree c = false → d = c) cells cells') :
    Filled cells avail (cells'.map Cell.w) where
  length := by rw [List.length_map, h.length_eq]
  sum := hsum
  pos w hw := by
    obtain ⟨d, hd, rfl⟩ := List.mem_map.mp hw
    obtain ⟨c, hc, -, hle⟩ := mem_of_forall₂ h hd
    exact lt_of_lt_of_le (bounds_of_mem _ (hknown c hc)).2.2.1 hle
  floor _ := List.forall₂_map_right_iff.mpr (h.imp fun _ _ h => h.2)
  kept hu ht := List.forall₂_map_right_iff.mpr ((hkept hu ht).imp fun _ _ h hf => by rw [h hf])

/-- The room holds what is there: what is spare is given. -/
theorem arrange_wide {cells : List Cell} {avail : ℕ} (hknown : Known cells)
    (hlen : cells.length ≤ 12) (hex : ∃ c ∈ cells, 0 < c.col.near)
    (hfloor : ∀ c ∈ cells, c.col.min ≤ c.w) (havail : avail < 2 ^ 20) (hle : total cells ≤ avail) :
    ∃ ws, arrange cells avail = some ws ∧ Filled cells avail ws := by
  have hself : List.Forall₂ (fun c d : Cell => d.col = c.col ∧ c.col.min ≤ d.w) cells cells :=
    List.forall₂_same.mpr fun c hc => ⟨rfl, hfloor c hc⟩
  unfold arrange
  rw [u32_eq (by omega)]
  simp only [Option.bind_eq_bind, Option.bind_some]
  rcases Nat.lt_or_eq_of_le hle with hlt | heq
  · rw [if_pos hlt]
    obtain ⟨cells', hrun, hraised, htotal, hfree⟩ := shareOut_spec (avail - total cells + 1)
      cells _ (Nat.lt_succ_self _) hknown hlen hex (by omega) (by omega)
    rw [hrun]
    refine ⟨_, rfl, .of_cells hknown ?_ (by omega) fun hu _ => (hfree hu).imp fun _ _ h => h.other⟩
    exact ((List.forall₂_and_left _ _).mpr ⟨hfloor, hraised⟩).imp fun c d h =>
      ⟨h.2.col, le_trans h.1 h.2.le⟩
  · rw [if_neg (by omega), if_neg (by omega)]
    exact ⟨_, rfl, .of_cells hknown hself heq fun _ _ =>
      List.forall₂_same.mpr fun _ _ _ => rfl⟩

theorem small_of_le {cells : List Cell} {avail : ℕ} (hfloor : ∀ c ∈ cells, c.col.min ≤ c.w)
    (h : total (floors isFree cells) ≤ avail) : Small cells avail := by
  have := total_floors (p := isDragged) (floor_floors (p := isFree) hfloor)
  exact ⟨fun hlt => by omega, fun hlt => by omega⟩

theorem sum_min_le {cells : List Cell} (h : ∀ c ∈ cells, c.col.min ≤ c.w) :
    (cells.map (·.col.min)).sum ≤ total cells := List.sum_le_sum fun c hc => h c hc

theorem map_min_floors (p : Cell → Bool) (cells : List Cell) :
    (floors p cells).map (·.col.min) = cells.map (·.col.min) := by
  unfold floors
  rw [List.map_map]
  refine List.map_congr_left fun c _ => ?_
  simp only [Function.comp_apply]
  split <;> rfl

/-- The floors alone, all of them, in a room that does not hold them. -/
theorem filled_squash {cells : List Cell} {avail : ℕ} (hknown : Known cells)
    (hnd : (cells.map (·.col)).Nodup) (hfloor : ∀ c ∈ cells, c.col.min ≤ c.w)
    (hlen : cells.length ≤ avail) (hsum : avail < (cells.map (·.col.min)).sum) :
    Filled cells avail (squash (cells.map (·.col.min)) avail) := by
  have hcols : ∀ c ∈ cells.map (·.col), c ∈ COLUMNS := by
    intro c hc
    obtain ⟨d, hd, rfl⟩ := List.mem_map.mp hc
    exact hknown d hd
  have hmap : (cells.map (·.col)).map (·.min) = cells.map (·.col.min) := by
    rw [List.map_map]
    rfl
  have hsquash := squash_spec hcols hnd (by simpa using hlen) (hmap ▸ hsum)
  rw [hmap, List.length_map] at hsquash
  refine ⟨hsquash.1, hsquash.2.1, hsquash.2.2, fun h => absurd h (Nat.not_le_of_lt hsum),
    fun _ h => ?_⟩
  have := sum_min_le (floor_floors (p := isFree) hfloor)
  rw [map_min_floors] at this
  omega

/-- Every column on its floor. -/
theorem floors_every (cells : List Cell) :
    (floors every cells).map Cell.w = cells.map (·.col.min) := by
  unfold floors
  rw [List.map_map]
  rfl

theorem lowered_floor {p : Cell → Bool} {cells cells' : List Cell}
    (h : List.Forall₂ (Lowered p) cells cells') (hfloor : ∀ c ∈ cells, c.col.min ≤ c.w) :
    List.Forall₂ (fun c d => d.col = c.col ∧ c.col.min ≤ d.w) cells cells' :=
  ((List.forall₂_and_left _ _).mpr ⟨hfloor, h⟩).imp fun _ _ h => ⟨h.2.col, h.2.floor h.1⟩

theorem forall₂_floor_trans {cells cells' cells'' : List Cell}
    (h : List.Forall₂ (fun c d : Cell => d.col = c.col ∧ c.col.min ≤ d.w) cells cells')
    (h' : List.Forall₂ (fun c d : Cell => d.col = c.col ∧ c.col.min ≤ d.w) cells' cells'') :
    List.Forall₂ (fun c d : Cell => d.col = c.col ∧ c.col.min ≤ d.w) cells cells'' := by
  induction h generalizing cells'' with
  | nil => exact h'
  | cons hcd _ ih =>
    cases h' with
    | cons hde hrest =>
      refine .cons ⟨hde.1.trans hcd.1, ?_⟩ (ih hrest)
      rw [← hcd.1]
      exact hde.2

theorem floor_of_forall₂ {cells cells' : List Cell}
    (h : List.Forall₂ (fun c d : Cell => d.col = c.col ∧ c.col.min ≤ d.w) cells cells') :
    ∀ d ∈ cells', d.col.min ≤ d.w := by
  intro d hd
  obtain ⟨c, -, hcol, hmin⟩ := mem_of_forall₂ h hd
  rw [hcol]
  exact hmin

/-- The room does not hold what is there: it is taken back, tier by tier, or a product is too
large. -/
theorem arrange_narrow {cells : List Cell} {avail : ℕ} (hknown : Known cells)
    (hnd : (cells.map (·.col)).Nodup) (hfloor : ∀ c ∈ cells, c.col.min ≤ c.w)
    (hlen : cells.length ≤ avail) (h32 : total cells < 2 ^ 32) (hlt : avail < total cells)
    (hfree : Fits isFree (Min.min (total cells - avail) (roomOf isFree cells)) cells) :
    (Small cells avail → ∃ ws, arrange cells avail = some ws ∧ Filled cells avail ws) ∧
      (¬ Small cells avail → arrange cells avail = none) := by
  unfold arrange
  rw [u32_eq h32]
  simp only [Option.bind_eq_bind, Option.bind_some]
  rw [if_neg (by omega), if_pos hlt]
  obtain ⟨cells₁, left₁, hrun₁, hback₁⟩ := takeBack_spec isFree_stable _ _ _ (Nat.lt_succ_self _) h32
    hfree
  have htotal₁ := hback₁.total
  have hle₁ := hback₁.le
  have hfl₁ := lowered_floor hback₁.lowered hfloor
  rw [hrun₁]
  simp only [Option.bind_some]
  by_cases hz₁ : left₁ = 0
  · -- the free columns had enough
    subst hz₁
    have h32₁ : total cells₁ < 2 ^ 32 := by omega
    simp only [takeBack_zero h32₁, Option.bind_some]
    have hfit : total (floors isFree cells) ≤ avail := by
      have := total_floors (p := isFree) (floor_of_forall₂ hfl₁)
      rw [floors_of_lowered isFree_stable hback₁.lowered] at this
      omega
    have hsum : total cells₁ = avail := by omega
    refine ⟨fun _ => ⟨_, rfl, ?_⟩, fun h => absurd (small_of_le hfloor hfit) h⟩
    rw [squash_eq (le_of_eq hsum)]
    exact .of_cells hknown hfl₁ hsum fun _ _ => hback₁.lowered.imp fun _ _ h => h.other
  · have heq₁ := hback₁.eq_floors isFree_stable hz₁ hfloor
    subst heq₁
    have hleft₁ : left₁ = total (floors isFree cells) - avail := by omega
    have hover₁ : avail < total (floors isFree cells) := by omega
    have h32₁ : total (floors isFree cells) < 2 ^ 32 := by omega
    have hfloor₁ := floor_floors (p := isFree) hfloor
    have hkept : ∀ ws, Unbounded cells → total (floors isFree cells) ≤ avail →
        List.Forall₂ (fun c d => isFree c = false → d = c) cells ws := fun _ _ h => by omega
    by_cases hfits₁ : Fits isDragged (Min.min (total (floors isFree cells) - avail)
        (roomOf isDragged (floors isFree cells))) (floors isFree cells)
    case neg =>
      refine ⟨fun h => absurd (h.1 hover₁) hfits₁, fun _ => ?_⟩
      rw [hleft₁, takeBack_none _ h32₁ hfits₁]
      rfl
    obtain ⟨cells₂, left₂, hrun₂, hback₂⟩ := takeBack_spec isDragged_stable _ _ _
      (Nat.lt_succ_self _) h32₁ hfits₁
    have htotal₂ := hback₂.total
    have hle₂ := hback₂.le
    have hfl₂ := forall₂_floor_trans hfl₁ (lowered_floor hback₂.lowered hfloor₁)
    rw [hleft₁, hrun₂]
    simp only [Option.bind_some]
    by_cases hz₂ : left₂ = 0
    · -- the dragged columns had enough
      subst hz₂
      have h32₂ : total cells₂ < 2 ^ 32 := by omega
      simp only [takeBack_zero h32₂, Option.bind_some]
      have hfit : total (floors isDragged (floors isFree cells)) ≤ avail := by
        have := total_floors (p := isDragged) (floor_of_forall₂ hfl₂)
        rw [floors_of_lowered isDragged_stable hback₂.lowered] at this
        omega
      have hsum : total cells₂ = avail := by omega
      refine ⟨fun _ => ⟨_, rfl, ?_⟩, fun h =>
        absurd ⟨fun _ => hfits₁, fun hlt => by omega⟩ h⟩
      rw [squash_eq (le_of_eq hsum)]
      exact .of_cells hknown hfl₂ hsum (hkept _)
    · have heq₂ := hback₂.eq_floors isDragged_stable hz₂ hfloor₁
      subst heq₂
      have hleft₂ : left₂ = total (floors isDragged (floors isFree cells)) - avail := by omega
      have hover₂ : avail < total (floors isDragged (floors isFree cells)) := by omega
      have h32₂ : total (floors isDragged (floors isFree cells)) < 2 ^ 32 := by omega
      have hfloor₂ := floor_floors (p := isDragged) hfloor₁
      by_cases hfits₂ : Fits every (Min.min (total (floors isDragged (floors isFree cells)) - avail)
          (roomOf every (floors isDragged (floors isFree cells))))
          (floors isDragged (floors isFree cells))
      case neg =>
        refine ⟨fun h => absurd (h.2 hover₂) hfits₂, fun _ => ?_⟩
        rw [hleft₂, takeBack_none _ h32₂ hfits₂]
        rfl
      obtain ⟨cells₃, left₃, hrun₃, hback₃⟩ := takeBack_spec every_stable _ _ _
        (Nat.lt_succ_self _) h32₂ hfits₂
      have htotal₃ := hback₃.total
      have hle₃ := hback₃.le
      rw [hleft₂, hrun₃]
      simp only [Option.bind_some]
      refine ⟨fun _ => ⟨_, rfl, ?_⟩, fun h => absurd ⟨fun _ => hfits₁, fun _ => hfits₂⟩ h⟩
      by_cases hz₃ : left₃ = 0
      · have hsum : total cells₃ = avail := by omega
        rw [squash_eq (le_of_eq hsum)]
        exact .of_cells hknown
          (forall₂_floor_trans hfl₂ (lowered_floor hback₃.lowered hfloor₂)) hsum (hkept _)
      · -- every column is on its floor
        have heq₃ := hback₃.eq_floors every_stable hz₃ hfloor₂
        have hmap : cells₃.map Cell.w = cells.map (·.col.min) := by
          rw [heq₃, floors_every, map_min_floors, map_min_floors]
        have hsum : total cells₃ = (cells.map (·.col.min)).sum := by
          unfold total
          rw [hmap]
        rw [hmap]
        exact filled_squash hknown hnd hfloor hlen (by omega)

/-! ## The layout -/

/-- A row that is laid out: its columns are distinct and known, one of them stretches, no drag and no
room is beyond any display, and there is a pixel for each column. -/
structure Row (ids : List Str) (chosen : Str → Option ℕ) (avail : ℕ) : Prop where
  nodup : ids.Nodup
  known : ∀ id ∈ ids, (column id).isSome = true
  stretches : ∃ c ∈ ids.filterMap column, 0 < c.near
  dragged : ∀ id w, chosen id = some w → w < 2 ^ 20
  room : ids.length ≤ avail
  small : avail < 2 ^ 20

theorem column_spec {id : Str} {c : Column} (h : column id = some c) : c ∈ COLUMNS ∧ c.id = id := by
  unfold column at h
  have hid := List.find?_some h
  exact ⟨List.mem_of_find?_eq_some h, of_decide_eq_true hid⟩

theorem map_id_columns : ∀ {ids : List Str}, (∀ id ∈ ids, (column id).isSome = true) →
    (ids.filterMap column).map (·.id) = ids := by
  intro ids
  induction ids with
  | nil => intro _; rfl
  | cons id ids ih =>
    intro h
    obtain ⟨c, hc⟩ := Option.isSome_iff_exists.mp (h id List.mem_cons_self)
    rw [List.filterMap_cons_some hc, List.map_cons, (column_spec hc).2,
      ih fun id' hid' => h id' (List.mem_cons_of_mem _ hid')]

namespace Row

variable {ids : List Str} {chosen : Str → Option ℕ} {avail : ℕ}

theorem cols_nodup (h : Row ids chosen avail) : (ids.filterMap column).Nodup := by
  refine List.Nodup.of_map (·.id) ?_
  rw [map_id_columns h.known]
  exact h.nodup

theorem cols_known (ids : List Str) : ∀ c ∈ ids.filterMap column, c ∈ COLUMNS := by
  intro c hc
  obtain ⟨id, -, hid⟩ := List.mem_filterMap.mp hc
  exact (column_spec hid).1

theorem cols_length (h : Row ids chosen avail) : (ids.filterMap column).length = ids.length := by
  have := congrArg List.length (map_id_columns h.known)
  rwa [List.length_map] at this

/-- Distinct columns are no more than there are. -/
theorem cols_subperm (h : Row ids chosen avail) : (ids.filterMap column).Subperm COLUMNS :=
  List.subperm_of_subset h.cols_nodup (cols_known ids)

theorem sum_min (h : Row ids chosen avail) : ((ids.filterMap column).map (·.min)).sum ≤ 1026 := by
  obtain ⟨l, hp, hs⟩ := h.cols_subperm
  have hle : (l.map (·.min)).sum ≤ (COLUMNS.map (·.min)).sum :=
    List.Sublist.sum_le_sum (hs.map _) fun _ _ => Nat.zero_le _
  have hsum : (COLUMNS.map (·.min)).sum = 1026 := by decide
  rw [← (hp.map _).sum_eq]
  omega

theorem length_le (h : Row ids chosen avail) : (ids.filterMap column).length ≤ 12 :=
  h.cols_subperm.length_le

theorem asked_known (ids : List Str) (chosen : Str → Option ℕ) :
    Known (asked chosen (ids.filterMap column)) := by
  intro c hc
  obtain ⟨d, hd, rfl⟩ := List.mem_map.mp hc
  exact cols_known ids d hd

theorem asked_w (h : Row ids chosen avail) : ∀ c ∈ asked chosen (ids.filterMap column),
    c.col.min ≤ c.w ∧ c.w ≤ 2 ^ 20 := by
  intro c hc
  obtain ⟨d, hd, rfl⟩ := List.mem_map.mp hc
  obtain ⟨-, -, -, hmin, hwidth⟩ := bounds_of_mem d (cols_known ids d hd)
  have hdrag : (dragOf chosen d).getD d.width ≤ 2 ^ 20 := by
    cases hdrag : dragOf chosen d with
    | none => simp only [Option.getD_none]; omega
    | some w =>
      unfold dragOf at hdrag
      exact le_of_lt (h.dragged _ w (Option.filter_eq_some_iff.mp hdrag).1)
  simp only
  omega

end Row

theorem total_le {cells : List Cell} {b : ℕ} (h : ∀ c ∈ cells, c.w ≤ b) :
    total cells ≤ cells.length * b := by
  induction cells with
  | nil => simp
  | cons c cells ih =>
    have := ih fun d hd => h d (List.mem_cons_of_mem _ hd)
    have := h c List.mem_cons_self
    rw [total_cons, List.length_cons, Nat.succ_mul]
    omega

/-- With the cells of a kind on their floors, there are the others and the floors at most. -/
theorem total_floors_le (p : Cell → Bool) (cells : List Cell) :
    total (cells.filter fun c => !p c) ≤ total (floors p cells) ∧
      total (floors p cells) ≤ total (cells.filter fun c => !p c) + (cells.map (·.col.min)).sum := by
  induction cells with
  | nil => exact ⟨le_refl _, le_refl _⟩
  | cons c cells ih =>
    rw [floors_cons, total_cons, List.map_cons, List.sum_cons]
    by_cases hc : p c = true
    · rw [List.filter_cons_of_neg (by simpa using hc), if_pos hc]
      simp only
      omega
    · rw [List.filter_cons_of_pos (by simpa using hc), if_neg hc, total_cons]
      omega

theorem fits_of_room {p : Cell → Bool} {take : ℕ} {cells : List Cell}
    (h : take * roomOf p cells < 2 ^ 32) : Fits p take cells := by
  induction cells with
  | nil => trivial
  | cons c cells ih =>
    rw [roomOf_cons, Nat.mul_add] at h
    refine ⟨fun hc _ => ?_, ih (by omega)⟩
    rw [if_pos hc] at h
    omega

theorem floors_of_handed {cells cells' : List Cell} (h : List.Forall₂ Handed cells cells') :
    floors isFree cells' = floors isFree cells := by
  induction h with
  | nil => rfl
  | @cons c d _ _ hcd _ ih =>
    rw [floors_cons, floors_cons, ih, isFree_stable c d hcd.col hcd.set]
    congr 1
    split
    · have hcol := hcd.col
      have hset := hcd.set
      cases c
      cases d
      simp only at hcol hset
      rw [hcol, hset]
    · rename_i hc
      exact hcd.other (by simpa using hc)

/-- What the free columns are handed leaves the rest of the layout to the other passes, and the
first of these never overflows: no more is over than the floors come to. -/
theorem layOut_eq {ids : List Str} {chosen : Str → Option ℕ} {avail : ℕ} (h : Row ids chosen avail) :
    ∃ cells, layOut ids chosen avail = arrange cells avail ∧
      List.Forall₂ Handed (asked chosen (ids.filterMap column)) cells ∧ total cells < 2 ^ 32 ∧
      Fits isFree (Min.min (total cells - avail) (roomOf isFree cells)) cells := by
  have hknown := Row.asked_known ids chosen
  have hw := h.asked_w
  have hlen : (asked chosen (ids.filterMap column)).length ≤ 12 := by
    unfold asked
    rw [List.length_map]
    exact h.length_le
  have hmins : ((asked chosen (ids.filterMap column)).map (·.col.min)).sum ≤ 1026 := by
    unfold asked
    rw [List.map_map]
    exact h.sum_min
  have hne : ids.filterMap column ≠ [] := by
    obtain ⟨c, hc, -⟩ := h.stretches
    exact List.ne_nil_of_mem hc
  unfold layOut
  simp only
  rw [if_neg hne]
  generalize asked chosen (ids.filterMap column) = cells at *
  have htotal := total_le fun c hc => (hw c hc).2
  have hlen' := Nat.mul_le_mul_right (2 ^ 20) hlen
  obtain ⟨htaken, hfloors⟩ := total_floors_le isFree cells
  have htaken' := total_floors (p := isFree) fun c hc => (hw c hc).1
  obtain ⟨hweight, -⟩ := weightOf_eq h.small hknown hlen
  have hsmall := h.small
  obtain ⟨cells', hrun, hhanded, hsum⟩ := handOut_spec h.small
    (show avail - total (cells.filter fun c => !isFree c) < 2 ^ 20 by omega)
    (shares avail cells) cells 0 hknown (Nat.zero_le _) fun _ => by omega
  rw [u32_eq (by omega), hweight]
  simp only [Option.bind_eq_bind, Option.bind_some]
  rw [hrun, Option.bind_some]
  refine ⟨cells', rfl, hhanded, by omega, fits_of_room ?_⟩
  have hfl : ∀ c ∈ cells', c.col.min ≤ c.w := by
    intro d hd
    obtain ⟨c, hc, hcd⟩ := mem_of_forall₂ hhanded hd
    by_cases hfree : isFree c = true
    · rw [hcd.col]
      exact hcd.floor hfree
    · rw [hcd.other (by simpa using hfree)]
      exact (hw c hc).1
  have hroom := total_floors (p := isFree) hfl
  rw [floors_of_handed hhanded] at hroom
  by_cases hfit : total (cells.filter fun c => !isFree c) ≤ avail
  · have htake : Min.min (total cells' - avail) (roomOf isFree cells') ≤ 1026 := by omega
    have hle : roomOf isFree cells' ≤ 2 ^ 20 := by omega
    exact lt_of_le_of_lt (Nat.mul_le_mul htake hle) (by decide)
  · have hzero : roomOf isFree cells' = 0 := by omega
    rw [hzero, Nat.mul_zero]
    decide

/-! ## Fitting to what the rows hold -/

theorem handRest_spec (moved : ℕ) : ∀ (l : List (ℕ × ℕ)) (handed : ℕ), (∀ x ∈ l, x.2 ≤ x.1) →
    handed ≤ moved → moved ≤ handed + (l.map fun x => x.1 - x.2).sum →
    (handRest moved handed l).sum + handed = (l.map (·.2)).sum + moved ∧
      List.Forall₂ (fun x y => y ≤ x.1) l (handRest moved handed l) := by
  intro l
  induction l with
  | nil =>
    intro handed _ h1 h2
    simp only [List.map_nil, List.sum_nil] at h2
    exact ⟨by simp [handRest]; omega, .nil⟩
  | cons x l ih =>
    intro handed hle h1 h2
    obtain ⟨amount, out⟩ := x
    have hx := hle (amount, out) List.mem_cons_self
    simp only [List.map_cons, List.sum_cons] at h2 hx
    obtain ⟨hsum, hall⟩ := ih (handed + Min.min (moved - handed) (amount - out))
      (fun y hy => hle y (List.mem_cons_of_mem _ hy)) (by omega) (by omega)
    unfold handRest
    simp only [List.map_cons, List.sum_cons]
    exact ⟨by omega, .cons (by simp only; omega) hall⟩

theorem sum_div_le (moved total : ℕ) (amounts : List ℕ) :
    (amounts.map fun a => moved * a / total).sum * total ≤ moved * amounts.sum := by
  induction amounts with
  | nil => simp
  | cons a amounts ih =>
    rw [List.map_cons, List.sum_cons, List.sum_cons, Nat.add_mul, Nat.mul_add]
    exact Nat.add_le_add (Nat.div_mul_le_self _ _) ih

/-- What is moved is taken from a side to the pixel, and from none more than it has. -/
theorem shift_spec {moved : ℕ} (amounts : List ℕ) (hpos : 0 < amounts.sum)
    (h : moved ≤ amounts.sum) :
    (shift moved amounts amounts.sum).sum = moved ∧
      List.Forall₂ (fun a y => y ≤ a) amounts (shift moved amounts amounts.sum) := by
  have hout : (amounts.map fun a => moved * a / amounts.sum).sum ≤ moved := by
    have := sum_div_le moved amounts.sum amounts
    exact Nat.le_of_mul_le_mul_right this hpos
  have hle : ∀ a, moved * a / amounts.sum ≤ a := by
    intro a
    apply Nat.div_le_of_le_mul
    exact Nat.mul_le_mul_right _ h
  have hzip : amounts.zip (amounts.map fun a => moved * a / amounts.sum) =
      amounts.map fun a => (a, moved * a / amounts.sum) :=
    List.map_prod_left_eq_zip.symm
  unfold shift
  simp only
  rw [hzip]
  have hrest : amounts.sum = (amounts.map fun a => moved * a / amounts.sum).sum +
      ((amounts.map fun a => (a, moved * a / amounts.sum)).map fun x => x.1 - x.2).sum := by
    rw [List.map_map, ← List.sum_map_add]
    conv => lhs; rw [← List.map_id amounts]
    refine congrArg List.sum (List.map_congr_left fun a _ => ?_)
    have := hle a
    simp only [id, Function.comp_apply]
    omega
  obtain ⟨hsum, hall⟩ := handRest_spec moved
    (amounts.map fun a => (a, moved * a / amounts.sum))
    (amounts.map fun a => moved * a / amounts.sum).sum
    (fun x hx => by
      obtain ⟨a, -, rfl⟩ := List.mem_map.mp hx
      exact hle a) hout (by omega)
  rw [List.map_map] at hsum
  refine ⟨?_, List.forall₂_map_left_iff.mp hall⟩
  have : ((fun x : ℕ × ℕ => x.2) ∘ fun a => (a, moved * a / amounts.sum)) =
      fun a => moved * a / amounts.sum := rfl
  rw [this] at hsum
  omega

section
variable {chosen need : Str → Option ℕ}

/-- What a column that is fitted becomes: dragged and fixed ones stay, none gets under its floor, and
none wider than what it needs. -/
def FitsCell (chosen need : Str → Option ℕ) (r : Column × ℕ) (w' : ℕ) : Prop :=
  (r.1.near = 0 ∨ (dragOf chosen r.1).isSome = true → w' = r.2) ∧ (w' < r.2 → r.1.min ≤ w') ∧
    (r.2 < w' → ∃ n, need r.1.id = some n ∧ w' ≤ n)

theorem fitsCell_self (r : Column × ℕ) : FitsCell chosen need r r.2 :=
  ⟨fun _ => rfl, fun h => absurd h (lt_irrefl _), fun h => absurd h (lt_irrefl _)⟩

variable (chosen need) in
/-- A column can spare something, or is short of something, or neither. -/
theorem measured_cases (r : Column × ℕ) : measured chosen need r.1 r.2 = (0, 0) ∨
    (0 < r.1.near ∧ dragOf chosen r.1 = none ∧ ∃ n, need r.1.id = some n ∧
      (Max.max n r.1.min < r.2 ∧ measured chosen need r.1 r.2 = (r.2 - Max.max n r.1.min, 0) ∨
        r.2 < n ∧ ∃ s ≤ n - r.2, measured chosen need r.1 r.2 = (0, s))) := by
  unfold measured
  by_cases hfixed : r.1.near = 0 ∨ (dragOf chosen r.1).isSome = true
  · exact Or.inl (if_pos hfixed)
  · rw [if_neg hfixed]
    rw [not_or] at hfixed
    cases hneed : need r.1.id with
    | none => exact Or.inl rfl
    | some n =>
      simp only
      by_cases hkeep : Max.max n r.1.min < r.2
      · rw [if_pos hkeep]
        exact Or.inr ⟨Nat.pos_of_ne_zero hfixed.1, by simpa using hfixed.2, n, rfl,
          Or.inl ⟨hkeep, rfl⟩⟩
      · rw [if_neg hkeep]
        by_cases hshort : r.2 < n
        · rw [if_pos hshort]
          refine Or.inr ⟨Nat.pos_of_ne_zero hfixed.1, by simpa using hfixed.2, n, rfl,
            Or.inr ⟨hshort, _, ?_, rfl⟩⟩
          split
          · exact Nat.min_le_left _ _
          · exact le_refl _
        · exact Or.inl (if_neg hshort)

theorem measured_spec (r : Column × ℕ) {give take : ℕ}
    (hgive : give ≤ (measured chosen need r.1 r.2).1)
    (htake : take ≤ (measured chosen need r.1 r.2).2) :
    give ≤ r.2 ∧ FitsCell chosen need r (r.2 - give + take) := by
  rcases measured_cases chosen need r with h |
    ⟨hnear, hset, n, hneed, ⟨hkeep, h⟩ | ⟨hshort, s, hs, h⟩⟩
  · rw [h] at hgive htake
    obtain rfl := Nat.le_zero.mp hgive
    obtain rfl := Nat.le_zero.mp htake
    exact ⟨Nat.zero_le _, fitsCell_self r⟩
  all_goals
    rw [h] at hgive htake
    simp only at hgive htake
    have hfree : ¬ (r.1.near = 0 ∨ (dragOf chosen r.1).isSome = true) := by
      rw [hset]
      simp only [Option.isSome_none, Bool.false_eq_true, or_false]
      omega
  · exact ⟨by omega, fun h => absurd h hfree, fun _ => by omega, fun h => by omega⟩
  · exact ⟨by omega, fun h => absurd h hfree, fun _ => by omega, fun h => ⟨n, hneed, by omega⟩⟩

theorem measured_stretches {r : Column × ℕ}
    (h : 0 < (measured chosen need r.1 r.2).1 ∨ 0 < (measured chosen need r.1 r.2).2) :
    0 < r.1.near := by
  rcases measured_cases chosen need r with h' | ⟨hnear, -⟩
  · rw [h'] at h
    simp at h
  · exact hnear

variable (chosen need) in
theorem measured_one (r : Column × ℕ) :
    (measured chosen need r.1 r.2).1 = 0 ∨ (measured chosen need r.1 r.2).2 = 0 := by
  rcases measured_cases chosen need r with h |
    ⟨-, -, n, -, ⟨-, h⟩ | ⟨-, s, -, h⟩⟩ <;> simp [h]

theorem measured_lt (hneed : ∀ id n, need id = some n → n < 2 ^ 32) (r : Column × ℕ) :
    (measured chosen need r.1 r.2).2 < 2 ^ 32 := by
  rcases measured_cases chosen need r with h |
    ⟨-, -, n, hn, ⟨-, h⟩ | ⟨-, s, hs, h⟩⟩
  · simp [h]
  · simp [h]
  · have := hneed _ n hn
    rw [h]
    simp only
    omega

theorem measured_le (r : Column × ℕ) : (measured chosen need r.1 r.2).1 ≤ r.2 := by
  rcases measured_cases chosen need r with h |
    ⟨-, -, n, -, ⟨-, h⟩ | ⟨-, s, -, h⟩⟩ <;> simp [h]

/-- Two columns stretch, so one at most can be short where another has room to spare. -/
theorem stretches_cases : ∀ c ∈ COLUMNS, 0 < c.near →
    c.id = str "name" ∨ c.id = str "path" := by decide

/-- What a list of columns is short of, where only one of them is short. -/
theorem sum_short_lt {rows : List (Column × ℕ)} (hnd : (rows.map (·.1)).Nodup) {d : Column}
    {short : Column × ℕ → ℕ} (hd : ∀ r ∈ rows, 0 < short r → r.1 = d)
    (hlt : ∀ r ∈ rows, short r < 2 ^ 32) : (rows.map short).sum < 2 ^ 32 := by
  induction rows with
  | nil => exact Nat.two_pow_pos 32
  | cons r rows ih =>
    rw [List.map_cons, List.nodup_cons] at hnd
    have htail := ih hnd.2 (fun s hs => hd s (List.mem_cons_of_mem _ hs))
      fun s hs => hlt s (List.mem_cons_of_mem _ hs)
    rw [List.map_cons, List.sum_cons]
    by_cases hr : 0 < short r
    · have hzero : (rows.map short).sum = 0 := by
        rw [List.sum_eq_zero_iff]
        intro x hx
        obtain ⟨s, hs, rfl⟩ := List.mem_map.mp hx
        by_contra hne
        refine hnd.1 (List.mem_map.mpr ⟨s, hs, ?_⟩)
        rw [hd s (List.mem_cons_of_mem _ hs) (Nat.pos_of_ne_zero hne), hd r List.mem_cons_self hr]
      have := hlt r List.mem_cons_self
      omega
    · omega

/-- Where something can be given, no sum wraps. -/
theorem sum_short_mod (hneed : ∀ id n, need id = some n → n < 2 ^ 32) {rows : List (Column × ℕ)}
    (hknown : ∀ r ∈ rows, r.1 ∈ COLUMNS) (hnd : (rows.map (·.1)).Nodup)
    (hspare : 0 < (rows.map fun r => (measured chosen need r.1 r.2).1).sum) :
    (rows.map fun r => (measured chosen need r.1 r.2).2).sum < 2 ^ 32 := by
  have hex : ∃ r ∈ rows, 0 < (measured chosen need r.1 r.2).1 := by
    by_contra hno
    have hzero : (rows.map fun r => (measured chosen need r.1 r.2).1).sum = 0 := by
      rw [List.sum_eq_zero_iff]
      intro x hx
      obtain ⟨s, hs, rfl⟩ := List.mem_map.mp hx
      by_contra hne
      exact hno ⟨s, hs, Nat.pos_of_ne_zero hne⟩
    omega
  obtain ⟨r, hr, hpos⟩ := hex
  by_cases hshort : ∃ s ∈ rows, 0 < (measured chosen need s.1 s.2).2
  · obtain ⟨s, hs, hs'⟩ := hshort
    refine sum_short_lt hnd (d := s.1) (fun t ht ht' => ?_) fun t _ => measured_lt hneed t
    have hdiff : ∀ t ∈ rows, 0 < (measured chosen need t.1 t.2).2 → t.1 ≠ r.1 := by
      intro t ht ht' heq
      rw [List.inj_on_of_nodup_map hnd ht hr heq] at ht'
      rcases measured_one chosen need r with h | h <;> omega
    have hcases := fun t (ht : t ∈ rows) h => stretches_cases t.1 (hknown t ht) h
    have hr' := hcases r hr (measured_stretches (Or.inl hpos))
    have hs'' := hcases s hs (measured_stretches (Or.inr hs'))
    have ht'' := hcases t ht (measured_stretches (Or.inr ht'))
    have hne₁ : s.1.id ≠ r.1.id := fun h =>
      hdiff s hs hs' (eq_of_id _ (hknown s hs) _ (hknown r hr) h)
    have hne₂ : t.1.id ≠ r.1.id := fun h =>
      hdiff t ht ht' (eq_of_id _ (hknown t ht) _ (hknown r hr) h)
    refine eq_of_id _ (hknown t ht) _ (hknown s hs) ?_
    rcases hr' with hr' | hr' <;> rcases hs'' with hs'' | hs'' <;> rcases ht'' with ht'' | ht'' <;>
      simp_all
  · refine sum_short_lt hnd (d := r.1) (fun t ht ht' => absurd ⟨t, ht, ht'⟩ hshort)
      fun t _ => measured_lt hneed t

/-- Widths that were fitted. -/
structure Fitted (chosen need : Str → Option ℕ) (rows : List (Column × ℕ)) (ws' : List ℕ) :
    Prop where
  sum : ws'.sum = (rows.map (·.2)).sum
  each : List.Forall₂ (FitsCell chosen need) rows ws'

variable (chosen need) in
theorem fitted_self (rows : List (Column × ℕ)) : Fitted chosen need rows (rows.map (·.2)) :=
  ⟨rfl, List.forall₂_map_right_iff.mpr (List.forall₂_same.mpr fun r _ => fitsCell_self r)⟩

/-- What one side gives the other takes. -/
theorem fitted_zip {rows : List (Column × ℕ)} {give take : List ℕ}
    (hgive : List.Forall₂ (fun r g => g ≤ (measured chosen need r.1 r.2).1) rows give)
    (htake : List.Forall₂ (fun r t => t ≤ (measured chosen need r.1 r.2).2) rows take) :
    List.Forall₂ (FitsCell chosen need) rows
        (((rows.map (·.2)).zip (give.zip take)).map fun x => x.1 - x.2.1 + x.2.2) ∧
      (((rows.map (·.2)).zip (give.zip take)).map fun x => x.1 - x.2.1 + x.2.2).sum +
        give.sum = (rows.map (·.2)).sum + take.sum := by
  induction hgive generalizing take with
  | nil =>
    cases htake
    exact ⟨.nil, rfl⟩
  | @cons r g rows give hg _ ih =>
    cases htake with
    | @cons _ t _ take ht hrest =>
      obtain ⟨hall, hsum⟩ := ih hrest
      obtain ⟨hle, hfits⟩ := measured_spec r hg ht
      refine ⟨.cons hfits hall, ?_⟩
      simp only [List.map_cons, List.zip_cons_cons, List.sum_cons]
      omega

theorem fitTo_spec (hneed : ∀ id n, need id = some n → n < 2 ^ 32) {ids : List Str} {ws : List ℕ}
    (hlen : ws.length = (ids.filterMap column).length) (hnd : (ids.filterMap column).Nodup)
    (hsmall : ws.sum < 2 ^ 32) :
    Fitted chosen need ((ids.filterMap column).zip ws) (fitTo chosen need ids ws) := by
  have hws : ((ids.filterMap column).zip ws).map (·.2) = ws :=
    List.map_snd_zip (le_of_eq hlen)
  have hcols : ((ids.filterMap column).zip ws).map (·.1) = ids.filterMap column :=
    List.map_fst_zip (le_of_eq hlen.symm)
  have hself : Fitted chosen need ((ids.filterMap column).zip ws) ws := by
    have := fitted_self chosen need ((ids.filterMap column).zip ws)
    rwa [hws] at this
  have hknown : ∀ r ∈ (ids.filterMap column).zip ws, r.1 ∈ COLUMNS := fun r hr =>
    Row.cols_known ids _ (List.of_mem_zip hr).1
  unfold fitTo
  simp only
  rw [if_neg (by omega)]
  have hspare : (((ids.filterMap column).zip ws).map fun r =>
      (measured chosen need r.1 r.2).1).sum ≤ ws.sum := by
    conv => rhs; rw [← hws]
    exact List.sum_le_sum fun r _ => measured_le r
  generalize hrows : (ids.filterMap column).zip ws = rows at *
  rw [Nat.mod_eq_of_lt (lt_of_le_of_lt hspare hsmall)]
  by_cases hzero : (rows.map fun r => (measured chosen need r.1 r.2).1).sum = 0
  · rw [hzero, Nat.zero_min, if_pos rfl]
    exact hself
  · have hpos := Nat.pos_of_ne_zero hzero
    rw [Nat.mod_eq_of_lt (sum_short_mod hneed hknown (hcols ▸ hnd) hpos)]
    split
    · exact hself
    · rename_i hmoved
      obtain ⟨hgsum, hgive⟩ := shift_spec _ hpos (Nat.min_le_left _
        (rows.map fun r => (measured chosen need r.1 r.2).2).sum)
      obtain ⟨htsum, htake⟩ := shift_spec (rows.map fun r =>
        (measured chosen need r.1 r.2).2) (by omega) (Nat.min_le_right
          (rows.map fun r => (measured chosen need r.1 r.2).1).sum _)
      obtain ⟨hall, hsum⟩ := fitted_zip (List.forall₂_map_left_iff.mp hgive)
        (List.forall₂_map_left_iff.mp htake)
      rw [hws] at hall hsum
      refine ⟨?_, hall⟩
      rw [hws]
      refine Nat.add_right_cancel (hsum.trans ?_)
      rw [hgsum, htsum]

end

/-! ## The whole -/

/-- The row is filled, and fitting keeps it so. -/
def Fills (ids : List Str) (chosen : Str → Option ℕ) (avail : ℕ) : Prop :=
  ∃ ws, layOut ids chosen avail = some ws ∧ ws.length = ids.length ∧ (∀ w ∈ ws, 0 < w) ∧
    ws.sum = avail ∧
    (floorWidth ids ≤ avail → List.Forall₂ (fun c w => c.min ≤ w) (ids.filterMap column) ws) ∧
    (Unbounded (asked chosen (ids.filterMap column)) →
      total (floors isFree (asked chosen (ids.filterMap column))) ≤ avail →
      List.Forall₂ (fun c w => ∀ d, dragOf chosen c = some d → w = Max.max d c.min)
        (ids.filterMap column) ws) ∧
    ∀ need, (∀ id n, need id = some n → n < 2 ^ 32) →
      Fitted chosen need ((ids.filterMap column).zip ws) (fitTo chosen need ids ws)

theorem forall₂_handed {R : Cell → ℕ → Prop} {S : Cell → ℕ → Prop}
    {cells cells' : List Cell} {ws : List ℕ} (h : List.Forall₂ Handed cells cells')
    (hRS : ∀ c d w, Handed c d → R d w → S c w) (hw : List.Forall₂ R cells' ws) :
    List.Forall₂ S cells ws := by
  induction h generalizing ws with
  | nil => cases hw; exact .nil
  | cons hcd _ ih =>
    cases hw with
    | cons hdw hrest => exact .cons (hRS _ _ _ hcd hdw) (ih hrest)

/-- The columns fill the row, whatever is asked, if and only if the products of taking back are
small. -/
theorem fills_iff (ids : List Str) (chosen : Str → Option ℕ) (avail : ℕ)
    (h : Row ids chosen avail) :
    Fills ids chosen avail ↔ Small (asked chosen (ids.filterMap column)) avail := by
  obtain ⟨cells, hrun, hhanded, h32, hfree⟩ := layOut_eq h
  have hcols : cells.map (·.col) = ids.filterMap column := by
    have : ∀ {l l' : List Cell}, List.Forall₂ Handed l l' →
        l'.map (·.col) = l.map (·.col) := by
      intro l l' hl
      induction hl with
      | nil => rfl
      | cons hcd _ ih => rw [List.map_cons, List.map_cons, ih, hcd.col]
    rw [this hhanded]
    unfold asked
    rw [List.map_map]
    exact List.map_id _
  have hlen : cells.length = ids.length := by
    have := congrArg List.length hcols
    rw [List.length_map, h.cols_length] at this
    exact this
  have hknown : Known cells := by
    intro c hc
    refine Row.cols_known ids _ ?_
    rw [← hcols]
    exact List.mem_map_of_mem hc
  have hfloor : ∀ c ∈ cells, c.col.min ≤ c.w := by
    intro d hd
    obtain ⟨c, hc, hcd⟩ := mem_of_forall₂ hhanded hd
    by_cases hf : isFree c = true
    · rw [hcd.col]
      exact hcd.floor hf
    · rw [hcd.other (by simpa using hf)]
      exact (h.asked_w c hc).1
  have hex : ∃ c ∈ cells, 0 < c.col.near := by
    obtain ⟨c, hc, hnear⟩ := h.stretches
    rw [← hcols] at hc
    obtain ⟨d, hd, rfl⟩ := List.mem_map.mp hc
    exact ⟨d, hd, hnear⟩
  have hsmall : Small (asked chosen (ids.filterMap column)) avail ↔ Small cells avail := by
    unfold Small
    rw [floors_of_handed hhanded]
  have hspec : (Small cells avail → ∃ ws, arrange cells avail = some ws ∧ Filled cells avail ws) ∧
      (¬ Small cells avail → arrange cells avail = none) := by
    by_cases hle : total cells ≤ avail
    · have hwide := arrange_wide hknown (hlen.trans h.cols_length.symm ▸ h.length_le) hex hfloor
        h.small hle
      refine ⟨fun _ => hwide, fun hno => absurd (small_of_le hfloor ?_) hno⟩
      have := total_floors (p := isFree) hfloor
      omega
    · exact arrange_narrow hknown (hcols ▸ h.cols_nodup) hfloor (hlen ▸ h.room) h32 (by omega) hfree
  rw [hsmall]
  constructor
  · rintro ⟨ws, hws, -⟩
    by_contra hno
    rw [hrun, hspec.2 hno] at hws
    cases hws
  · intro hs
    obtain ⟨ws, hws, hfilled⟩ := hspec.1 hs
    have hsum := hfilled.sum
    have hsmall' := h.small
    refine ⟨ws, hrun.trans hws, hfilled.length.trans hlen, hfilled.pos, hfilled.sum, fun hw => ?_,
      fun hu ht => ?_, fun need hneed => fitTo_spec hneed
        (hfilled.length.trans (hlen.trans h.cols_length.symm)) h.cols_nodup (by omega)⟩
    · rw [← hcols]
      refine List.forall₂_map_left_iff.mpr (hfilled.floor ?_)
      have hmap : (cells.map (·.col)).map (·.min) = cells.map (·.col.min) := by
        rw [List.map_map]
        rfl
      rw [← hmap, hcols]
      exact hw
    · have hkept := hfilled.kept
        (exists_of_forall₂ (fun c d hcd hp =>
          ⟨(isFree_stable c d hcd.col hcd.set).trans hp.1, hcd.col ▸ hp.2⟩) hhanded hu)
        (by rwa [floors_of_handed hhanded])
      have hasked := forall₂_handed (S := fun c w => isFree c = false → w = c.w) hhanded
        (fun c d w hcd hw hf => by
          rw [hw ((isFree_stable c d hcd.col hcd.set).trans hf), hcd.other hf]) hkept
      unfold asked at hasked
      refine (List.forall₂_map_left_iff.mp hasked).imp fun c w hw d hd => ?_
      have := hw (by simp [isFree, hd])
      rw [hd] at this
      exact this

theorem fills_iff_default : Fills DEFAULT_COLUMNS (fun _ => none) 900 := by
  have hrow : Row DEFAULT_COLUMNS (fun _ => none) 900 :=
    ⟨by decide, by decide, by decide, fun _ _ h => absurd h (by simp), by decide, by decide⟩
  refine (fills_iff _ _ _ hrow).mpr (small_of_le (fun c hc => (hrow.asked_w c hc).1) ?_)
  decide

/-- Two columns dragged beyond a window of 900: 199,100 times 99,890 is no `u32`. -/
theorem not_fills_always :
    ¬ ∀ ids chosen avail, Row ids chosen avail → Fills ids chosen avail := by
  intro h
  have hrow : Row [str "name", str "path"] (fun _ => some 100000) 900 := by
    refine ⟨by decide, by decide, by decide, fun _ w hw => ?_, by decide, by decide⟩
    obtain rfl := Option.some.inj hw
    decide
  have hnone : layOut [str "name", str "path"] (fun _ => some 100000) 900 = none := by
    decide +kernel
  obtain ⟨ws, hws, -⟩ := h _ _ _ hrow
  rw [hnone] at hws
  cases hws

end Scour.Widths
