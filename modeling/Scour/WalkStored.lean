import Scour.WalkRows

/-!
# Orders that arrive sorted

A walk in a stored order keeps the first matches it meets (`Storing`), and stops once there is a page
and the cap is met.  A stream of positions is the same walk over the rows the positions name
(`stream_eq`).  A walk backwards over dates keeps a page and everything of the date it ends on
(`BackKeeping`).
-/

namespace Scour

namespace SegmentWalk

variable {P : Platform} {w : SegmentWalk P}

/-! ## The first matches -/

/-- The walk has met the matches `m` and keeps the first of them. -/
structure Storing (w : SegmentWalk P) (m : List Nat) (s : Walked) : Prop where
  kept : s.kept = m.take w.need
  counted : s.counted = m.length
  stop : s.done = true → w.need ≤ m.length ∧ w.want.countCap ≤ m.length

theorem storing_start : w.Storing [] w.start := ⟨by simp [start], rfl, fun h => by cases h⟩

theorem Storing.take (hback : w.backwards = false) (hmode : w.storedOrder = true) {m : List Nat}
    {s : Walked} (h : w.Storing m s) (hgo : s.done = false) (row : Nat) (name : Str) :
    w.Storing (m ++ [row]) (w.take { s with counted := s.counted + 1 } row name) := by
  have hlen : (m ++ [row]).length = m.length + 1 := by simp
  have hkept : (if s.kept.length < w.need then s.kept ++ [row] else s.kept) =
      (m ++ [row]).take w.need := by
    rw [h.kept, List.length_take]
    split
    · rename_i hlt
      rw [List.take_of_length_le (by omega), List.take_of_length_le (by omega)]
    · rename_i hge
      rw [List.take_append_of_le_length (by omega)]
  unfold SegmentWalk.take visitStored
  rw [if_neg (by simp [hback]), if_pos hmode]
  dsimp only
  have hk : ∀ t : Walked, t = (if s.kept.length < w.need then
      { s with counted := s.counted + 1, kept := s.kept ++ [row] }
      else { s with counted := s.counted + 1 }) →
      t.kept = (m ++ [row]).take w.need ∧ t.counted = (m ++ [row]).length ∧ t.done = false := by
    rintro t rfl
    rw [← hkept, hlen, ← h.counted]
    split <;> exact ⟨rfl, rfl, hgo⟩
  generalize (if s.kept.length < w.need then
      { s with counted := s.counted + 1, kept := s.kept ++ [row] }
      else { s with counted := s.counted + 1 }) = t at hk
  obtain ⟨h1, h2, h3⟩ := hk t rfl
  split
  · rename_i hstop
    refine ⟨h1, h2, fun _ => ?_⟩
    rw [h1, h2, List.length_take] at hstop
    omega
  · exact ⟨h1, h2, fun hd => by rw [h3] at hd; cases hd⟩

/-- Rows one after the other: the matches met are the first ones, and all of them unless the walk
stopped. -/
theorem Storing.visitAll (hback : w.backwards = false) (hmode : w.storedOrder = true)
    (name : Nat → Str) (rows : List Nat)
    (hshows : ∀ row ∈ rows, w.shows row (name row) = w.shown row) :
    ∀ {m : List Nat} {s : Walked}, w.Storing m s → s.done = false →
      ∃ m', m' <+: rows.filter w.shown ∧ w.Storing (m ++ m') (w.visitAll name s rows) ∧
        ((w.visitAll name s rows).done = false → m' = rows.filter w.shown) := by
  induction rows with
  | nil =>
    intro m s h hgo
    exact ⟨[], List.nil_prefix, by simpa [SegmentWalk.visitAll] using h, fun _ => rfl⟩
  | cons row rows ih =>
    intro m s h hgo
    have ih' := @ih fun r hr => hshows r (List.mem_cons_of_mem _ hr)
    rw [visitAll_cons]
    unfold visit
    rw [hshows row List.mem_cons_self]
    by_cases hs : w.shown row = true
    · rw [if_pos hs, List.filter_cons_of_pos hs]
      have hnext := h.take hback hmode hgo row (name row)
      split
      · rename_i hd
        exact ⟨[row], List.cons_prefix_cons.mpr ⟨rfl, List.nil_prefix⟩, hnext,
          fun hf => by rw [hd] at hf; cases hf⟩
      · rename_i hd
        obtain ⟨m', hpre, hst, hall⟩ := ih' hnext (by simpa using hd)
        refine ⟨row :: m', List.cons_prefix_cons.mpr ⟨rfl, hpre⟩, ?_, fun hf => by rw [hall hf]⟩
        rwa [List.append_assoc] at hst
    · rw [if_neg hs, List.filter_cons_of_neg hs, if_neg (by simp [hgo])]
      exact ih' h hgo

/-- A walk in a stored order keeps the first matches, and counts them up to the cap. -/
theorem storing_spec (hback : w.backwards = false) (hmode : w.storedOrder = true)
    (name : Nat → Str) (rows : List Nat)
    (hshows : ∀ row ∈ rows, w.shows row (name row) = w.shown row) :
    (w.visitAll name w.start rows).kept = (rows.filter w.shown).take w.need ∧
      min w.want.countCap (rows.filter w.shown).length ≤ (w.visitAll name w.start rows).counted ∧
      (w.visitAll name w.start rows).counted ≤ (rows.filter w.shown).length := by
  obtain ⟨m, hpre, hst, hall⟩ := storing_start.visitAll hback hmode name rows hshows rfl
  rw [List.nil_append] at hst
  obtain ⟨rest, hrest⟩ := hpre
  have hlen := congrArg List.length hrest
  rw [List.length_append] at hlen
  rw [hst.kept, hst.counted]
  cases hd : (w.visitAll name w.start rows).done with
  | false =>
    rw [hall hd]
    exact ⟨rfl, Nat.min_le_right _ _, le_refl _⟩
  | true =>
    have hstop := hst.stop hd
    rw [← hrest, List.take_append_of_le_length hstop.1]
    refine ⟨rfl, ?_, by simp⟩
    omega

/-! ## Streaming positions -/

/-- The name a streamed row is handed over with. -/
def streamName (w : SegmentWalk P) (row : Nat) : Str :=
  if w.readsNames then w.seg.foldedName row else []

theorem shows_streamName (row : Nat) : w.shows row (w.streamName row) = w.shown row := by
  unfold streamName
  split
  · rfl
  · rename_i h
    unfold readsNames at h
    simp only [Bool.or_eq_true, not_or, Bool.not_eq_true, Option.isSome_eq_false_iff,
      Option.isNone_iff_eq_none] at h
    exact shows_of_not_read h.2 h.1 row []

/-- A stream that does not run out of tries is a walk over the rows its positions name. -/
theorem stream_eq (positions : List (Option Nat)) :
    ∀ (s : Walked) (tries : Option Nat) {s' : Walked}, s.done = false →
      w.stream s tries positions = some s' →
        s' = w.visitAll w.streamName s (positions.filterMap id) := by
  induction positions with
  | nil =>
    intro s tries s' _ h
    cases h
    rfl
  | cons p positions ih =>
    intro s tries s' hgo h
    unfold stream at h
    split at h
    · cases h
    · cases p with
      | none =>
        dsimp only at h
        exact ih s _ hgo h
      | some row =>
        dsimp only at h
        rw [List.filterMap_cons_some (f := id) (a := some row) (b := row) rfl, visitAll_cons]
        change (if (w.visit s row (w.streamName row)).done = true then _ else _) = _ at h
        by_cases hd : (w.visit s row (w.streamName row)).done = true
        · rw [if_pos hd] at h ⊢
          exact (Option.some.inj h).symm
        · rw [if_neg hd] at h ⊢
          exact ih _ _ (by simpa using hd) h

/-- A stream with no limit on its tries answers. -/
theorem stream_unlimited (positions : List (Option Nat)) :
    ∀ s : Walked, ∃ s', w.stream s none positions = some s' := by
  induction positions with
  | nil => exact fun s => ⟨s, rfl⟩
  | cons p positions ih =>
    intro s
    unfold stream
    rw [if_neg (by simp)]
    cases p with
    | none => exact ih s
    | some row =>
      dsimp only [Option.map_none]
      by_cases hd : (w.visit s row (w.streamName row)).done = true
      · exact ⟨_, if_pos hd⟩
      · obtain ⟨s', hs'⟩ := ih (w.visit s row (w.streamName row))
        exact ⟨s', (if_neg hd).trans hs'⟩

/-! ## Oldest first -/

/-- The walk backwards has met the matches `m`, whose dates do not fall, and keeps a page of them
with all that share its last date. -/
structure BackKeeping (w : SegmentWalk P) (m : List Nat) (s : Walked) : Prop where
  counted : s.counted = m.length
  none_ : w.need = 0 → s.kept = [] ∧ s.edge = none
  short : m.length < w.need → s.kept = m ∧ s.edge = none
  long : 0 < w.need → w.need ≤ m.length → ∃ e, s.edge = some e ∧
    (∀ row ∈ m.take w.need, w.seg.mtime row ≤ e) ∧ (∃ row ∈ m, w.seg.mtime row = e) ∧
    s.kept = m.filter fun row => w.seg.mtime row ≤ e
  stop : s.done = true → w.want.countCap ≤ m.length ∧ w.need ≤ m.length ∧
    ∀ e, s.edge = some e → ∃ row ∈ m, e < w.seg.mtime row

theorem backKeeping_start : w.BackKeeping [] w.start where
  counted := rfl
  none_ _ := ⟨rfl, rfl⟩
  short _ := ⟨rfl, rfl⟩
  long h1 h2 := by simp at h2; omega
  stop h := by cases h

theorem BackKeeping.take (hback : w.backwards = true) {m : List Nat} {s : Walked}
    (h : w.BackKeeping m s) (hgo : s.done = false) (row : Nat) (name : Str)
    (hlast : ∀ r ∈ m, w.seg.mtime r ≤ w.seg.mtime row) :
    w.BackKeeping (m ++ [row]) (w.take { s with counted := s.counted + 1 } row name) := by
  have hlen : (m ++ [row]).length = m.length + 1 := by simp
  unfold SegmentWalk.take visitBackwards
  rw [if_pos hback]
  dsimp only
  rcases Nat.eq_zero_or_pos w.need with h0 | hpos
  · -- a count and nothing else
    obtain ⟨hk, he⟩ := h.none_ h0
    rw [if_neg (by omega), if_neg (by rw [he]; simp)]
    split
    · rename_i hcap
      refine ⟨by rw [hlen, ← h.counted], fun _ => ⟨hk, he⟩, fun hlt => by omega,
        fun hp => by omega, fun _ => ⟨?_, by omega, fun e hee => ?_⟩⟩
      · rw [hlen, ← h.counted]
        exact hcap
      · rw [he] at hee
        cases hee
    · exact ⟨by rw [hlen, ← h.counted], fun _ => ⟨hk, he⟩, fun hlt => by omega,
        fun hp => by omega, fun hd => by rw [hgo] at hd; cases hd⟩
  rcases Nat.lt_or_ge m.length w.need with hshort | hlong
  · obtain ⟨hk, he⟩ := h.short hshort
    rw [if_pos (by rw [hk]; exact hshort), hk]
    refine ⟨by rw [hlen, ← h.counted], fun h0 => by omega, fun hlt => ⟨rfl, ?_⟩, fun _ hge => ?_,
      fun hd => by rw [hgo] at hd; cases hd⟩
    · rw [if_neg (by omega)]
      exact he
    · rw [if_pos (by omega)]
      refine ⟨_, rfl, fun r hr => ?_, ⟨row, by simp, rfl⟩, ?_⟩
      · rcases List.mem_append.mp (List.mem_of_mem_take hr) with hr | hr
        · exact hlast r hr
        · rw [List.mem_singleton.mp hr]
      · rw [eq_comm, List.filter_eq_self]
        intro r hr
        rw [decide_eq_true_eq]
        rcases List.mem_append.mp hr with hr | hr
        · exact hlast r hr
        · rw [List.mem_singleton.mp hr]
  · obtain ⟨e, he, hpage, ⟨x, hx, hxe⟩, hk⟩ := h.long hpos hlong
    have hfull : w.need ≤ s.kept.length := by
      rw [hk, ← List.countP_eq_length_filter]
      calc w.need = (m.take w.need).length := by rw [List.length_take]; omega
        _ = (m.take w.need).countP fun row => decide (w.seg.mtime row ≤ e) := by
            rw [eq_comm, List.countP_eq_length]
            exact fun r hr => decide_eq_true (hpage r hr)
        _ ≤ m.countP fun row => decide (w.seg.mtime row ≤ e) := (List.take_sublist _ _).countP_le
    have hpage' : ∀ r ∈ (m ++ [row]).take w.need, w.seg.mtime r ≤ e := by
      rw [List.take_append_of_le_length hlong]
      exact hpage
    have hmem : ∃ r ∈ m ++ [row], w.seg.mtime r = e := ⟨x, List.mem_append_left _ hx, hxe⟩
    rw [if_neg (by omega)]
    by_cases hsame : s.edge = some (w.seg.mtime row)
    · rw [if_pos hsame]
      have hrow : w.seg.mtime row = e := by
        rw [he] at hsame
        exact (Option.some.inj hsame).symm
      refine ⟨by rw [hlen, ← h.counted], fun h0 => by omega, fun hlt => by omega,
        fun _ _ => ⟨e, he, hpage', hmem, ?_⟩, fun hd => by rw [hgo] at hd; cases hd⟩
      rw [hk, List.filter_append, List.filter_singleton, hrow]
      simp
    · rw [if_neg hsame]
      have hrow : e < w.seg.mtime row := by
        have hle := hlast x hx
        rw [he] at hsame
        have hne : e ≠ w.seg.mtime row := fun heq => hsame (by rw [heq])
        omega
      have hkeep : s.kept = (m ++ [row]).filter fun row => w.seg.mtime row ≤ e := by
        rw [hk, List.filter_append, List.filter_cons_of_neg (by simpa using hrow), List.filter_nil,
          List.append_nil]
      split
      · rename_i hcap
        refine ⟨by rw [hlen, ← h.counted], fun h0 => by omega, fun hlt => by omega,
          fun _ _ => ⟨e, he, hpage', hmem, hkeep⟩, fun _ => ⟨?_, by omega, fun e' he' => ?_⟩⟩
        · rw [hlen, ← h.counted]
          exact hcap
        · rw [he] at he'
          cases he'
          exact ⟨row, by simp, hrow⟩
      · exact ⟨by rw [hlen, ← h.counted], fun h0 => by omega, fun hlt => by omega,
          fun _ _ => ⟨e, he, hpage', hmem, hkeep⟩, fun hd => by rw [hgo] at hd; cases hd⟩

/-- Rows one after the other, the dates of the matches not falling. -/
theorem BackKeeping.visitAll (hback : w.backwards = true) (name : Nat → Str) (rows : List Nat)
    (hshows : ∀ row ∈ rows, w.shows row (name row) = w.shown row)
    (hdates : (rows.filter w.shown).Pairwise fun a b => w.seg.mtime a ≤ w.seg.mtime b) :
    ∀ {m : List Nat} {s : Walked}, w.BackKeeping m s → s.done = false →
      (∀ r ∈ m, ∀ row ∈ rows.filter w.shown, w.seg.mtime r ≤ w.seg.mtime row) →
      ∃ m', m' <+: rows.filter w.shown ∧ w.BackKeeping (m ++ m') (w.visitAll name s rows) ∧
        ((w.visitAll name s rows).done = false → m' = rows.filter w.shown) := by
  induction rows with
  | nil =>
    intro m s h _ _
    exact ⟨[], List.nil_prefix, by simpa [SegmentWalk.visitAll] using h, fun _ => rfl⟩
  | cons row rows ih =>
    intro m s h hgo hlast
    have ih' := @ih fun r hr => hshows r (List.mem_cons_of_mem _ hr)
    rw [visitAll_cons]
    unfold visit
    rw [hshows row List.mem_cons_self]
    by_cases hs : w.shown row = true
    · rw [List.filter_cons_of_pos hs] at hdates hlast ⊢
      rw [if_pos hs]
      have hd := List.pairwise_cons.mp hdates
      have hnext := h.take hback hgo row (name row) fun r hr => hlast r hr row List.mem_cons_self
      split
      · rename_i hstop
        exact ⟨[row], List.cons_prefix_cons.mpr ⟨rfl, List.nil_prefix⟩, hnext,
          fun hf => by rw [hstop] at hf; cases hf⟩
      · rename_i hstop
        have hlast' : ∀ r ∈ m ++ [row], ∀ x ∈ rows.filter w.shown,
            w.seg.mtime r ≤ w.seg.mtime x := by
          intro r hr x hx
          rcases List.mem_append.mp hr with hr | hr
          · exact hlast r hr x (List.mem_cons_of_mem _ hx)
          · rw [List.mem_singleton.mp hr]
            exact hd.1 x hx
        obtain ⟨m', hpre, hst, hall⟩ := ih' hd.2 hnext (by simpa using hstop) hlast'
        refine ⟨row :: m', List.cons_prefix_cons.mpr ⟨rfl, hpre⟩, ?_, fun hf => by rw [hall hf]⟩
        rwa [List.append_assoc] at hst
    · rw [List.filter_cons_of_neg hs] at hdates hlast ⊢
      rw [if_neg hs, if_neg (by simp [hgo])]
      exact ih' hdates h hgo hlast

theorem key_modified (hsort : w.want.sort = .modified) (row : Nat) :
    w.key row = .num (w.seg.mtime row) := by
  unfold key SegmentWalk.sortValue Scour.sortValue
  rw [hsort]
  rfl

/-- A walk backwards keeps enough for the page, and counts up to the cap. -/
theorem backKeeping_spec (hback : w.backwards = true) (name : Nat → Str) (rows : List Nat)
    (hshows : ∀ row ∈ rows, w.shows row (name row) = w.shown row)
    (hdates : (rows.filter w.shown).Pairwise fun a b => w.seg.mtime a ≤ w.seg.mtime b) :
    Search.Keeps (pageLe w.want.descending) w.need ((rows.filter w.shown).map w.entry)
        ((w.visitAll name w.start rows).kept.map w.entry) ∧
      (w.visitAll name w.start rows).kept.Sublist (rows.filter w.shown) ∧
      min w.want.countCap (rows.filter w.shown).length ≤ (w.visitAll name w.start rows).counted ∧
      (w.visitAll name w.start rows).counted ≤ (rows.filter w.shown).length := by
  obtain ⟨m, ⟨rest, hrest⟩, hst, hall⟩ := backKeeping_start.visitAll hback name rows hshows hdates
    rfl (fun r hr => by cases hr)
  rw [List.nil_append] at hst
  have hmode : w.want.sort = .modified ∧ w.want.descending = false := by
    unfold backwards at hback
    simp only [Bool.and_eq_true, beq_iff_eq, Bool.not_eq_true'] at hback
    exact hback.1
  have hsorted : (m ++ rest).Pairwise fun a b => w.seg.mtime a ≤ w.seg.mtime b :=
    hrest ▸ hdates
  have hlen := congrArg List.length hrest
  rw [List.length_append] at hlen
  have hcount : min w.want.countCap (rows.filter w.shown).length ≤
        (w.visitAll name w.start rows).counted ∧
      (w.visitAll name w.start rows).counted ≤ (rows.filter w.shown).length := by
    rw [hst.counted]
    cases hd : (w.visitAll name w.start rows).done with
    | false =>
      rw [hall hd]
      exact ⟨Nat.min_le_right _ _, le_refl _⟩
    | true =>
      have := (hst.stop hd).1
      omega
  rcases Nat.eq_zero_or_pos w.need with h0 | hpos
  · rw [(hst.none_ h0).1]
    refine ⟨⟨by simp, fun x _ => Or.inr (by omega)⟩, List.nil_sublist _, hcount⟩
  rcases Nat.lt_or_ge m.length w.need with hshort | hlong
  · -- no page yet: nothing was left out
    have hd : (w.visitAll name w.start rows).done = false := by
      cases hd : (w.visitAll name w.start rows).done with
      | false => rfl
      | true => exact absurd (hst.stop hd).2.1 (not_le.mpr hshort)
    rw [(hst.short hshort).1, hall hd]
    exact ⟨Search.Keeps.refl _ _, List.Sublist.refl _, hall hd ▸ hcount⟩
  · obtain ⟨e, he, hpage, -, hk⟩ := hst.long hpos hlong
    -- every match past the ones met is newer than the page ends on
    have hrest' : ∀ r ∈ rest, e < w.seg.mtime r := by
      intro r hr
      cases hd : (w.visitAll name w.start rows).done with
      | false =>
        have hm := hall hd
        rw [hm] at hrest
        rw [List.append_right_eq_self.mp hrest] at hr
        cases hr
      | true =>
        obtain ⟨x, hx, hlt⟩ := (hst.stop hd).2.2 e he
        exact hlt.trans_le ((List.pairwise_append.mp hsorted).2.2 x hx r hr)
    have hkept : (w.visitAll name w.start rows).kept =
        (rows.filter w.shown).filter fun row => w.seg.mtime row ≤ e := by
      have hnone : (rest.filter fun row => w.seg.mtime row ≤ e) = [] := by
        rw [List.filter_eq_nil_iff]
        intro r hr
        rw [decide_eq_true_eq, not_le]
        exact hrest' r hr
      rw [hk, ← hrest, List.filter_append, hnone, List.append_nil]
    rw [hkept]
    refine ⟨⟨fun x hx => ?_, fun x hx => ?_⟩, List.filter_sublist, hcount⟩
    · obtain ⟨row, hrow, rfl⟩ := List.mem_map.mp hx
      exact List.mem_map_of_mem (List.mem_of_mem_filter hrow)
    · obtain ⟨row, hrow, rfl⟩ := List.mem_map.mp hx
      by_cases hle : w.seg.mtime row ≤ e
      · exact Or.inl (List.mem_map_of_mem (List.mem_filter.mpr ⟨hrow, by simpa using hle⟩))
      right
      unfold Search.before
      rw [List.countP_map]
      have hall' : ∀ r ∈ m.take w.need, ((fun y => !decide (pageLe w.want.descending (w.entry row) y)) ∘
          w.entry) r = true := by
        intro r hr
        have hr := hpage r hr
        simp only [Function.comp, Bool.not_eq_true', decide_eq_false_iff_not]
        unfold pageLe entry
        rw [key_modified hmode.1, key_modified hmode.1, keyLt_num, hmode.2, SortValue.num.injEq]
        unfold zoneKey
        simp only [Bool.false_eq_true, if_false]
        omega
      calc w.need = (m.take w.need).length := by rw [List.length_take]; omega
        _ = (m.take w.need).countP _ := (List.countP_eq_length.mpr hall').symm
        _ ≤ (rows.filter w.shown).countP _ := by
            rw [← hrest]
            exact ((List.take_sublist _ _).trans (List.sublist_append_left _ _)).countP_le

end SegmentWalk

end Scour
