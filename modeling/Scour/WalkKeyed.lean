import Scour.Lib.Top
import Scour.Walk

/-!
# Selecting a page

What the walk keeps where rows do not arrive sorted.  `narrow` leaves out only rows with a page's
worth of others before them (`narrow_drops`), `outOfPage` turns away only such rows
(`outOfPage_iff`), so a walk that keeps and trims still holds the page of all it has seen
(`Keeping`).
-/

namespace Scour

/-! ## The orders of a page -/

section
variable {desc : Bool}

theorem keyLt_irrefl (a : SortValue) : ¬ keyLt desc a a := by
  unfold keyLt
  split <;> exact lt_irrefl a

theorem keyLt_trans {a b c : SortValue} (hab : keyLt desc a b) (hbc : keyLt desc b c) :
    keyLt desc a c := by
  unfold keyLt at *
  split
  · rename_i h
    rw [if_pos h] at hab hbc
    exact lt_trans hbc hab
  · rename_i h
    rw [if_neg h] at hab hbc
    exact lt_trans hab hbc

theorem keyLt_tri (a b : SortValue) : keyLt desc a b ∨ a = b ∨ keyLt desc b a := by
  unfold keyLt
  split
  · rcases lt_trichotomy a b with h | h | h
    · exact Or.inr (Or.inr h)
    · exact Or.inr (Or.inl h)
    · exact Or.inl h
  · exact lt_trichotomy a b

instance : Std.Total (pageLe desc) where
  total a b := by
    rcases @keyLt_tri desc a.1 b.1 with h | h | h
    · exact Or.inl (Or.inl h)
    · exact (Nat.le_total a.2 b.2).imp (fun hr => Or.inr ⟨h, hr⟩) fun hr => Or.inr ⟨h.symm, hr⟩
    · exact Or.inr (Or.inl h)

instance : IsTrans Keyed (pageLe desc) where
  trans a b c hab hbc := by
    rcases hab with h1 | ⟨h1, h2⟩
    · rcases hbc with h3 | ⟨h3, -⟩
      · exact Or.inl (keyLt_trans h1 h3)
      · exact Or.inl (h3 ▸ h1)
    · rcases hbc with h3 | ⟨h3, h4⟩
      · exact Or.inl (h1 ▸ h3)
      · exact Or.inr ⟨h1.trans h3, h2.trans h4⟩

theorem pageLe_antisymm (a b : Keyed) (hab : pageLe desc a b) (hba : pageLe desc b a) : a = b := by
  rcases hab with h1 | ⟨h1, h2⟩
  · rcases hba with h3 | ⟨h3, -⟩
    · exact absurd (keyLt_trans h1 h3) (keyLt_irrefl _)
    · exact absurd (h3 ▸ h1) (keyLt_irrefl _)
  · rcases hba with h3 | ⟨-, h4⟩
    · exact absurd (h1 ▸ h3) (keyLt_irrefl _)
    · exact Prod.ext h1 (le_antisymm h2 h4)

end

theorem num_lt_num (a b : Int) : SortValue.num a < SortValue.num b ↔ a < b := by
  change SortValue.rank (.num a) < SortValue.rank (.num b) ↔ a < b
  simp [SortValue.rank, Prod.Lex.toLex_lt_toLex]

theorem keyLt_num (desc : Bool) (a b : Int) :
    keyLt desc (.num a) (.num b) ↔ zoneKey a desc < zoneKey b desc := by
  unfold keyLt zoneKey
  cases desc <;> simp [num_lt_num]

/-- What a page is cut by: rows that tie in an abbreviated key are not told apart. -/
def cutLe (desc exact : Bool) (a b : Keyed) : Prop :=
  if exact then pageLe desc a b else ¬ keyLt desc b.1 a.1

instance (desc exact : Bool) : DecidableRel (cutLe desc exact) := fun a b => by
  unfold cutLe
  infer_instance

section
variable {desc exact : Bool}

theorem cutLe_of_pageLe {a b : Keyed} (h : pageLe desc a b) : cutLe desc exact a b := by
  unfold cutLe
  split
  · exact h
  · rcases h with h | ⟨h, -⟩
    · exact fun hba => keyLt_irrefl _ (keyLt_trans h hba)
    · rw [h]
      exact keyLt_irrefl _

instance : Std.Total (cutLe desc exact) where
  total a b := (Std.Total.total (r := pageLe desc) a b).imp cutLe_of_pageLe cutLe_of_pageLe

instance : IsTrans Keyed (cutLe desc exact) where
  trans a b c hab hbc := by
    unfold cutLe at *
    split
    · rename_i h
      rw [if_pos h] at hab hbc
      exact trans_of (pageLe desc) hab hbc
    · rename_i h
      rw [if_neg h] at hab hbc
      intro hca
      rcases @keyLt_tri desc b.1 c.1 with h1 | h1 | h1
      · exact hab (keyLt_trans h1 hca)
      · exact hab (h1 ▸ hca)
      · exact hbc h1

/-- A candidate that is turned away comes after the worst row of the page. -/
theorem outOfPage_iff (bar : Option Keyed) (key : SortValue) (row : Nat) :
    outOfPage bar key row desc exact = true ↔
      ∃ e, bar = some e ∧ ¬ cutLe desc exact (key, row) e := by
  unfold outOfPage
  cases bar with
  | none => simp
  | some e =>
    obtain ⟨held, at_⟩ := e
    simp only [Option.some.injEq, exists_eq_left']
    unfold cutLe pageLe
    rcases @keyLt_tri desc key held with h | h | h
    · have hno : ¬ keyLt desc held key := fun h' => keyLt_irrefl _ (keyLt_trans h h')
      cases exact <;> simp [h, hno]
    · subst h
      cases exact <;> simp [keyLt_irrefl]
    · have hno : ¬ keyLt desc key held := fun h' => keyLt_irrefl _ (keyLt_trans h h')
      have hne : key ≠ held := fun heq => keyLt_irrefl _ (heq ▸ h)
      cases exact <;> simp [h, hno, hne]

/-! ## Trimming -/

theorem narrow_subperm (keyed : List Keyed) (need : Nat) :
    (narrow keyed need desc exact).Subperm keyed := by
  have hperm := List.perm_insertionSort (pageLe desc) keyed
  unfold narrow
  split
  · exact List.nil_subperm
  · split
    · exact List.Subperm.refl _
    · dsimp only
      split
      · exact (List.take_sublist _ _).subperm.trans hperm.subperm
      · split
        · exact hperm.subperm
        · refine List.Subperm.trans (List.Sublist.subperm ?_) hperm.subperm
          conv_rhs => rw [← List.take_append_drop need (keyed.insertionSort (pageLe desc))]
          exact (List.Sublist.refl _).append List.filter_sublist

/-- In a sorted list what stands up to a position is up to what stands there. -/
theorem le_of_mem_take {α : Type*} {r : α → α → Prop} [Std.Total r] {l : List α}
    (hl : l.Pairwise r) {k : Nat} (hk : k < l.length) {y : α} (hy : y ∈ l.take (k + 1)) :
    r y l[k] := by
  obtain ⟨i, hi, rfl⟩ := List.getElem_of_mem hy
  rw [List.length_take] at hi
  rw [List.getElem_take]
  rcases Nat.lt_or_ge i k with hlt | hge
  · exact List.pairwise_iff_getElem.mp hl i k _ hk hlt
  · obtain rfl : i = k := by omega
    exact (or_self _).mp (Std.Total.total _ _)

/-- What a trim leaves out has a page's worth before it. -/
theorem narrow_drops (keyed : List Keyed) (hnd : keyed.Nodup) (need : Nat) (x : Keyed)
    (hx : x ∈ keyed) :
    x ∈ narrow keyed need desc exact ∨ need ≤ Search.before (cutLe desc exact) keyed x := by
  unfold narrow
  by_cases h0 : need = 0
  · exact Or.inr (h0 ▸ Nat.zero_le _)
  rw [if_neg h0]
  by_cases hshort : keyed.length < need
  · rw [if_pos hshort]
    exact Or.inl hx
  rw [if_neg hshort]
  dsimp only
  have hperm := List.perm_insertionSort (pageLe desc) keyed
  have hsorted := List.pairwise_insertionSort (pageLe desc) keyed
  have hsplit := hperm.symm.subset hx
  rw [← List.take_append_drop need (keyed.insertionSort (pageLe desc)), List.mem_append] at hsplit
  cases exact with
  | true =>
    rw [if_pos rfl]
    refine hsplit.imp_right fun hd => ?_
    exact Search.le_before_of_dropped (r := pageLe desc) pageLe_antisymm hnd hd
  | false =>
    rw [if_neg (by simp)]
    have hlen : need - 1 < (keyed.insertionSort (pageLe desc)).length := by
      rw [List.length_insertionSort]
      omega
    rw [List.getElem?_eq_getElem hlen]
    dsimp only
    rw [List.mem_append, or_assoc]
    refine hsplit.imp_right fun hd => ?_
    rw [List.mem_filter, beq_iff_eq]
    by_cases htie : x.1 = ((keyed.insertionSort (pageLe desc))[need - 1]).1
    · exact Or.inl ⟨hd, htie⟩
    right
    -- behind the boundary and not tied with it, hence behind the whole page
    generalize keyed.insertionSort (pageLe desc) = S at hperm hsorted hlen hd htie
    have hbefore : ∀ y ∈ S.take need, ¬ cutLe desc false x y := by
      intro y hy
      have hye : pageLe desc y S[need - 1] :=
        le_of_mem_take hsorted hlen (by rwa [Nat.sub_add_cancel (by omega)])
      have hex : pageLe desc S[need - 1] x := by
        have hmem : S[need - 1] ∈ S.take need :=
          List.mem_take_iff_getElem.mpr ⟨need - 1, by omega, rfl⟩
        rw [← List.take_append_drop need S] at hsorted
        exact (List.pairwise_append.mp hsorted).2.2 _ hmem _ hd
      have hlt : keyLt desc S[need - 1].1 x.1 := by
        rcases hex with h | ⟨h, -⟩
        · exact h
        · exact absurd h.symm htie
      have hyx : keyLt desc y.1 x.1 := by
        rcases hye with h | ⟨h, -⟩
        · exact keyLt_trans h hlt
        · rw [h]
          exact hlt
      unfold cutLe
      rw [if_neg (by simp)]
      exact fun h => h hyx
    calc need = (S.take need).countP (fun y => !decide (cutLe desc false x y)) := by
          rw [List.countP_eq_length.mpr, List.length_take]
          · omega
          · intro y hy
            rw [Bool.not_eq_true', decide_eq_false_iff_not]
            exact hbefore y hy
      _ ≤ S.countP (fun y => !decide (cutLe desc false x y)) := (List.take_sublist need S).countP_le
      _ = Search.before (cutLe desc false) keyed x := Search.before_perm hperm x

/-- A trim of a page or more leaves a page, and its last row has a page up to it. -/
theorem narrow_page (keyed : List Keyed) {need : Nat} (hneed : 0 < need)
    (hlen : need ≤ keyed.length) :
    need ≤ (narrow keyed need desc exact).length ∧
      ∃ e, (narrow keyed need desc exact)[need - 1]? = some e ∧
        need ≤ keyed.countP (fun y => decide (cutLe desc exact y e)) := by
  have hperm := List.perm_insertionSort (pageLe desc) keyed
  have hsorted := List.pairwise_insertionSort (pageLe desc) keyed
  have hlenS : need ≤ (keyed.insertionSort (pageLe desc)).length := by
    rwa [List.length_insertionSort]
  unfold narrow
  rw [if_neg (by omega), if_neg (by omega)]
  dsimp only
  generalize keyed.insertionSort (pageLe desc) = S at hperm hsorted hlenS
  have hk : need - 1 < S.length := by omega
  have htake : (S.take need).length = need := by
    rw [List.length_take]
    omega
  have hcount : need ≤ keyed.countP (fun y => decide (cutLe desc exact y S[need - 1])) := by
    calc need = (S.take need).countP (fun y => decide (cutLe desc exact y S[need - 1])) := by
          rw [List.countP_eq_length.mpr, htake]
          intro y hy
          rw [decide_eq_true_eq]
          exact cutLe_of_pageLe
            (le_of_mem_take hsorted hk (by rwa [Nat.sub_add_cancel (by omega)]))
      _ ≤ S.countP (fun y => decide (cutLe desc exact y S[need - 1])) :=
          (List.take_sublist need S).countP_le
      _ = keyed.countP (fun y => decide (cutLe desc exact y S[need - 1])) := hperm.countP_eq _
  have hget : (S.take need)[need - 1]? = some S[need - 1] := by
    rw [List.getElem?_take_of_lt (by omega), List.getElem?_eq_getElem hk]
  cases exact with
  | true =>
    rw [if_pos rfl]
    exact ⟨htake.ge, _, hget, hcount⟩
  | false =>
    rw [if_neg (by simp), List.getElem?_eq_getElem hk]
    dsimp only
    refine ⟨?_, S[need - 1], ?_, hcount⟩
    · rw [List.length_append, htake]
      omega
    · rw [List.getElem?_append_left (by omega), hget]

/-- Where the key is the whole answer a trim is the page. -/
theorem narrow_exact (keyed : List Keyed) (need : Nat) :
    (narrow keyed need desc true).Perm (Search.first (pageLe desc) need keyed) := by
  unfold narrow Search.first
  split
  · rename_i h
    rw [h, List.take_zero]
  · split
    · rename_i h
      rw [List.take_of_length_le (by rw [List.length_insertionSort]; omega)]
      exact (List.perm_insertionSort _ _).symm
    · exact List.Perm.refl _

end

/-! ## The walk that selects -/

namespace SegmentWalk

variable {P : Platform} (w : SegmentWalk P)

/-- What a row sorts by. -/
def key (row : Nat) : SortValue := w.sortValue row (w.seg.foldedName row)

def entry (row : Nat) : Keyed := (w.key row, row)

/-- Does the search count this row? -/
def shown (row : Nat) : Bool := w.shows row (w.seg.foldedName row)

/-- How many of the rows are up to this one. -/
def upTo (m : List Nat) (e : Keyed) : Nat :=
  (m.map w.entry).countP fun y => decide (cutLe w.want.descending w.exact y e)

/-- The walk has seen the matches `m` and holds their page. -/
structure Keeping (m : List Nat) (s : Walked) : Prop where
  nodup : m.Nodup
  counted : s.counted = m.length
  going : s.done = false
  opened : s.closed = false
  keeps : Search.Keeps (cutLe w.want.descending w.exact) w.need (m.map w.entry) s.keyed
  sub : s.keyed.Subperm (m.map w.entry)
  room : w.need ≤ s.trimAt ∧ s.keyed.length < s.trimAt
  bar : ∀ e, s.bar = some e → w.need ≤ w.upTo m e
  worst : ∀ z at_, s.worst = some (z, at_) →
    ∃ v, z = zoneKey v w.want.descending ∧ w.need ≤ w.upTo m (.num v, at_)

variable {w}

theorem nodup_entries {m : List Nat} (h : m.Nodup) : (m.map w.entry).Nodup :=
  h.map fun _ _ heq => (Prod.mk.inj heq).2

theorem upTo_append (m : List Nat) (row : Nat) (e : Keyed) :
    w.upTo m e ≤ w.upTo (m ++ [row]) e := by
  unfold upTo
  rw [List.map_append, List.countP_append]
  omega

theorem keeping_start (hneed : 0 < w.need) : w.Keeping [] w.start where
  nodup := List.nodup_nil
  counted := rfl
  going := rfl
  opened := rfl
  keeps := Search.Keeps.refl _ _
  sub := List.nil_subperm
  room := ⟨le_refl _, hneed⟩
  bar _ h := by cases h
  worst _ _ h := by cases h

theorem Keeping.keep (hneed : 0 < w.need) {m : List Nat} {s : Walked} (h : w.Keeping m s)
    {row : Nat} (hrow : row ∉ m) :
    w.Keeping (m ++ [row]) (w.keep { s with counted := s.counted + 1 } (w.entry row)) := by
  have hnodup : (m ++ [row]).Nodup :=
    List.nodup_append.mpr ⟨h.nodup, List.nodup_singleton _, by
      rintro a ha b hb rfl
      exact hrow (List.mem_singleton.mp hb ▸ ha)⟩
  have hkeeps := h.keeps.append [w.entry row]
  have hsub : (s.keyed ++ [w.entry row]).Subperm ((m ++ [row]).map w.entry) := by
    rw [List.map_append]
    exact h.sub.append (List.Subperm.refl _)
  have hbar := fun e he => (h.bar e he).trans (upTo_append m row e)
  have hworst : ∀ z at_, s.worst = some (z, at_) → ∃ v, z = zoneKey v w.want.descending ∧
      w.need ≤ w.upTo (m ++ [row]) (.num v, at_) := by
    intro z at_ he
    obtain ⟨v, hz, hv⟩ := h.worst z at_ he
    exact ⟨v, hz, hv.trans (upTo_append m row _)⟩
  have hcounted : s.counted + 1 = (m ++ [row]).length := by
    rw [List.length_append, List.length_singleton, h.counted]
  unfold SegmentWalk.keep
  dsimp only
  by_cases hlt : (s.keyed ++ [w.entry row]).length < s.trimAt
  · rw [if_pos hlt]
    refine ⟨hnodup, hcounted, h.going, h.opened, ?_, hsub, ⟨h.room.1, hlt⟩, hbar, hworst⟩
    rw [List.map_append]
    exact hkeeps
  · rw [if_neg hlt]
    have hlen : w.need ≤ (s.keyed ++ [w.entry row]).length :=
      h.room.1.trans (Nat.le_of_not_lt hlt)
    have hndK : (s.keyed ++ [w.entry row]).Nodup := by
      obtain ⟨l, hp, hl⟩ := hsub
      exact hp.nodup_iff.mp (hl.nodup (nodup_entries hnodup))
    have hsubN := @narrow_subperm w.want.descending w.exact (s.keyed ++ [w.entry row]) w.need
    obtain ⟨hpage, e, he, hup⟩ := @narrow_page w.want.descending w.exact
      (s.keyed ++ [w.entry row]) w.need hneed hlen
    have hupm : w.need ≤ w.upTo (m ++ [row]) e := hup.trans (hsub.countP_le _)
    have hkeepsN : Search.Keeps (cutLe w.want.descending w.exact) w.need ((m ++ [row]).map w.entry)
        (narrow (s.keyed ++ [w.entry row]) w.need w.want.descending w.exact) := by
      rw [List.map_append] at hsub ⊢
      exact hkeeps.shrink hsub hsubN.subset (narrow_drops _ hndK _)
    have hroom : w.need ≤
          (narrow (s.keyed ++ [w.entry row]) w.need w.want.descending w.exact).length * 2 ∧
        (narrow (s.keyed ++ [w.entry row]) w.need w.want.descending w.exact).length <
          (narrow (s.keyed ++ [w.entry row]) w.need w.want.descending w.exact).length * 2 := by
      omega
    rw [he]
    obtain ⟨key, at_⟩ := e
    dsimp only
    split
    · split
      · refine ⟨hnodup, hcounted, h.going, h.opened, hkeepsN, hsubN.trans hsub, hroom, hbar, ?_⟩
        rintro z at' ⟨⟩
        exact ⟨_, rfl, hupm⟩
      · exact ⟨hnodup, hcounted, h.going, h.opened, hkeepsN, hsubN.trans hsub, hroom, hbar, hworst⟩
    · refine ⟨hnodup, hcounted, h.going, h.opened, hkeepsN, hsubN.trans hsub, hroom, ?_, hworst⟩
      rintro e ⟨⟩
      exact hupm

theorem not_backwards (hmode : w.storedOrder = false) : w.backwards = false := by
  unfold storedOrder at hmode
  simp only [Bool.or_eq_false_iff] at hmode
  exact hmode.1.2

/-- A matching row, where the page is selected. -/
theorem Keeping.take (hneed : 0 < w.need) (hmode : w.storedOrder = false) {m : List Nat}
    {s : Walked} (h : w.Keeping m s) {row : Nat} (hrow : row ∉ m) {name : Str}
    (hname : w.sortValue row name = w.key row) :
    w.Keeping (m ++ [row]) (w.take { s with counted := s.counted + 1 } row name) := by
  unfold SegmentWalk.take visitKeyed
  rw [if_neg (by simp [not_backwards hmode]), if_neg (by simp [hmode]), if_pos (by simp [h.opened]),
    if_neg (by omega)]
  dsimp only
  rw [hname]
  split
  · rename_i hout
    obtain ⟨e, he, hcut⟩ := (outOfPage_iff _ _ _).mp hout
    have hnodup : (m ++ [row]).Nodup :=
      List.nodup_append.mpr ⟨h.nodup, List.nodup_singleton _, by
        rintro a ha b hb rfl
        exact hrow (List.mem_singleton.mp hb ▸ ha)⟩
    refine ⟨hnodup, ?_, h.going, h.opened, ?_, ?_, h.room,
      fun e he => (h.bar e he).trans (upTo_append m row e), ?_⟩
    · rw [List.length_append, List.length_singleton, ← h.counted]
    · rw [List.map_append]
      refine h.keeps.skip fun x hx => ?_
      rw [List.map_singleton, List.mem_singleton] at hx
      exact (h.bar e he).trans (Search.countP_le_before _ (hx ▸ hcut))
    · rw [List.map_append]
      exact h.sub.trans (List.sublist_append_left _ _).subperm
    · intro z at_ hz
      obtain ⟨v, hv, hup⟩ := h.worst z at_ hz
      exact ⟨v, hv, hup.trans (upTo_append m row _)⟩
  · exact h.keep hneed hrow

/-- Rows one after the other, where the page is selected. -/
theorem Keeping.visitAll (hneed : 0 < w.need) (hmode : w.storedOrder = false) (name : Nat → Str)
    (rows : List Nat) (hshows : ∀ row ∈ rows, w.shows row (name row) = w.shown row)
    (hname : ∀ row ∈ rows, w.sortValue row (name row) = w.key row) :
    ∀ {m : List Nat} {s : Walked}, w.Keeping m s → (m ++ rows.filter w.shown).Nodup →
      w.Keeping (m ++ rows.filter w.shown) (w.visitAll name s rows) := by
  induction rows with
  | nil =>
    intro m s h _
    simpa [SegmentWalk.visitAll] using h
  | cons row rows ih =>
    intro m s h hnd
    have ih' := @ih (fun r hr => hshows r (List.mem_cons_of_mem _ hr))
      (fun r hr => hname r (List.mem_cons_of_mem _ hr))
    unfold SegmentWalk.visitAll visit
    rw [hshows row List.mem_cons_self]
    by_cases hs : w.shown row = true
    · rw [List.filter_cons_of_pos hs] at hnd ⊢
      rw [if_pos hs]
      have hrow : row ∉ m := fun hm =>
        (List.nodup_append.mp hnd).2.2 row hm row List.mem_cons_self rfl
      have hnext := h.take hneed hmode hrow (hname row List.mem_cons_self)
      dsimp only
      rw [hnext.going, if_neg (by simp)]
      have := ih' hnext (by rw [List.append_assoc]; exact hnd)
      rwa [List.append_assoc] at this
    · rw [List.filter_cons_of_neg hs] at hnd ⊢
      rw [if_neg hs]
      dsimp only
      rw [h.going, if_neg (by simp)]
      exact ih' h hnd

end SegmentWalk

end Scour
