import Scour.Faultless
import Mathlib.Algebra.Order.BigOperators.Group.List
import Mathlib.Algebra.Order.Ring.Nat
import Mathlib.Data.Nat.Log

/-!
# Compaction ends and leaves few segments

`headOf` takes the smallest size tier that has two segments in it.  Where no tier has, every segment
but the largest is more than `TIER_RATIO` times the one before it (`steep_of_tiers`), so there are no
more of them than the logarithm of their rows (`pow_lt_rows`).  A round of the loop leaves fewer
segments, or as many with fewer dead rows (`round_compacts`); `owed` counts how many rounds there can
be, and `compact_ends` is the whole loop.
-/

namespace Scour

namespace World

/-! ## Size tiers -/

theorem tierStep_flatten (acc : List (List Nat) × Nat) (m : Nat × Nat) :
    (tierStep acc m).1.reverse.flatten = acc.1.reverse.flatten ++ [m.1] := by
  obtain ⟨tiers, below⟩ := acc
  unfold tierStep
  cases tiers with
  | nil => simp
  | cons tier tiers =>
    simp only
    split <;> simp

/-- The tiers are the segments, in the order they were walked. -/
theorem foldl_tierStep_flatten (sizes : List (Nat × Nat)) : ∀ acc,
    (sizes.foldl tierStep acc).1.reverse.flatten = acc.1.reverse.flatten ++ sizes.map (·.1) := by
  induction sizes with
  | nil => intro acc; simp
  | cons m sizes ih =>
    intro acc
    rw [List.foldl_cons, ih, tierStep_flatten]
    simp

theorem sizeTiers_flatten (sizes : List (Nat × Nat)) :
    (sizeTiers sizes).flatten.Perm (sizes.map (·.1)) := by
  unfold sizeTiers
  rw [foldl_tierStep_flatten]
  exact (List.perm_insertionSort _ sizes).map _

/-- A tier with two segments stays one. -/
theorem exists_pair_foldl (sizes : List (Nat × Nat)) : ∀ acc : List (List Nat) × Nat,
    (∃ t ∈ acc.1, 2 ≤ t.length) → ∃ t ∈ (sizes.foldl tierStep acc).1, 2 ≤ t.length := by
  induction sizes with
  | nil => exact fun _ h => h
  | cons m sizes ih =>
    rintro ⟨tiers, below⟩ ⟨t, ht, hlen⟩
    apply ih
    unfold tierStep
    cases tiers with
    | nil => cases ht
    | cons tier tiers =>
      simp only
      split
      · rcases List.mem_cons.mp ht with rfl | ht
        · exact ⟨_, List.mem_cons_self, by simp; omega⟩
        · exact ⟨t, List.mem_cons_of_mem _ ht, hlen⟩
      · exact ⟨t, List.mem_cons_of_mem _ ht, hlen⟩

/-- Where every tier is a single segment, each is larger than the one before it, many times over. -/
theorem steep_of_tiers (sizes : List (Nat × Nat)) : ∀ (tier : List Nat) (tiers : List (List Nat))
    (below : Nat), tier ≠ [] →
    (∀ t ∈ (sizes.foldl tierStep (tier :: tiers, below)).1, t.length < 2) →
    (below :: sizes.map (·.2)).IsChain fun a b => TIER_RATIO * a < b := by
  induction sizes with
  | nil => intro tier tiers below _ _; simp
  | cons m sizes ih =>
    intro tier tiers below htier h
    rw [List.foldl_cons] at h
    by_cases hm : m.2 ≤ TIER_RATIO * below
    · have hpos := List.length_pos_iff.mpr htier
      obtain ⟨t, ht, hlen⟩ := exists_pair_foldl sizes (tierStep (tier :: tiers, below) m)
        ⟨tier ++ [m.1], by simp [tierStep, hm], by simp; omega⟩
      have := h t ht
      omega
    · have hstep : tierStep (tier :: tiers, below) m = ([m.1] :: tier :: tiers, m.2) := by
        simp [tierStep, hm]
      rw [hstep] at h
      have hrest := ih [m.1] (tier :: tiers) m.2 (by simp) h
      rw [List.map_cons, List.isChain_cons_cons]
      exact ⟨by omega, hrest⟩

/-- A list that grows `TIER_RATIO` times at every step comes to a power of it. -/
theorem exists_pow_le (rest : List Nat) : ∀ a : Nat,
    (a :: rest).IsChain (fun a b => TIER_RATIO * a < b) →
    ∃ b ∈ a :: rest, TIER_RATIO ^ rest.length * a ≤ b := by
  induction rest with
  | nil => exact fun a _ => ⟨a, List.mem_cons_self, by simp⟩
  | cons b rest ih =>
    intro a h
    rw [List.isChain_cons_cons] at h
    obtain ⟨c, hc, hle⟩ := ih b h.2
    refine ⟨c, List.mem_cons_of_mem _ hc, ?_⟩
    calc TIER_RATIO ^ (rest.length + 1) * a
        = TIER_RATIO ^ rest.length * ( TIER_RATIO * a) := by rw [Nat.pow_succ, Nat.mul_assoc]
      _ ≤ TIER_RATIO ^ rest.length * b := Nat.mul_le_mul_left _ (le_of_lt h.1)
      _ ≤ c := hle

/-- Single tiers of segments that hold something: one of them holds a power of the ratio. -/
theorem exists_large_of_tiers (sizes : List (Nat × Nat)) (hpos : ∀ m ∈ sizes, 0 < m.2)
    (h : ∀ t ∈ sizeTiers sizes, t.length < 2) (hne : sizes ≠ []) :
    ∃ m ∈ sizes, TIER_RATIO ^ (sizes.length - 1) ≤ m.2 := by
  unfold sizeTiers at h
  have hperm := List.perm_insertionSort (fun a b : Nat × Nat => a.2 < b.2 ∨ (a.2 = b.2 ∧ a.1 ≤ b.1))
    sizes
  rw [← hperm.length_eq]
  generalize sizes.insertionSort (fun a b => a.2 < b.2 ∨ (a.2 = b.2 ∧ a.1 ≤ b.1)) = sorted at h hperm
  cases sorted with
  | nil => exact absurd hperm.symm.eq_nil hne
  | cons m sorted =>
    rw [List.foldl_cons] at h
    have hchain := steep_of_tiers sorted [m.1] [] m.2 (by simp) fun t ht =>
      h t (List.mem_reverse.mpr ht)
    obtain ⟨b, hb, hle⟩ := exists_pow_le _ _ hchain
    have hm := hpos m (hperm.mem_iff.mp List.mem_cons_self)
    rw [← List.map_cons, List.mem_map] at hb
    obtain ⟨x, hx, rfl⟩ := hb
    refine ⟨x, hperm.mem_iff.mp hx, le_trans ?_ hle⟩
    rw [List.length_cons, List.length_map, Nat.add_sub_cancel]
    exact Nat.le_mul_of_pos_right _ hm

/-! ## The head -/

theorem biggest_eq_none {ms : List Member} (h : biggest ms = none) : ms = [] := by
  cases ms with
  | nil => rfl
  | cons m ms =>
    unfold biggest at h
    split at h
    · cases h
    · split at h <;> cases h

theorem biggest_spec (ms : List Member) : ∀ {big : Member}, biggest ms = some big →
    big ∈ ms ∧ ∀ m ∈ ms, m.rows ≤ big.rows := by
  induction ms with
  | nil => intro big h; cases h
  | cons m ms ih =>
    intro big h
    unfold biggest at h
    cases hb : biggest ms with
    | none =>
      rw [hb] at h
      obtain rfl := Option.some.inj h
      rw [biggest_eq_none hb]
      exact ⟨List.mem_cons_self, fun x hx => by rw [List.mem_singleton.mp hx]⟩
    | some b =>
      obtain ⟨hin, hle⟩ := ih hb
      rw [hb] at h
      simp only at h
      split at h
      · rename_i hlt
        obtain rfl := Option.some.inj h
        refine ⟨List.mem_cons_self, fun x hx => ?_⟩
        rcases List.mem_cons.mp hx with rfl | hx
        · exact le_refl _
        · exact le_trans (hle x hx) (le_of_lt hlt)
      · rename_i hnlt
        obtain rfl := Option.some.inj h
        refine ⟨List.mem_cons_of_mem _ hin, fun x hx => ?_⟩
        rcases List.mem_cons.mp hx with rfl | hx
        · exact Nat.le_of_not_lt hnlt
        · exact hle x hx

/-- The largest and the others. -/
theorem perm_biggest {ms : List Member} (hnd : (ms.map (·.number)).Nodup) {big : Member}
    (hbig : big ∈ ms) : ms.Perm (big :: ms.filter fun m => m.number ≠ big.number) := by
  refine (List.perm_ext_iff_of_nodup (List.Nodup.of_map _ hnd) ?_).mpr fun m => ?_
  · refine List.nodup_cons.mpr ⟨by simp, (List.Nodup.of_map _ hnd).filter _⟩
  · simp only [List.mem_cons, List.mem_filter, decide_eq_true_eq]
    constructor
    · intro hm
      by_cases heq : m.number = big.number
      · exact Or.inl (List.inj_on_of_nodup_map hnd hm hbig heq)
      · exact Or.inr ⟨hm, heq⟩
    · rintro (rfl | ⟨hm, -⟩)
      · exact hbig
      · exact hm

/-- What is folded next: several of the segments, or one that is a quarter dead. -/
theorem headOf_some {ms : List Member} (hnd : (ms.map (·.number)).Nodup) (hlen : 2 ≤ ms.length)
    {head : List Nat} (h : headOf ms = some head) :
    head.Nodup ∧ (∀ n ∈ head, n ∈ ms.map (·.number)) ∧
      (2 ≤ head.length ∨ ∃ m ∈ ms, head = [m.number] ∧ 0 < m.dead) := by
  unfold headOf at h
  cases hb : biggest ms with
  | none => rw [hb] at h; cases h
  | some big =>
    rw [hb] at h
    simp only at h
    split at h
    · obtain rfl := Option.some.inj h
      exact ⟨hnd, fun n hn => hn, Or.inl (by simpa using hlen)⟩
    · have hrest := (List.filter_sublist (l := ms) (p := fun m => decide (m.number ≠ big.number))).map
        (·.number)
      split at h
      · rename_i tier htier
        obtain rfl := Option.some.inj h
        have hin := List.mem_of_find?_eq_some htier
        have hlong := List.find?_some htier
        have hflat := sizeTiers_flatten
          ((ms.filter fun m => m.number ≠ big.number).map fun m => (m.number, m.rows))
        rw [List.map_map] at hflat
        have hsub := (List.sublist_flatten_of_mem hin).subperm.trans hflat.subperm
        refine ⟨?_, fun n hn => hrest.subset (hsub.subset hn), Or.inl (of_decide_eq_true hlong)⟩
        obtain ⟨l, hp, hl⟩ := hsub
        exact hp.nodup_iff.mp ((hnd.sublist hrest).sublist hl)
      · obtain ⟨m, hm, rfl⟩ := Option.map_eq_some_iff.mp h
        have hin := List.mem_of_mem_filter (List.mem_of_find?_eq_some hm)
        have hdead := List.find?_some hm
        simp only [decide_eq_true_eq] at hdead
        refine ⟨List.nodup_singleton _, fun n hn => ?_, Or.inr ⟨m, hin, rfl, by omega⟩⟩
        rw [List.mem_singleton.mp hn]
        exact List.mem_map_of_mem hin

/-- Where nothing is folded next, no segment is more than a quarter dead, and all but the largest
are single tiers. -/
theorem headOf_none {ms : List Member} (hnd : (ms.map (·.number)).Nodup)
    (hpos : ∀ m ∈ ms, 0 < m.rows) (hlen : 2 ≤ ms.length) (h : headOf ms = none) :
    (∀ m ∈ ms, 4 * m.dead ≤ m.rows) ∧
      TIER_RATIO ^ (ms.length - 2) < (ms.map (·.rows)).sum := by
  unfold headOf at h
  cases hb : biggest ms with
  | none => rw [biggest_eq_none hb] at hlen; cases hlen
  | some big =>
    obtain ⟨hin, hle⟩ := biggest_spec ms hb
    have hperm := perm_biggest hnd hin
    have hposrest : ∀ m ∈ ms.filter (fun m => m.number ≠ big.number), 0 < m.rows :=
      fun m hm => hpos m (List.mem_of_mem_filter hm)
    rw [hb] at h
    simp only at h
    split at h
    · cases h
    · rename_i hbig
      split at h
      · cases h
      · rename_i htiers
        generalize ms.filter (fun m => m.number ≠ big.number) = rest at *
        have hdead := Option.map_eq_none_iff.mp h
        rw [List.find?_eq_none] at htiers hdead
        constructor
        · intro m hm
          rcases List.mem_cons.mp (hperm.mem_iff.mp hm) with rfl | hm
          · omega
          · have := hdead m hm
            simp only [decide_eq_true_eq] at this
            omega
        · have hlen' := hperm.length_eq
          rw [List.length_cons] at hlen'
          have hne : rest ≠ [] := by
            rintro rfl
            simp only [List.length_nil] at hlen'
            omega
          obtain ⟨p, hp, hpow⟩ := exists_large_of_tiers
            (rest.map fun m => (m.number, m.rows)) (by simpa using hposrest)
            (fun t ht => by
              have := htiers t ht
              simp only [decide_eq_true_eq] at this
              omega) (by simpa using hne)
          obtain ⟨m, hm, rfl⟩ := List.mem_map.mp hp
          have hsum : (ms.map (·.rows)).sum = big.rows + (rest.map (·.rows)).sum := by
            rw [(hperm.map _).sum_eq, List.map_cons, List.sum_cons]
          have hone : m.rows ≤ (rest.map (·.rows)).sum :=
            List.single_le_sum (fun _ _ => Nat.zero_le _) _ (List.mem_map_of_mem hm)
          have hbigpos := hpos big hin
          rw [List.length_map] at hpow
          have hexp : ms.length - 2 = rest.length - 1 := by omega
          rw [hexp]
          simp only at hpow
          omega

/-! ## One round -/

/-- The segments as a compaction sees them. -/
def members (w : World) : List Member :=
  w.inner.segments.map fun l => ⟨l.number, l.rows, l.deadRows⟩

/-- Every segment holds something and is on disk, no generation is open, and no operation fails. -/
structure OnDisk (w : World) : Prop where
  ok : ∀ l ∈ w.inner.segments, l.Ok
  rows : ∀ l ∈ w.inner.segments, 0 < l.rows
  nodup : (w.inner.segments.map (·.number)).Nodup
  fresh : ∀ l ∈ w.inner.segments, l.number < w.inner.nextSegment
  opened : w.inner.opened = none
  seen : ∀ n, w.inner.seen n = none
  unwritten : w.inner.unwritten = []
  unfailing : w.Unfailing

theorem segment?_eq {inner : Inner} (hnd : (inner.segments.map (·.number)).Nodup) {l : Live}
    (hl : l ∈ inner.segments) : inner.segment? l.number = some l := by
  cases h : inner.segment? l.number with
  | none =>
    unfold Inner.segment? at h
    have := List.find?_eq_none.mp h l hl
    simp at this
  | some l' =>
    obtain ⟨hl', hn⟩ := Inner.mem_of_segment? h
    rw [List.inj_on_of_nodup_map hnd hl' hl hn]

theorem nextHead_eq {w : World} (h : w.OnDisk) :
    w.nextHead = if 3 ≤ w.inner.segments.length then headOf w.members else none := by
  have hgroups : (w.inner.groups.map fun g => g.filter fun n => !w.inner.unwritten.contains n) =
      [w.inner.segments.map (·.number)] := by
    unfold Inner.groups
    rw [h.opened, h.unwritten]
    simp
  unfold nextHead
  rw [hgroups]
  by_cases hlen : 3 ≤ w.inner.segments.length
  · simp only [List.find?_cons, List.length_map, hlen, decide_true, if_true]
    rw [List.map_map]
    refine congrArg headOf (List.map_congr_left fun l hl => ?_)
    simp only [Function.comp_apply]
    rw [segment?_eq h.nodup hl]
  · simp [hlen]

theorem saveMeta_unwritten (w : World) :
    w.saveMeta.world.inner.unwritten = w.inner.unwritten := by
  unfold saveMeta
  simp only
  split <;> rfl

theorem deadRows_ofBytes (number generation : Nat) (es : List Entry) :
    (Live.ofBytes number generation (buildSorted es)).deadRows = 0 := by
  simp [Live.deadRows, Live.rows, Live.liveRows, Live.ofBytes]

/-- The inputs of a fold are as many as it names. -/
theorem filter_which {segments : List Live} (hnd : (segments.map (·.number)).Nodup)
    {which : List Nat} (hwhich : which.Nodup) (hsub : ∀ n ∈ which, n ∈ segments.map (·.number)) :
    ((segments.filter fun l => which.contains l.number).map (·.number)).Perm which := by
  refine (List.perm_ext_iff_of_nodup (hnd.sublist (List.filter_sublist.map _)) hwhich).mpr
    fun n => ?_
  constructor
  · intro hn
    obtain ⟨l, hl, rfl⟩ := List.mem_map.mp hn
    simpa using (List.mem_filter.mp hl).2
  · intro hn
    obtain ⟨l, hl, rfl⟩ := List.mem_map.mp (hsub n hn)
    exact List.mem_map_of_mem (List.mem_filter.mpr ⟨hl, by simpa using hn⟩)

/-- What takes the place of some segments: one with the rows that were live in them and none dead,
or none. -/
structure Folds (w w' : World) (which : List Nat) (folded : Option Live) : Prop where
  segments : w'.inner.segments.Perm
    ((w.inner.segments.filter fun l => !which.contains l.number) ++ folded.toList)
  dead : ∀ l ∈ folded, l.deadRows = 0
  entries : (folded.toList.flatMap Live.entries).Perm
    ((w.inner.segments.filter fun l => which.contains l.number).flatMap Live.entries)

/-- Several segments, or one that lost a row, are merged. -/
theorem foldBuild_worth {w : World} (hnd : (w.inner.segments.map (·.number)).Nodup)
    {which : List Nat} (hwhich : which.Nodup)
    (hsub : ∀ n ∈ which, n ∈ w.inner.segments.map (·.number))
    (hworth : 2 ≤ which.length ∨ ∃ l ∈ w.inner.segments, which = [l.number] ∧ 0 < l.deadRows) :
    ∃ input, w.foldBuild which = some input ∧
      input.bytes = buildSorted (mergeRows
        (w.inner.segments.filter fun l => which.contains l.number)) ∧
      input.snapshot = (w.inner.segments.filter fun l => which.contains l.number).map fun l =>
        (l.number, l.deaths) := by
  have hlen := (filter_which hnd hwhich hsub).length_eq
  rw [List.length_map] at hlen
  unfold foldBuild
  refine ⟨_, if_neg ?_, rfl, rfl⟩
  rw [hlen]
  simp only [Bool.and_eq_true, decide_eq_true_eq, List.all_eq_true, not_and]
  intro hlt hall
  rcases hworth with h2 | ⟨l, hl, rfl, hdead⟩
  · omega
  · have := hall l (List.mem_filter.mpr ⟨hl, by simp⟩)
    simp only [beq_iff_eq] at this
    omega

/-- Where nothing fails the merged rows become a segment, if there are any. -/
theorem foldWrite_ok {w : World} (h : w.Unfailing) (number : Nat) {input : FoldInput}
    {es : List Entry} (hb : input.bytes = buildSorted es) :
    ∃ disk folded, w.foldWrite number input true = .ok { w with disk } folded ∧
      disk.faults = [] ∧
      ((folded = none ∧ es = []) ∨ es ≠ [] ∧
        folded = some (.ofBytes number input.generation (buildSorted es))) := by
  have hreturns : (w.foldWrite number input true).Meets (fun w _ => w.Unfailing) fun _ => False :=
    foldWrite_returns h hb
  obtain ⟨folded, hv, hunf⟩ := hreturns.returns
  obtain ⟨⟨disk, hd⟩, hthen⟩ := foldWrite_spec (w := w) number true hb
  have hout := Search.Outcome.eq_ok hd hv
  rw [hd] at hunf
  refine ⟨disk, folded, hout, hunf.faults, ?_⟩
  by_cases hes : es = []
  · subst hes
    unfold foldWrite at hv
    rw [hb, if_pos (by simp)] at hv
    exact Or.inl ⟨(Option.some.inj hv).symm, rfl⟩
  · rcases hthen folded hv with ⟨-, hnil⟩ | hsome
    · exact absurd hnil hes
    · exact Or.inr ⟨hes, hsome⟩

/-- Where nothing fails and no input changed, the merged segment is published. -/
theorem foldPublish_ok {w : World} (h : w.Unfailing) {which : List Nat}
    {snapshot : List (Nat × Nat)} (hcurrent : w.foldCurrent which snapshot = true) (number : Nat)
    (folded : Option Live) :
    ∃ w', w.foldPublish which number snapshot folded true = .ok w' true ∧ w'.Unfailing ∧
      ({ w with inner := w.inner.putFolded which number folded true } : World).Same w' ∧
      w'.inner.unwritten = (w.inner.putFolded which number folded true).unwritten := by
  have hdirty : (w.inner.putFolded which number folded true).metaDirty = true := by
    simp [Inner.putFolded]
  obtain ⟨u, hv, hunf⟩ := (saveMeta_returns
    (w := { w with inner := w.inner.putFolded which number folded true })
    ⟨h.faults, h.landed⟩).returns
  unfold foldPublish
  simp only [hcurrent, Bool.not_true, Bool.false_eq_true, if_false, hdirty, if_true]
  rw [Search.Outcome.eq_ok rfl hv]
  exact ⟨_, rfl, hunf, saveMeta_same _, saveMeta_unwritten _⟩

/-- The inputs of a fold are what they were a moment before. -/
theorem foldCurrent_self {w : World} (hnd : (w.inner.segments.map (·.number)).Nodup)
    {which : List Nat} (hwhich : which.Nodup)
    (hsub : ∀ n ∈ which, n ∈ w.inner.segments.map (·.number)) :
    w.foldCurrent which ((w.inner.segments.filter fun l => which.contains l.number).map fun l =>
      (l.number, l.deaths)) = true := by
  have hlen := (filter_which hnd hwhich hsub).length_eq
  rw [List.length_map] at hlen
  unfold foldCurrent
  simp only [List.length_map, hlen, beq_self_eq_true, Bool.true_and, List.all_map,
    List.all_eq_true, Function.comp_apply]
  intro l hl
  rw [segment?_eq hnd (List.mem_of_mem_filter hl)]
  simp

/-- A fold of several segments, or of one that lost a row, succeeds. -/
theorem foldTo_onDisk {w : World} (h : w.OnDisk) {which : List Nat} (hwhich : which.Nodup)
    (hsub : ∀ n ∈ which, n ∈ w.inner.segments.map (·.number))
    (hworth : 2 ≤ which.length ∨ ∃ l ∈ w.inner.segments, which = [l.number] ∧ 0 < l.deadRows) :
    ∃ w' folded, w.foldTo which true = .ok w' true ∧ w'.OnDisk ∧ w.Folds w' which folded := by
  have hmarked : w.marked which = false := by simp [marked, h.seen]
  obtain ⟨input, hbuild, hbytes, hsnapshot⟩ :=
    foldBuild_worth (w := (w.foldClaim true).1) h.nodup hwhich hsub hworth
  obtain ⟨disk, folded, hwrite, hfaults, hshape⟩ := foldWrite_ok (w := (w.foldClaim true).1)
    ⟨h.unfailing.faults, h.unfailing.landed⟩ (w.foldClaim true).2 hbytes
  have hcurrent := foldCurrent_self (w := { (w.foldClaim true).1 with disk }) h.nodup hwhich hsub
  obtain ⟨w', hpublish, hunf, hsame, hunwritten⟩ :=
    foldPublish_ok (w := { (w.foldClaim true).1 with disk }) ⟨hfaults, h.unfailing.landed⟩
      hcurrent (w.foldClaim true).2 folded
  have hrun : w.foldTo which true = .ok w' true := by
    unfold foldTo
    rw [hmarked]
    simp only [Bool.false_eq_true, if_false]
    rw [hbuild]
    simp only
    rw [hwrite, Search.Outcome.bind_ok, hsnapshot]
    exact hpublish
  have hp := sortSegments_perm ((w.inner.segments.filter fun l => !which.contains l.number) ++
    folded.toList)
  have hsegs : w'.inner.segments.Perm
      ((w.inner.segments.filter fun l => !which.contains l.number) ++ folded.toList) := by
    rw [hsame.segments]
    exact hp
  have hdead : ∀ l ∈ folded, l.Ok ∧ 0 < l.rows ∧ l.number = w.inner.nextSegment ∧
      l.deadRows = 0 := by
    intro l hl
    rcases hshape with ⟨rfl, -⟩ | ⟨hes, rfl⟩
    · cases hl
    · obtain rfl := Option.some.inj hl
      refine ⟨Live.ofBytes_ok _ _ _, ?_, rfl, deadRows_ofBytes _ _ _⟩
      show 0 < (buildSorted _).seg.rows
      rw [buildSorted_rows]
      exact List.length_pos_iff.mpr hes
  have hmem : ∀ l ∈ w'.inner.segments,
      (l ∈ w.inner.segments ∧ which.contains l.number = false) ∨ l ∈ folded := by
    intro l hl
    rcases List.mem_append.mp (hsegs.mem_iff.mp hl) with hl | hl
    · obtain ⟨h1, h2⟩ := List.mem_filter.mp hl
      exact Or.inl ⟨h1, by simpa using h2⟩
    · exact Or.inr (by simpa using hl)
  have hnext : w.inner.nextSegment < w'.inner.nextSegment :=
    lt_of_lt_of_le (Nat.lt_succ_self _) (le_trans (le_max_left _ _) hsame.nextSegment)
  refine ⟨w', folded, hrun, ⟨fun l hl => ?_, fun l hl => ?_, ?_, fun l hl => ?_, ?_, ?_, ?_, hunf⟩,
    hsegs, fun l hl => (hdead l hl).2.2.2, ?_⟩
  · rcases hmem l hl with ⟨hl, -⟩ | hl
    · exact h.ok l hl
    · exact (hdead l hl).1
  · rcases hmem l hl with ⟨hl, -⟩ | hl
    · exact h.rows l hl
    · exact (hdead l hl).2.1
  · refine (hsegs.map _).nodup_iff.mpr ?_
    rw [List.map_append]
    refine List.nodup_append.mpr ⟨h.nodup.sublist (List.filter_sublist.map _), ?_, ?_⟩
    · cases folded <;> simp
    · rintro n hn m hm rfl
      obtain ⟨l, hl, rfl⟩ := List.mem_map.mp hn
      obtain ⟨l', hl', heq⟩ := List.mem_map.mp hm
      have hfresh := h.fresh l (List.mem_of_mem_filter hl)
      have hnumber := (hdead l' (by simpa using hl')).2.2.1
      omega
  · rcases hmem l hl with ⟨hl, -⟩ | hl
    · exact lt_trans (h.fresh l hl) hnext
    · rw [(hdead l hl).2.2.1]
      exact hnext
  · rw [hsame.opened]
    exact h.opened
  · rw [hsame.seen]
    exact h.seen
  · rw [hunwritten]
    simp [Inner.putFolded, foldClaim, h.unwritten]
  · have hmerged := mergeRows_perm (w.inner.segments.filter fun l => which.contains l.number)
    rcases hshape with ⟨rfl, hnil⟩ | ⟨-, rfl⟩
    · have hnil' : mergeRows (w.inner.segments.filter fun l => which.contains l.number) = [] := hnil
      rwa [hnil'] at hmerged
    · simp only [Option.toList_some, List.flatMap_cons, List.flatMap_nil, List.append_nil,
        Live.entries_ofBytes]
      exact hmerged

/-- The dead rows of all segments. -/
def deadRows (w : World) : Nat := (w.inner.segments.map Live.deadRows).sum

/-- How many segments have lost a row. -/
def hurt (w : World) : Nat := w.inner.segments.countP fun l => 0 < l.deadRows

/-- A bound on the rounds to come: a fold takes several segments for one, or one that has lost rows
for one that has not. -/
def owed (w : World) : Nat := w.inner.segments.length + w.hurt

/-- Fewer segments, or as many with fewer dead rows. -/
def Compacts (w w' : World) : Prop :=
  w'.inner.segments.length < w.inner.segments.length ∨
    (w'.inner.segments.length = w.inner.segments.length ∧ w'.deadRows < w.deadRows)

namespace Folds

variable {w w' : World} {which : List Nat} {folded : Option Live}

/-- The same rows are live. -/
theorem liveRows (h : w.Folds w' which folded) : w'.liveRows.Perm w.liveRows := by
  unfold World.liveRows
  refine (h.segments.flatMap_right _).trans ?_
  rw [List.flatMap_append]
  refine (h.entries.append_left _).trans ?_
  rw [← List.flatMap_append]
  refine List.Perm.flatMap_right _ (List.perm_append_comm.trans ?_)
  exact List.filter_append_perm _ _

theorem length (h : w.Folds w' which folded) : w'.inner.segments.length =
    (w.inner.segments.filter fun l => !which.contains l.number).length + folded.toList.length := by
  rw [h.segments.length_eq, List.length_append]

theorem deadRows (h : w.Folds w' which folded) : w'.deadRows =
    ((w.inner.segments.filter fun l => !which.contains l.number).map Live.deadRows).sum := by
  unfold World.deadRows
  rw [(h.segments.map _).sum_eq, List.map_append, List.sum_append]
  cases folded with
  | none => simp
  | some l => simp [h.dead l rfl]

theorem hurt (h : w.Folds w' which folded) : w'.hurt =
    (w.inner.segments.filter fun l => !which.contains l.number).countP fun l => 0 < l.deadRows := by
  unfold World.hurt
  rw [h.segments.countP_eq, List.countP_append]
  cases folded with
  | none => simp
  | some l => simp [h.dead l rfl]

end Folds

/-- A segment the fold takes is one the list no longer has. -/
theorem perm_taken (segments : List Live) (which : List Nat) :
    segments.Perm ((segments.filter fun l => !which.contains l.number) ++
      segments.filter fun l => which.contains l.number) :=
  (List.perm_append_comm.trans (List.filter_append_perm _ _)).symm

/-- A round of the loop: the fold succeeds, the same rows are live, and there is less to do. -/
theorem round_compacts {w : World} (h : w.OnDisk) {head : List Nat} (hhead : w.nextHead = some head) :
    ∃ w', w.foldTo head true = .ok w' true ∧ w'.OnDisk ∧ w'.liveRows.Perm w.liveRows ∧
      w.Compacts w' ∧ w'.owed < w.owed := by
  rw [nextHead_eq h] at hhead
  split at hhead
  case isFalse => cases hhead
  rename_i hlen
  have hnumbers : w.members.map (·.number) = w.inner.segments.map (·.number) := by
    unfold members
    rw [List.map_map]
    rfl
  obtain ⟨hnd, hsub, hworth⟩ := headOf_some (hnumbers ▸ h.nodup)
    (by simpa [members] using le_of_lt hlen) hhead
  rw [hnumbers] at hsub
  have hworth' : 2 ≤ head.length ∨
      ∃ l ∈ w.inner.segments, head = [l.number] ∧ 0 < l.deadRows := by
    rcases hworth with hlong | ⟨m, hm, rfl, hdead⟩
    · exact Or.inl hlong
    · obtain ⟨l, hl, rfl⟩ := List.mem_map.mp hm
      exact Or.inr ⟨l, hl, rfl, hdead⟩
  obtain ⟨w', folded, hrun, hw', hf⟩ := foldTo_onDisk h hnd hsub hworth'
  refine ⟨w', hrun, hw', hf.liveRows, ?_⟩
  have hperm := perm_taken w.inner.segments head
  have htaken := (filter_which h.nodup hnd hsub).length_eq
  rw [List.length_map] at htaken
  have hlength := hperm.length_eq
  have hdead : w.deadRows = _ := (hperm.map Live.deadRows).sum_eq
  have hhurt : w.hurt = _ := hperm.countP_eq _
  rw [List.length_append] at hlength
  rw [List.map_append, List.sum_append] at hdead
  rw [List.countP_append] at hhurt
  have hfolded : folded.toList.length ≤ 1 := by cases folded <;> simp
  have hl' := hf.length
  have hd' := hf.deadRows
  have hh' := hf.hurt
  unfold Compacts owed
  rcases hworth' with hlong | ⟨l, hl, rfl, hpos⟩
  · exact ⟨Or.inl (by omega), by omega⟩
  · have hin : l ∈ w.inner.segments.filter fun k => [l.number].contains k.number :=
      List.mem_filter.mpr ⟨hl, by simp⟩
    have hone := List.single_le_sum (fun _ _ => Nat.zero_le _) _
      (List.mem_map_of_mem (f := Live.deadRows) hin)
    have hsome : 0 < (w.inner.segments.filter fun k => [l.number].contains k.number).countP
        fun l => 0 < l.deadRows := List.countP_pos_iff.mpr ⟨l, hin, by simpa using hpos⟩
    rw [List.length_singleton] at htaken
    exact ⟨by omega, by omega⟩

/-! ## The loop -/

/-- Where the loop stops there are few segments, and none of three or more is mostly dead. -/
structure Few (w : World) : Prop where
  count : w.inner.segments.length ≤
    Nat.clog TIER_RATIO (w.inner.segments.map Live.rows).sum + 1
  dead : 3 ≤ w.inner.segments.length → ∀ l ∈ w.inner.segments, 4 * l.deadRows ≤ l.rows

theorem few_of_nextHead {w : World} (h : w.OnDisk) (hhead : w.nextHead = none) : w.Few := by
  rw [nextHead_eq h] at hhead
  have hrows : w.members.map (·.rows) = w.inner.segments.map Live.rows := by
    unfold members
    rw [List.map_map]
    rfl
  have hlen : w.members.length = w.inner.segments.length := by simp [members]
  have hpos : ∀ m ∈ w.members, 0 < m.rows := by
    intro m hm
    obtain ⟨l, hl, rfl⟩ := List.mem_map.mp hm
    exact h.rows l hl
  have hnd : (w.members.map (·.number)).Nodup := by
    unfold members
    rw [List.map_map]
    exact h.nodup
  by_cases hthree : 3 ≤ w.inner.segments.length
  · rw [if_pos hthree] at hhead
    obtain ⟨hdead, hpow⟩ := headOf_none hnd hpos (by omega) hhead
    constructor
    · rw [hlen, hrows, ← Nat.lt_clog_iff_pow_lt (by decide)] at hpow
      omega
    · intro _ l hl
      exact hdead _ (List.mem_map_of_mem hl)
  · refine ⟨?_, fun h3 => absurd h3 hthree⟩
    have hsum := List.length_le_sum_of_one_le (w.inner.segments.map Live.rows) fun n hn => by
      obtain ⟨l, hl, rfl⟩ := List.mem_map.mp hn
      exact h.rows l hl
    rw [List.length_map] at hsum
    by_cases htwo : 2 ≤ w.inner.segments.length
    · have : 0 < Nat.clog TIER_RATIO (w.inner.segments.map Live.rows).sum :=
        (Nat.lt_clog_iff_pow_lt (by decide)).mpr (by simp; omega)
      omega
    · omega

theorem owed_le (w : World) : w.owed ≤ 2 * w.inner.segments.length := by
  have := List.countP_le_length (p := fun l : Live => decide (0 < l.deadRows))
    (l := w.inner.segments)
  unfold owed hurt
  omega

/-- The loop ends after as many rounds as are owed. -/
theorem compactLoop_ends (n : Nat) : ∀ {w : World}, w.OnDisk → w.owed ≤ n →
    ∃ w', (∀ fuel, n < fuel → w.compactLoop fuel = .ok w' ()) ∧ w'.OnDisk ∧ w'.nextHead = none ∧
      w'.liveRows.Perm w.liveRows := by
  induction n with
  | zero =>
    intro w h hn
    have hnone : w.nextHead = none := by
      cases hhead : w.nextHead with
      | none => rfl
      | some head =>
        obtain ⟨w', -, -, -, -, hlt⟩ := round_compacts h hhead
        omega
    refine ⟨w, fun fuel hfuel => ?_, h, hnone, List.Perm.refl _⟩
    obtain ⟨k, rfl⟩ := Nat.exists_eq_succ_of_ne_zero (Nat.pos_iff_ne_zero.mp hfuel)
    simp [compactLoop, hnone]
  | succ n ih =>
    intro w h hn
    cases hhead : w.nextHead with
    | none =>
      refine ⟨w, fun fuel hfuel => ?_, h, hhead, List.Perm.refl _⟩
      obtain ⟨k, rfl⟩ := Nat.exists_eq_succ_of_ne_zero (Nat.ne_zero_of_lt hfuel)
      simp [compactLoop, hhead]
    | some head =>
      obtain ⟨w₁, hrun, hw₁, hrows, -, hlt⟩ := round_compacts h hhead
      obtain ⟨w', hloop, hw', hnone, hrows'⟩ := ih hw₁ (by omega)
      refine ⟨w', fun fuel hfuel => ?_, hw', hnone, hrows'.trans hrows⟩
      obtain ⟨k, rfl⟩ := Nat.exists_eq_succ_of_ne_zero (Nat.ne_zero_of_lt hfuel)
      simp only [compactLoop, hhead, hrun, Search.Outcome.bind_ok, if_true]
      exact hloop k (by omega)

/-- Compaction: every round leaves fewer segments, or as many with fewer dead rows; the loop ends,
and where it ends there are few. -/
theorem compact_ends (w : World) (h : w.OnDisk) :
    (∀ head, w.nextHead = some head → ∃ w', w.foldTo head true = .ok w' true ∧ w'.OnDisk ∧
      w'.liveRows.Perm w.liveRows ∧ w.Compacts w') ∧
    ∃ w', (∀ fuel, 2 * w.inner.segments.length < fuel → w.compactLoop fuel = .ok w' ()) ∧
      w'.OnDisk ∧ w'.nextHead = none ∧ w'.liveRows.Perm w.liveRows ∧ w'.Few := by
  constructor
  · intro head hhead
    obtain ⟨w', hrun, hw', hrows, hless, -⟩ := round_compacts h hhead
    exact ⟨w', hrun, hw', hrows, hless⟩
  · obtain ⟨w', hloop, hw', hnone, hrows⟩ := compactLoop_ends _ h (owed_le w)
    exact ⟨w', hloop, hw', hnone, hrows, few_of_nextHead hw' hnone⟩

/-- Three segments of one row. -/
def threeSegments : World where
  inner := { (empty []).inner with
    segments := [0, 1, 2].map fun n => .ofBytes n 0 (buildSorted [.file "/w/a"])
    nextSegment := 3 }
  building := (empty []).building
  buildFailed := 0
  disk := (empty []).disk

theorem threeSegments_onDisk : threeSegments.OnDisk where
  ok l hl := by
    obtain ⟨n, -, rfl⟩ := List.mem_map.mp hl
    exact Live.ofBytes_ok _ _ _
  rows l hl := by
    obtain ⟨n, -, rfl⟩ := List.mem_map.mp hl
    show 0 < (buildSorted _).seg.rows
    rw [buildSorted_rows]
    exact Nat.one_pos
  nodup := by decide
  fresh l hl := by
    obtain ⟨n, hn, rfl⟩ := List.mem_map.mp hl
    have : ∀ n ∈ [0, 1, 2], n < 3 := by decide
    exact this n hn
  opened := rfl
  seen _ := rfl
  unwritten := rfl
  unfailing := ⟨rfl, rfl⟩

theorem compact_ends_three :
    (∃ w', threeSegments.foldTo [0, 1] true = .ok w' true ∧ threeSegments.Compacts w') ∧
      ∃ w', threeSegments.compactLoop 7 = .ok w' () ∧ w'.Few := by
  obtain ⟨hround, w', hloop, -, -, -, hfew⟩ := compact_ends threeSegments threeSegments_onDisk
  obtain ⟨w₁, hrun, -, -, hless⟩ := hround [0, 1] (by decide +kernel)
  exact ⟨⟨w₁, hrun, hless⟩, w', hloop 7 (by decide), hfew⟩

end World

end Scour
