import Scour.StoredOrders
import Scour.WalkExact

/-!
# What a walk counts

Whichever way a walk goes over the rows, in whatever order and with whatever order file, it counts
every row it may show once, up to the cap (`counted_walk`).  A row counts before anything else
happens to it, and the walk only stops once the cap is met (`take_counted`).
-/

namespace Scour

namespace SegmentWalk

variable {P : Platform} {w : SegmentWalk P}

/-! ## One row -/

theorem visitBackwards_counted {s : Walked} (hgo : s.done = false) (row : Nat) :
    (w.visitBackwards s row).counted = s.counted ∧
      ((w.visitBackwards s row).done = true → w.want.countCap ≤ s.counted) := by
  unfold visitBackwards
  dsimp only
  by_cases hshort : s.kept.length < w.need
  · rw [if_pos hshort]
    exact ⟨rfl, fun h => by rw [hgo] at h; cases h⟩
  rw [if_neg hshort]
  by_cases hedge : s.edge = some (w.seg.mtime row)
  · rw [if_pos hedge]
    exact ⟨rfl, fun h => by rw [hgo] at h; cases h⟩
  rw [if_neg hedge]
  by_cases hcap : w.want.countCap ≤ s.counted
  · rw [if_pos hcap]
    exact ⟨rfl, fun _ => hcap⟩
  · rw [if_neg hcap]
    exact ⟨rfl, fun h => by rw [hgo] at h; cases h⟩

theorem visitStored_counted {s : Walked} (hgo : s.done = false) (row : Nat) :
    (w.visitStored s row).counted = s.counted ∧
      ((w.visitStored s row).done = true → w.want.countCap ≤ s.counted) := by
  have hkept : ∀ t : Walked, t = (if s.kept.length < w.need then
      { s with kept := s.kept ++ [row] } else s) → t.counted = s.counted ∧ t.done = false := by
    rintro t rfl
    split <;> exact ⟨rfl, hgo⟩
  unfold visitStored
  dsimp only
  generalize (if s.kept.length < w.need then
      { s with kept := s.kept ++ [row] } else s) = t at hkept
  obtain ⟨hcounted, hdone⟩ := hkept t rfl
  by_cases hstop : w.need ≤ t.kept.length ∧ w.want.countCap ≤ t.counted
  · rw [if_pos hstop]
    exact ⟨hcounted, fun _ => hcounted ▸ hstop.2⟩
  · rw [if_neg hstop]
    exact ⟨hcounted, fun h => by rw [hdone] at h; cases h⟩

theorem keep_counted (s : Walked) (entry : Keyed) :
    (w.keep s entry).counted = s.counted ∧ (w.keep s entry).done = s.done := by
  unfold SegmentWalk.keep
  dsimp only
  split
  · exact ⟨rfl, rfl⟩
  · split
    · exact ⟨rfl, rfl⟩
    · split
      · split <;> exact ⟨rfl, rfl⟩
      · exact ⟨rfl, rfl⟩

theorem visitKeyed_counted (s : Walked) (row : Nat) (name : Str) :
    (w.visitKeyed s row name).counted = s.counted ∧
      (w.visitKeyed s row name).done = s.done := by
  unfold visitKeyed
  dsimp only
  split
  · exact ⟨rfl, rfl⟩
  · split
    · exact ⟨rfl, rfl⟩
    · exact keep_counted _ _

/-- A row changes no count but its own, and stops the walk only at the cap. -/
theorem take_counted {s : Walked} (hgo : s.done = false) (row : Nat) (name : Str) :
    (w.take s row name).counted = s.counted ∧
      ((w.take s row name).done = true → w.want.countCap ≤ s.counted) := by
  unfold SegmentWalk.take
  split
  · exact visitBackwards_counted hgo row
  · split
    · exact visitStored_counted hgo row
    · split
      · obtain ⟨hcounted, hdone⟩ := visitKeyed_counted (w := w) s row name
        exact ⟨hcounted, fun h => by rw [hdone, hgo] at h; cases h⟩
      · split
        · rename_i hcap
          exact ⟨rfl, fun _ => hcap⟩
        · exact ⟨rfl, fun h => by rw [hgo] at h; cases h⟩

/-! ## All of them -/

/-- What a walk over `n` more rows it may show has counted. -/
structure Counts (w : SegmentWalk P) (s s' : Walked) (n : Nat) : Prop where
  le : s'.counted ≤ s.counted + n
  all : s'.done = false → s'.counted = s.counted + n
  cap : s'.done = true → w.want.countCap ≤ s'.counted

theorem counts_visitAll (name : Nat → Str) (rows : List Nat)
    (hshows : ∀ row ∈ rows, w.shows row (name row) = w.shown row) :
    ∀ s : Walked, s.done = false →
      Counts w s (w.visitAll name s rows) (rows.filter w.shown).length := by
  induction rows with
  | nil =>
    intro s hgo
    exact ⟨le_refl _, fun _ => rfl, fun h => by simp [visitAll, hgo] at h⟩
  | cons row rows ih =>
    intro s hgo
    have ih' := ih fun r hr => hshows r (List.mem_cons_of_mem _ hr)
    rw [visitAll_cons]
    unfold visit
    rw [hshows row List.mem_cons_self]
    by_cases hs : w.shown row = true
    · rw [if_pos hs, List.filter_cons_of_pos hs, List.length_cons]
      obtain ⟨hcounted, hcap⟩ :=
        take_counted (w := w) (s := { s with counted := s.counted + 1 }) hgo row (name row)
      dsimp only at hcounted hcap
      split
      · rename_i hdone
        refine ⟨by rw [hcounted]; omega, fun h => ?_, fun h => ?_⟩
        · rw [hdone] at h
          cases h
        · rw [hcounted]
          exact hcap h
      · rename_i hdone
        obtain ⟨hle, hall, hcap'⟩ := ih' _ (by simpa using hdone)
        rw [hcounted] at hle hall
        refine ⟨by omega, fun h => ?_, hcap'⟩
        rw [hall h]
        omega
    · rw [if_neg hs, List.filter_cons_of_neg hs, if_neg (by simp [hgo])]
      exact ih' s hgo

/-- A walk over rows among which everything that counts comes once counts it up to the cap. -/
theorem counted_visitAll (name : Nat → Str) {rows : List Nat}
    (hshows : ∀ row, w.shows row (name row) = w.shown row)
    (hrows : (rows.filter w.shown).Perm w.shownRows) :
    (w.visitAll name w.start rows).counted ≤ w.shownRows.length ∧
      min w.want.countCap w.shownRows.length ≤ (w.visitAll name w.start rows).counted := by
  obtain ⟨hle, hall, hcap⟩ := counts_visitAll name rows (fun row _ => hshows row) w.start rfl
  have hstart : w.start.counted = 0 := rfl
  rw [hrows.length_eq, hstart, Nat.zero_add] at hle hall
  refine ⟨hle, ?_⟩
  cases hd : (w.visitAll name w.start rows).done with
  | false =>
    rw [hall hd]
    exact Nat.min_le_right _ _
  | true => exact (Nat.min_le_left _ _).trans (hcap hd)

/-! ## Every way over the rows -/

/-- Read forwards or descending, a grouped order names every row once. -/
theorem groupedRows_perm {rows : Nat} {value : Nat → Str} :
    ((w.groupedRows (.build rows value)).filterMap id).Perm (List.range rows) := by
  unfold groupedRows
  rw [GroupedOrder.build_length]
  split
  · exact GroupedOrder.down_perm
  · have hread := read_forwards (@GroupedOrder.build_row_lt rows value)
    rw [GroupedOrder.build_length] at hread
    rw [hread]
    exact GroupedOrder.build_perm

/-- So does the path order. -/
theorem pathRows_perm (seg : Segment) :
    ((w.pathRows (.build seg)).filterMap id).Perm (List.range seg.rows) := by
  have hperm : (PathOrder.build seg).order.Perm (List.range seg.rows) :=
    List.perm_insertionSort _ _
  have hread := @read_forwards (PathOrder.build seg).order (by
    intro row hrow
    rw [hperm.length_eq, List.length_range]
    exact List.mem_range.mp (hperm.subset hrow))
  unfold pathRows
  dsimp only
  split
  · rw [List.filterMap_reverse, hread]
    exact (List.reverse_perm _).trans hperm
  · rw [hread]
    exact hperm

/-- A stream only takes an order that is there. -/
theorem isSome_of_streams {sort : SortKey} {α : Type} {order : Option α} {rows : α → Nat}
    (h : w.streams sort (order.map rows) = true) : order.isSome = true := by
  unfold streams at h
  simp only [Bool.and_eq_true, beq_iff_eq] at h
  cases order with
  | none => simp at h
  | some _ => rfl

/-- How a walk may have gone: through the positions of an order, best block first, or over the rows
as they lie. -/
inductive Went (w : SegmentWalk P) (s : Walked) : Prop
  | grouped (o : GroupedOrder) : w.textStream = true →
      (w.orders.norder = some o ∧ w.want.sort = .name ∨
        w.orders.eorder = some o ∧ w.want.sort = .ext) →
      w.stream w.start w.named (w.groupedRows o) = some s → Went w s
  | path (o : PathOrder) : w.pathStream = true → w.orders.porder = some o →
      w.stream w.start w.named (w.pathRows o) = some s → Went w s
  | best (c : Column) : sortField w.want.sort = some c → w.bounded = true →
      s = (w.bestFirst c).1 → Went w s
  | lying : w.positionStream = false → w.bounded = false → s = w.asTheyLie → Went w s

theorem went {s : Walked} {skipped : Bool} (h : w.walkRows = some (s, skipped)) : w.Went s := by
  have hsort : ∀ {sort : SortKey} {rows : Option Nat}, w.streams sort rows = true →
      w.want.sort = sort := by
    intro sort rows h
    unfold streams at h
    simp only [Bool.and_eq_true, beq_iff_eq] at h
    exact h.1.1.1.1
  unfold walkRows at h
  dsimp only at h
  cases hname : w.nameStream with
  | true =>
    obtain ⟨o, ho⟩ := Option.isSome_iff_exists.mp (isSome_of_streams hname)
    rw [hname, ho] at h
    simp only [Option.filter_some, if_true, Option.some_or] at h
    obtain ⟨s', hs', heq⟩ := Option.map_eq_some_iff.mp h
    cases heq
    exact .grouped o (by simp [textStream, hname]) (Or.inl ⟨ho, hsort hname⟩) hs'
  | false =>
    have hn : w.orders.norder.filter (fun _ => w.nameStream) = none := by
      rw [hname]
      cases w.orders.norder <;> rfl
    cases hext : w.extensionStream with
    | true =>
      obtain ⟨o, ho⟩ := Option.isSome_iff_exists.mp (isSome_of_streams hext)
      rw [hn, hext, ho] at h
      simp only [Option.filter_some, if_true, Option.none_or] at h
      obtain ⟨s', hs', heq⟩ := Option.map_eq_some_iff.mp h
      cases heq
      exact .grouped o (by simp [textStream, hext]) (Or.inr ⟨ho, hsort hext⟩) hs'
    | false =>
      have he : w.orders.eorder.filter (fun _ => w.extensionStream) = none := by
        rw [hext]
        cases w.orders.eorder <;> rfl
      rw [hn, he, Option.none_or] at h
      dsimp only at h
      cases hpath : w.pathStream with
      | true =>
        obtain ⟨o, ho⟩ := Option.isSome_iff_exists.mp (isSome_of_streams hpath)
        rw [hpath, ho] at h
        simp only [Option.filter_some, if_true] at h
        obtain ⟨s', hs', heq⟩ := Option.map_eq_some_iff.mp h
        cases heq
        exact .path o hpath ho hs'
      | false =>
        have hp : w.orders.porder.filter (fun _ => w.pathStream) = none := by
          rw [hpath]
          cases w.orders.porder <;> rfl
        have hposition : w.positionStream = false := by
          unfold positionStream textStream
          rw [hname, hext, hpath]
          rfl
        rw [hp] at h
        dsimp only at h
        cases hbounded : w.bounded with
        | true =>
          have hcol : (sortField w.want.sort).isSome = true := by
            unfold bounded at hbounded
            simp only [Bool.and_eq_true] at hbounded
            exact hbounded.2
          obtain ⟨c, hc⟩ := Option.isSome_iff_exists.mp hcol
          rw [hbounded, hc] at h
          simp only [Option.filter_some, if_true, Option.some.injEq] at h
          exact .best c hc hbounded (by rw [h])
        | false =>
          have hb : (sortField w.want.sort).filter (fun _ => w.bounded) = none := by
            rw [hbounded]
            cases sortField w.want.sort <;> rfl
          rw [hb] at h
          simp only [Option.some.injEq, Prod.mk.injEq] at h
          exact .lying hposition hbounded h.1.symm

/-- What a walk reads the rows of its segment from. -/
structure Sound (w : SegmentWalk P) : Prop where
  complete : w.Complete
  built : w.orders.Built w.seg
  rows : w.seg.seg.rows = w.seg.rows
  kinds : w.seg.rows ≤ w.seg.kinds.length
  folders : w.folders.Pairwise fun f g => f.1 < g.1

theorem shownRows_of_perm {rows : List Nat} (h : rows.Perm (List.range w.seg.rows)) :
    (rows.filter w.shown).Perm w.shownRows := h.filter _

/-- **A walk counts what it may show**, up to the cap. -/
theorem counted_walk (hw : w.Sound) {s : Walked} {skipped : Bool}
    (h : w.walkRows = some (s, skipped)) :
    s.counted ≤ w.shownRows.length ∧ min w.want.countCap w.shownRows.length ≤ s.counted := by
  cases went h with
  | grouped o _ ho hs =>
    have hbuild : ∃ value, o = .build w.seg.rows value := by
      rcases ho with ⟨ho, -⟩ | ⟨ho, -⟩
      · exact ⟨_, hw.built.norder o ho⟩
      · exact ⟨_, hw.built.eorder o ho⟩
    obtain ⟨value, rfl⟩ := hbuild
    rw [stream_eq _ _ _ rfl hs]
    exact counted_visitAll _ shows_streamName (shownRows_of_perm groupedRows_perm)
  | path o _ ho hs =>
    obtain rfl := hw.built.porder o ho
    rw [stream_eq _ _ _ rfl hs]
    refine counted_visitAll _ shows_streamName (shownRows_of_perm ?_)
    rw [← hw.rows]
    exact pathRows_perm _
  | best c hc hbounded hs =>
    unfold bounded at hbounded
    simp only [Bool.and_eq_true, Bool.not_eq_true', decide_eq_true_eq] at hbounded
    have hsorts := sorts_bestFirst hw.complete hc hw.folders hbounded.1.2 hbounded.1.1 hw.kinds
    rw [hs]
    exact ⟨hsorts.le, hsorts.cap⟩
  | lying _ _ hs =>
    rw [hs, asTheyLie_eq]
    refine counted_visitAll _ shows_name ?_
    split
    · rw [List.filter_reverse]
      exact (List.reverse_perm _).trans hw.complete.perm
    · exact hw.complete.perm

/-! ## What is found -/

/-- A walk with no limit on its tries answers. -/
theorem walkRows_some (hnamed : w.named = none) : ∃ r, w.walkRows = some r := by
  unfold walkRows
  rw [hnamed]
  dsimp only
  split
  · rename_i o _
    obtain ⟨s, hs⟩ := stream_unlimited (w := w) (w.groupedRows o) w.start
    exact ⟨_, by rw [hs]; rfl⟩
  · split
    · rename_i o _
      obtain ⟨s, hs⟩ := stream_unlimited (w := w) (w.pathRows o) w.start
      exact ⟨_, by rw [hs]; rfl⟩
    · split
      · exact ⟨_, rfl⟩
      · exact ⟨_, rfl⟩

theorem found_total (hw : w.Sound) {f : Found} (h : w.found = some f) :
    f.total = min w.shownRows.length w.want.countCap := by
  unfold found at h
  obtain ⟨⟨s, skipped⟩, hs, rfl⟩ := Option.map_eq_some_iff.mp h
  have hcounted := counted_walk hw hs
  dsimp only
  omega

end SegmentWalk

section
variable {P : Platform} {seg : View} {orders : Orders} {plan : Plan P} {want : Wanted}
  {conceals : Option (Nat → Str → Bool)} {folders : Folders}

/-- The walk that answers: with a number of tries, or with none set. -/
theorem runWith_found :
    ∃ f named, runWith seg orders plan want conceals folders = some f ∧
      SegmentWalk.found ⟨seg, orders, plan, want, conceals, folders, named⟩ = some f := by
  have hwalk : ∃ f, SegmentWalk.found ⟨seg, orders, plan, want, conceals, folders, none⟩ = some f := by
    obtain ⟨r, hr⟩ := SegmentWalk.walkRows_some
      (w := ⟨seg, orders, plan, want, conceals, folders, none⟩) rfl
    unfold SegmentWalk.found
    rw [hr]
    exact ⟨_, rfl⟩
  obtain ⟨f, hf⟩ := hwalk
  unfold runWith
  dsimp only
  split
  · generalize max (want.offset + want.limit) want.countCap * NAMED_STREAM_TRIES = tries
    cases hn : SegmentWalk.found ⟨seg, orders, plan, want, conceals, folders, some tries⟩ with
    | none => exact ⟨f, none, hf, hf⟩
    | some g => exact ⟨g, some tries, rfl, hn⟩
  · exact ⟨f, none, hf, hf⟩

end

end Scour
