import Scour.Filed

/-!
# Each step keeps the directory true

The steps of `Filed`, one lemma each: rows that die leave their bitmap owed, a segment that goes
empty waits to be erased until the manifest has stopped naming it, a segment is written before it is
named, and a bitmap is owed until it is written.
-/

namespace Scour

theorem PrefixSet.isEmpty_extend {s : PrefixSet} (h : s.isEmpty = false) (paths : List Str) :
    (s.extend paths).isEmpty = false := by
  obtain ⟨m, hm⟩ := List.exists_mem_of_ne_nil s.paths fun hnil => by
    rw [(isEmpty_iff s).mpr hnil] at h
    cases h
  have hc := (covers_extend s paths m).mpr (Or.inl (covers_of_mem hm))
  cases he : (s.extend paths).isEmpty with
  | false => rfl
  | true =>
    rw [covers_of_isEmpty _ he] at hc
    cases hc

theorem late_bury (prefixes : PrefixSet) (flight : Option Flight) (h : late flight = true) :
    late (flight.map (Flight.bury prefixes)) = true := by
  cases flight with
  | none => cases h
  | some f =>
    simp only [late, Option.any_some, Bool.or_eq_true, Bool.not_eq_true'] at h
    simp only [late, Option.map_some, Option.any_some, Bool.or_eq_true, Bool.not_eq_true']
    exact h.imp id fun hg => PrefixSet.isEmpty_extend hg _

theorem late_condemn (wanted : List Live.Wanted) (flight : Option Flight) (h : late flight = true) :
    late (flight.map (Flight.condemn wanted)) = true := by
  cases flight with
  | none => cases h
  | some f =>
    simp only [late, Option.any_some, Bool.or_eq_true, Bool.not_eq_true'] at h
    simp only [late, Option.map_some, Option.any_some, Bool.or_eq_true, Bool.not_eq_true',
      Flight.condemn, List.isEmpty_eq_false_iff, ne_eq, List.append_eq_nil_iff, not_and] at h ⊢
    exact h.imp_left fun hd hnil => absurd hnil hd

namespace World

variable {Q : Segment → Prop} {w w' : World} {held : Option Held} {owed : List Nat}

/-! ## Rows that die -/

/-- Segments lose rows, and nothing else that is filed moves. -/
structure Kills (w w' : World) (f : Live → Live) : Prop where
  disk : w'.disk = w.disk
  segments : w'.inner.segments = w.inner.segments.map f
  later : ∀ l ∈ w.inner.segments, l.Later (f l)
  unwritten : w'.inner.unwritten = w.inner.unwritten
  pendingErase : w'.inner.pendingErase = w.inner.pendingErase
  metaDirty : w'.inner.metaDirty = false → w.inner.metaDirty = false
  nextSegment : w.inner.nextSegment ≤ w'.inner.nextSegment
  numbers : w'.building.numbers = w.building.numbers
  landed : w'.building.landed = w.building.landed
  late : ∀ n, late (w.building.flight? n) = true → late (w'.building.flight? n) = true

theorem Kills.map_number {f : Live → Live} (h : w.Kills w' f) :
    w'.inner.segments.map (·.number) = w.inner.segments.map (·.number) := by
  rw [h.segments, List.map_map]
  exact List.map_congr_left fun l hl => (h.later l hl).number

/-! ## Segments that go -/

/-- The numbers of the segments nothing is alive in. -/
def gone (w : World) : List Nat := w.inner.forgetEmpty.2

theorem mem_gone {l : Live} (hnd : (w.inner.segments.map (·.number)).Nodup)
    (hl : l ∈ w.inner.segments) :
    l.number ∈ w.gone ↔ (decide (0 < l.rows) && l.liveRows == 0) = true := by
  unfold gone Inner.forgetEmpty
  simp only [List.mem_map]
  constructor
  · rintro ⟨k, hk, heq⟩
    obtain ⟨hk, hempty⟩ := List.mem_filter.mp hk
    rwa [← number_eq hnd hk hl heq]
  · exact fun he => ⟨l, List.mem_filter.mpr ⟨hl, he⟩, rfl⟩

theorem mem_segments_emptied {l : Live} (hnd : (w.inner.segments.map (·.number)).Nodup) :
    l ∈ w.emptied.inner.segments ↔ l ∈ w.inner.segments ∧ l.number ∉ w.gone := by
  unfold emptied Inner.forgetEmpty
  simp only [List.mem_filter]
  exact and_congr_right fun hl => by rw [mem_gone hnd hl, Bool.not_eq_true', Bool.not_eq_true]

theorem mem_unwritten_emptied {n : Nat} :
    n ∈ w.emptied.inner.unwritten ↔ n ∈ w.inner.unwritten ∧ n ∉ w.gone := by
  show n ∈ List.filter _ _ ↔ _
  rw [List.mem_filter, Bool.not_eq_true', List.contains_eq_mem, decide_eq_false_iff_not]
  rfl

theorem mem_pendingErase_emptied {n : Nat} : n ∈ w.emptied.inner.pendingErase ↔
    n ∈ w.inner.pendingErase ∨ (n ∈ w.gone ∧ n ∉ w.inner.unwritten) := by
  show n ∈ _ ++ List.filter _ _ ↔ _
  rw [List.mem_append, List.mem_filter, Bool.not_eq_true', List.contains_eq_mem,
    decide_eq_false_iff_not]
  rfl

namespace Filed

/-- The bitmaps of the segments that lost rows are owed. -/
theorem kill (h : w.Filed Q none owed) (f : Live → Live) (hk : w.Kills w' f) {owed' : List Nat}
    (howed : ∀ l ∈ w.inner.segments,
      l.number ∈ w.inner.dirtyAlive ∨ l.number ∈ owed ∨ (f l).alive ≠ l.alive →
        l.number ∈ w'.inner.dirtyAlive ∨ l.number ∈ owed') : w'.Filed Q none owed' where
  current := by rw [hk.disk]; exact h.current
  past := by rw [hk.disk]; exact h.past
  named s hs := by
    rw [hk.disk] at hs
    rw [hk.pendingErase, hk.unwritten, hk.segments]
    refine (h.named s hs).imp_right ?_
    rintro ⟨l, hl, heq, hn⟩
    have hnum := (hk.later l hl).number
    exact ⟨f l, List.mem_map_of_mem hl, hnum.trans heq, by rw [hnum]; exact hn⟩
  erased n hn := by
    rw [hk.pendingErase] at hn
    obtain ⟨h1, h2⟩ := h.erased n hn
    refine ⟨lt_of_lt_of_le h1 hk.nextSegment, ?_⟩
    unfold World.numbers at h2 ⊢
    rw [hk.map_number, hk.numbers]
    exact h2
  unwritten n hn := by
    rw [hk.unwritten] at hn
    obtain ⟨l, hl, heq⟩ := h.unwritten n hn
    rw [hk.segments]
    exact ⟨f l, List.mem_map_of_mem hl, (hk.later l hl).number.trans heq⟩
  files l' hl' hn := by
    rw [hk.segments] at hl'
    obtain ⟨l, hl, rfl⟩ := List.mem_map.mp hl'
    have hlater := hk.later l hl
    rw [hk.unwritten, hlater.number] at hn
    rw [hk.disk, hlater.number, hlater.seg, hlater.length]
    obtain ⟨h1, h2⟩ := h.files l hl hn
    refine ⟨h1, ?_⟩
    by_cases halive : (f l).alive = l.alive
    · rcases h2 with hh | hd | ho
      · have hbytes : (f l).bytes = l.bytes := by
          unfold Live.bytes
          rw [hlater.seg, halive]
        exact Or.inl (hbytes ▸ hh)
      · exact Or.inr (howed l hl (Or.inl hd))
      · exact Or.inr (howed l hl (Or.inr (Or.inl ho)))
    · exact Or.inr (howed l hl (Or.inr (Or.inr halive)))
  landed n l hl := by
    rw [hk.landed] at hl
    rw [hk.disk]
    obtain ⟨h1, h2⟩ := h.landed n l hl
    exact ⟨h1, h2.imp_right (hk.late n)⟩
  written _ hw := by cases hw
  batch _ hw := by cases hw
  manifest hd := by
    rw [hk.disk]
    refine (h.manifest (hk.metaDirty hd)).trans (List.Perm.of_eq ?_)
    unfold Inner.manifest
    rw [hk.segments, hk.unwritten, List.filter_map, List.map_map]
    have hfilter : w.inner.segments.filter
        ((fun l => !w.inner.unwritten.contains l.number) ∘ f) =
          w.inner.segments.filter fun l => !w.inner.unwritten.contains l.number :=
      List.filter_congr fun l hl => by rw [Function.comp_apply, (hk.later l hl).number]
    rw [hfilter]
    refine List.map_congr_left fun l hl => ?_
    have hlater := hk.later l (List.mem_of_mem_filter hl)
    rw [Function.comp_apply, hlater.number, hlater.generation]

/-- Segments nothing is alive in wait to be erased. -/
theorem emptied (h : w.Filed Q held owed) (hw : w.Ok (Held.hand held))
    (hbare : ∀ p, held = some (.batch p) → p.alive = []) : w.emptied.Filed Q held owed := by
  have hnd := hw.segments_nodup
  have hwritten : ∀ l, l ∈ w.emptied.inner.segments → l.number ∉ w.emptied.inner.unwritten →
      l ∈ w.inner.segments ∧ l.number ∉ w.inner.unwritten := by
    intro l hl hn
    obtain ⟨hl, hg⟩ := (mem_segments_emptied hnd).mp hl
    exact ⟨hl, fun hm => hn (mem_unwritten_emptied.mpr ⟨hm, hg⟩)⟩
  refine ⟨h.current, h.past, fun s hs => ?_, fun n hn => ?_, fun n hn => ?_, fun l hl hn => ?_,
    h.landed, h.written, fun p hp a ha => ?_, fun hd => ?_⟩
  · rw [mem_pendingErase_emptied]
    rcases h.named s hs with hp | ⟨l, hl, heq, hn⟩
    · exact Or.inl (Or.inl hp)
    · by_cases hg : l.number ∈ w.gone
      · exact Or.inl (Or.inr ⟨heq ▸ hg, heq ▸ hn⟩)
      · exact Or.inr ⟨l, (mem_segments_emptied hnd).mpr ⟨hl, hg⟩, heq,
          fun hm => hn (mem_unwritten_emptied.mp hm).1⟩
  · have hsub : (w.emptied.numbers (Held.hand held)).Sublist (w.numbers (Held.hand held)) := by
      unfold World.numbers
      exact List.Sublist.append_right (List.Sublist.append_right
        (List.Sublist.map _ List.filter_sublist) _) _
    rcases mem_pendingErase_emptied.mp hn with hp | ⟨hg, -⟩
    · obtain ⟨h1, h2⟩ := h.erased n hp
      exact ⟨h1, fun hm => h2 (hsub.subset hm)⟩
    · obtain ⟨l, hl, rfl⟩ := List.mem_map.mp hg
      have hin : l.number ∈ w.inner.segments.map (·.number) :=
        List.mem_map_of_mem (List.mem_of_mem_filter hl)
      refine ⟨hw.fresh _ (List.mem_append_left _ (List.mem_append_left _ hin)), fun hm => ?_⟩
      have hnd' := hw.nodup
      unfold World.numbers at hm hnd'
      rw [List.append_assoc] at hm hnd'
      rcases List.mem_append.mp hm with hm | hm
      · obtain ⟨k, hk, heq⟩ := List.mem_map.mp hm
        exact ((mem_segments_emptied hnd).mp hk).2 (heq ▸ hg)
      · exact (List.nodup_append.mp hnd').2.2 _ hin _ hm rfl
  · obtain ⟨hm, hg⟩ := mem_unwritten_emptied.mp hn
    obtain ⟨l, hl, rfl⟩ := h.unwritten n hm
    exact ⟨l, (mem_segments_emptied hnd).mpr ⟨hl, hg⟩, rfl⟩
  · exact h.files l (hwritten l hl hn).1 (hwritten l hl hn).2
  · rw [hbare p hp] at ha
    cases ha
  · have hd : (w.inner.metaDirty ||
        !(w.gone.filter fun n => !w.inner.unwritten.contains n).isEmpty) = false := hd
    rw [Bool.or_eq_false_iff, Bool.not_eq_false', List.isEmpty_iff, List.filter_eq_nil_iff] at hd
    obtain ⟨hdirty, hnone⟩ := hd
    refine (h.manifest hdirty).trans (List.Perm.of_eq ?_)
    -- only segments that have no files are gone
    show List.map _ (List.filter _ _) = List.map _ (List.filter _ (List.filter _ _))
    rw [List.filter_filter]
    congr 1
    refine List.filter_congr fun l hl => ?_
    rw [Bool.eq_iff_iff, Bool.and_eq_true]
    have hgone := mem_gone hnd hl
    have hstays : (!w.emptied.inner.unwritten.contains l.number) = true ↔
        l.number ∉ w.inner.unwritten ∨ l.number ∈ w.gone := by
      rw [Bool.not_eq_true', List.contains_eq_mem, decide_eq_false_iff_not, mem_unwritten_emptied]
      tauto
    have hempty : (!(decide (0 < l.rows) && l.liveRows == 0)) = true ↔ l.number ∉ w.gone := by
      rw [hgone, Bool.not_eq_true', Bool.not_eq_true]
    have hkeeps : l.number ∈ w.gone → l.number ∈ w.inner.unwritten := fun hg => by
      simpa using hnone _ hg
    refine Iff.trans ?_ (and_congr hstays hempty).symm
    rw [Bool.not_eq_true', List.contains_eq_mem, decide_eq_false_iff_not]
    tauto

/-! ## What leaves with a flush -/

/-- What was owed is remembered as newer than its file. -/
theorem remember (h : w.Filed Q held owed) : ({ w with
    inner := { w.inner with dirtyAlive := w.inner.dirtyAlive ++ owed } } : World).Filed Q held [] :=
  { h with
    files := fun l hl hn => by
      obtain ⟨h1, h2⟩ := h.files l hl hn
      refine ⟨h1, h2.imp_right fun ho => Or.inl ?_⟩
      exact List.mem_append.mpr ho }

/-- The bitmaps that are newer than their files are lifted out. -/
theorem takeDirty (h : w.Filed Q held []) : ({ w with inner := w.inner.takeDirtyAlive.1 } : World).Filed
    Q held (w.inner.takeDirtyAlive.2.map (·.1)) :=
  { h with
    files := fun l hl hn => by
      obtain ⟨h1, h2⟩ := h.files l hl hn
      refine ⟨h1, h2.imp_right fun ho => Or.inr ?_⟩
      refine List.mem_map.mpr ⟨(l.number, l.alive), List.mem_map.mpr ⟨l, ?_, rfl⟩, rfl⟩
      refine List.mem_filter.mpr ⟨hl, ?_⟩
      have hn : l.number ∉ w.inner.unwritten := hn
      simpa [hn] using ho }

theorem bits_takeDirty (w : World) : w.Bits w.inner.takeDirtyAlive.2 := by
  intro a ha
  obtain ⟨l, hl, rfl⟩ := List.mem_map.mp ha
  obtain ⟨hl, hn⟩ := List.mem_filter.mp hl
  rw [Bool.and_eq_true] at hn
  exact ⟨l, hl, rfl, rfl, by simpa using hn.2⟩

/-- The call in progress takes a batch under a number of its own. -/
theorem take (h : w.Filed Q none owed) {p : Pending} (hfresh : ∀ x ∈ p.hand, w.inner.nextSegment ≤ x.1)
    (hbare : p.alive = []) : w.Filed Q (some (.batch p)) owed :=
  { h with
    erased := fun n hn => by
      obtain ⟨h1, h2⟩ := h.erased n hn
      refine ⟨h1, fun hm => ?_⟩
      unfold World.numbers at h2 hm
      rcases List.mem_append.mp hm with hm | hm
      · exact h2 (List.mem_append_left _ hm)
      · obtain ⟨x, hx, rfl⟩ := List.mem_map.mp hm
        exact absurd (hfresh x hx) (Nat.not_le_of_lt h1)
    written := fun _ hw => by cases hw
    batch := fun q hq => by
      cases hq
      rw [hbare]
      exact fun a ha => absurd ha List.not_mem_nil }

/-- The bitmaps the batch carries. -/
theorem carry {p : Pending} (h : w.Filed Q (some (.batch p)) owed) (p' : Pending)
    (hhand : p'.hand = p.hand) (hb : w.Bits p'.alive) : w.Filed Q (some (.batch p')) owed :=
  { h with
    erased := fun n hn => by
      show _ ∧ n ∉ w.numbers p'.hand
      rw [hhand]
      exact h.erased n hn
    written := fun _ hw => by cases hw
    batch := fun q hq => by
      cases hq
      exact hb }

/-- What was lifted out is put back: what its batch was going to write is owed again. -/
theorem restore (h : w.Filed Q held owed) {p : Pending} (hsub : owed ⊆ p.alive.map (·.1)) :
    (w.restore p).Filed Q none [] := by
  have hinner := Inner.restore_frame w.inner p
  unfold World.restore
  rw [hinner]
  refine ⟨h.current, h.past, h.named, h.drop.erased, h.unwritten, fun l hl hn => ?_, h.landed,
    fun _ hw => (by cases hw), fun _ hw => (by cases hw), h.manifest⟩
  obtain ⟨h1, h2⟩ := h.files l hl hn
  refine ⟨h1, h2.imp_right fun ho => Or.inl (List.mem_append.mpr (ho.imp_right fun ho => ?_))⟩
  refine List.mem_filter.mpr ⟨hsub ho, List.any_eq_true.mpr ⟨l, hl, by simp⟩⟩

/-- The staged rows are lifted out, under the next number. -/
theorem lift (h : w.Filed Q none owed) (hw : w.Ok []) (skip durable : Bool) (prefixes : PrefixSet) :
    let start := if skip then (w.inner, none) else w.inner.takeStaged durable
    let p : Pending := ⟨start.2, [], prefixes⟩
    ({ w with inner := start.1 } : World).Filed Q (some (.batch p)) owed ∧
      ({ w with inner := start.1 } : World).Ok p.hand := by
  have hnone : w.Filed Q (some (.batch ⟨none, [], prefixes⟩)) owed ∧ w.Ok [] :=
    ⟨h.take (fun x hx => absurd hx List.not_mem_nil) rfl, hw⟩
  cases skip with
  | true => exact hnone
  | false =>
    simp only [Bool.false_eq_true, if_false]
    unfold Inner.takeStaged
    split
    · exact hnone
    · have htake : w.Filed Q (some (.batch
          ⟨some (w.inner.nextSegment, w.inner.generation, w.inner.staged), [], prefixes⟩)) owed :=
        h.take (fun x hx => by rw [List.mem_singleton.mp hx]) rfl
      refine ⟨htake.still ⟨rfl, rfl, rfl, rfl, rfl, List.Subset.refl _, fun hd => ?_, Nat.le_succ _⟩,
        hw.segments, ?_, fun n hn => ?_, hw.building, hw.clean⟩
      · exact (Bool.or_eq_false_iff.mp hd).1
      · have hnd := hw.nodup
        have hfresh := hw.fresh
        unfold World.numbers at hnd hfresh ⊢
        rw [List.map_nil, List.append_nil] at hnd hfresh
        refine List.nodup_append.mpr ⟨hnd, List.nodup_singleton _, fun n hn m hm heq => ?_⟩
        have hlt := hfresh n hn
        rw [heq, List.mem_singleton.mp hm] at hlt
        exact absurd hlt (lt_irrefl _)
      · have hfresh := hw.fresh
        unfold World.numbers at hfresh hn
        rw [List.map_nil, List.append_nil] at hfresh
        show n < w.inner.nextSegment + 1
        rcases List.mem_append.mp hn with hn | hn
        · exact Nat.lt_succ_of_lt (hfresh n hn)
        · rw [List.mem_singleton.mp hn]
          exact Nat.lt_succ_self _

/-- A flush has lifted out what it takes. -/
theorem liftOut (h : w.Filed Q none owed) (hw : w.Ok []) (discretionary durable : Bool) :
    let r := w.inner.liftOut discretionary durable owed
    let alive := r.2.1.alive.filter fun p => !r.2.2.contains p.1
    ({ w with inner := r.1 } : World).Filed Q (some (.batch { r.2.1 with alive }))
      (alive.map (·.1)) := by
  have hlift := h.lift hw (discretionary && decide (w.inner.staged.length < MAX_STAGED)) durable
  unfold Inner.liftOut
  generalize (if (discretionary && decide (w.inner.staged.length < MAX_STAGED)) = true then
    (w.inner, none) else w.inner.takeStaged durable) = start at hlift
  obtain ⟨inner, staged⟩ := start
  obtain ⟨h1, hok⟩ := hlift inner.hiddenPrefixes
  -- no removal is pending any more, and the empty segments leave the list
  let taken := Inner.takeDirtyAlive { inner with dirtyAlive := inner.dirtyAlive ++ owed }
  let cleared : World := { w with inner := { taken.1 with hiddenPrefixes := .empty } }
  let alive := taken.2.filter fun p => !cleared.gone.contains p.1
  have hbits : World.Bits { w with inner := taken.1 } taken.2 :=
    bits_takeDirty { w with inner := { inner with dirtyAlive := inner.dirtyAlive ++ owed } }
  have hcleared : cleared.Filed Q (some (.batch ⟨staged, [], inner.hiddenPrefixes⟩))
      (taken.2.map (·.1)) :=
    h1.remember.takeDirty.still
      ⟨rfl, rfl, rfl, rfl, rfl, List.Subset.refl _, id, le_refl _⟩
  have hempty := hcleared.emptied
    ⟨hok.segments, hok.nodup, hok.fresh, hok.building, PrefixSet.clean_empty⟩
    (fun p hp => by cases hp; rfl)
  have hnd : (cleared.inner.segments.map (·.number)).Nodup := hok.segments_nodup
  show cleared.emptied.Filed Q (some (.batch ⟨staged, alive, inner.hiddenPrefixes⟩))
    (alive.map (·.1))
  refine (hempty.carry ⟨staged, alive, inner.hiddenPrefixes⟩ rfl fun a ha => ?_).owe
    fun l hl ho => ?_
  · obtain ⟨ha, hg⟩ := List.mem_filter.mp ha
    obtain ⟨l, hl, h5, h6, hn⟩ := hbits a ha
    have hg : l.number ∉ cleared.gone := by
      rw [h5]
      simpa using hg
    exact ⟨l, (mem_segments_emptied hnd).mpr ⟨hl, hg⟩, h5, h6,
      fun hm => hn (mem_unwritten_emptied.mp hm).1⟩
  · obtain ⟨a, ha, heq⟩ := List.mem_map.mp ho
    have hg := ((mem_segments_emptied hnd).mp hl).2
    rw [← heq] at hg
    exact List.mem_map.mpr ⟨a, List.mem_filter.mpr ⟨ha, by simpa using hg⟩, heq⟩

/-- The end of a flush. -/
theorem flushTake (h : w.Filed Q none owed) (hw : w.Ok []) (hq : w.Holds Q none)
    (discretionary durable : Bool) :
    (w.flushTake discretionary durable owed).Meets
      (fun w p => w.Filed Q (some (.batch p)) (p.alive.map (·.1))) fun w => w.Filed Q none [] := by
  obtain ⟨hseg, -⟩ := w.inner.liftOut_rest discretionary durable owed
  have hlifts : Lifts .loosely ∅ w discretionary [] := ⟨hw, fun h => h.elim, fun h => h.elim,
    fun h => h.elim, fun h => h.elim, fun h => h.elim, fun h => h.elim, fun h => h.elim,
    fun h => h.elim⟩
  have hlift := (liftOut_sound durable owed hlifts).1.toOk
  rw [List.append_nil] at hlift
  have hlifted := h.liftOut hw discretionary durable
  unfold World.flushTake
  generalize w.inner.liftOut discretionary durable owed = lifted at hseg hlift hlifted ⊢
  obtain ⟨inner, pending, gone⟩ := lifted
  simp only at hseg hlift hlifted ⊢
  have hqlifted : ({ w with inner } : World).Holds Q none := by
    refine hq.of_seg (fun l hl => ⟨l, ?_, rfl⟩) rfl
    change l ∈ inner.segments at hl
    rw [hseg] at hl
    exact List.mem_of_mem_filter hl
  have hsaved : (if (durable && inner.metaDirty) = true then ({ w with inner } : World).saveMeta
      else Search.Outcome.ok { w with inner } ()).world.Filed Q (some (.batch { pending with
        alive := pending.alive.filter fun p => !gone.contains p.1 }))
          ((pending.alive.filter fun p => !gone.contains p.1).map (·.1)) := by
    split
    · exact hlifted.saveMeta hlift (hqlifted.batch _)
    · exact hlifted
  generalize (if (durable && inner.metaDirty) = true then ({ w with inner } : World).saveMeta
    else Search.Outcome.ok { w with inner } ()) = saved at hsaved
  cases saved.val with
  | none =>
    exact (Search.Outcome.meets_err _ _ _).mpr
      (hsaved.restore fun n hn => (List.Sublist.map _ List.filter_sublist).subset hn)
  | some u => exact (Search.Outcome.meets_ok _ _ _ _).mpr hsaved

/-- Rows the pending removals hide die. -/
theorem killHidden (h : w.Filed Q none []) (hw : w.Ok []) :
    w.killHidden.1.Filed Q none w.killHidden.2 := by
  unfold World.killHidden
  simp only
  split
  · exact h
  · rename_i hnonempty
    let f (l : Live) : Live := (l.killHidden w.inner.hiddenPrefixes w.inner.sources).1
    have hnumbers : ∀ l ∈ w.inner.segments, (f l).alive ≠ l.alive →
        0 < (l.killHidden w.inner.hiddenPrefixes w.inner.sources).2 := by
      intro l hl hne
      refine Nat.pos_of_ne_zero fun h0 => hne ?_
      show (l.killHidden _ _).1.alive = _
      rw [Live.killHidden_eq_self l (hw.segments l hl) _ _ h0]
    refine h.kill f ?_ fun l hl ho => ?_
    · refine ⟨rfl, List.map_map, fun l hl => Live.killHidden_later l (hw.segments l hl) _ _, rfl, rfl,
        id, le_refl _, rfl, rfl, fun n hn => ?_⟩
      have hmap := Building.flight?_mapFlights (b := w.building)
        (g := Flight.bury w.inner.hiddenPrefixes) (fun _ => rfl) n
      show late ((w.building.mapFlights (Flight.bury w.inner.hiddenPrefixes)).flight? n) = true
      rw [hmap]
      exact late_bury _ _ hn
    · rcases ho with hd | ho | hne
      · exact Or.inl hd
      · cases ho
      · refine Or.inr (List.mem_map.mpr ⟨_, List.mem_filter.mpr ⟨List.mem_map_of_mem hl, ?_⟩, ?_⟩)
        · exact decide_eq_true (hnumbers l hl hne)
        · exact (Live.killHidden_later l (hw.segments l hl) _ _).number

/-- The rows that are written again die. -/
theorem killReplaced (h : w.Filed Q none owed) (hw : w.Ok []) :
    w.killReplaced.1.Filed Q none (owed ++ w.killReplaced.2) := by
  let f (l : Live) : Live := (l.killPaths (wantedOf w.inner.staged)).1
  have hnumbers : ∀ l ∈ w.inner.segments, (f l).alive ≠ l.alive →
      0 < (l.killPaths (wantedOf w.inner.staged)).2 := by
    intro l hl hne
    refine Nat.pos_of_ne_zero fun h0 => hne ?_
    show (l.killPaths _).1.alive = _
    rw [Live.killPaths_eq_self l (hw.segments l hl) _ h0]
  refine h.kill f ?_ fun l hl ho => ?_
  · refine ⟨rfl, List.map_map, fun l hl => Live.killPaths_later l (hw.segments l hl) _, rfl, rfl,
      id, le_refl _, rfl, rfl, fun n hn => ?_⟩
    have hmap := Building.flight?_mapFlights (b := w.building)
      (g := Flight.condemn (wantedOf w.inner.staged)) (fun _ => rfl) n
    show late ((w.building.mapFlights (Flight.condemn (wantedOf w.inner.staged))).flight? n) = true
    rw [hmap]
    exact late_condemn _ _ hn
  · rcases ho with hd | ho | hne
    · exact Or.inl hd
    · exact Or.inr (List.mem_append_left _ ho)
    · refine Or.inr (List.mem_append_right _ (List.mem_map.mpr
        ⟨_, List.mem_filter.mpr ⟨List.mem_map_of_mem hl, ?_⟩, ?_⟩))
      · exact decide_eq_true (hnumbers l hl hne)
      · exact (Live.killPaths_later l (hw.segments l hl) _).number

/-- A flush. -/
theorem flushStaged (h : w.Filed Q none []) (hw : w.Ok []) (hq : w.Holds Q none)
    (discretionary durable : Bool) :
    (w.flushStaged discretionary durable).Meets
      (fun w p => w.Filed Q (some (.batch p)) (p.alive.map (·.1))) fun w => w.Filed Q none [] := by
  have hdefault : ∀ {w : World}, w.Filed Q none [] →
      w.Filed Q (some (.batch .default)) (Pending.default.alive.map (·.1)) :=
    fun h => h.take (fun x hx => absurd hx List.not_mem_nil) rfl
  unfold World.flushStaged
  split
  · split
    · refine Search.Outcome.Meets.bind (Search.Outcome.Meets.of_world
        (I := fun w : World => w.Filed Q none []) (h.saveMeta hw hq)) fun w _ hw => ?_
      exact (Search.Outcome.meets_ok _ _ _ _).mpr (hdefault hw)
    · exact (Search.Outcome.meets_ok _ _ _ _).mpr (hdefault h)
  · obtain ⟨hok, -⟩ := killHidden_spec hw
    have hhidden := h.killHidden hw
    have hspared : ({ w.killHidden.1 with
        inner := w.killHidden.1.inner.spareUnchanged } : World).Filed Q none w.killHidden.2 := by
      rw [Inner.spareUnchanged_frame]
      exact hhidden.still ⟨rfl, rfl, rfl, rfl, rfl, List.Subset.refl _, id, le_refl _⟩
    have hokspared := spareUnchanged_ok hok
    have hqspared : ({ w.killHidden.1 with
        inner := w.killHidden.1.inner.spareUnchanged } : World).Holds Q none := by
      rw [Inner.spareUnchanged_frame]
      exact (hq.of_seg (killHidden_seg hw.segments) w.killHidden_building.2).of_eq rfl rfl
    obtain ⟨hokreplaced, -⟩ := killReplaced_spec hokspared
    exact (hspared.killReplaced hokspared).flushTake hokreplaced
      (hqspared.of_seg (killReplaced_seg hokspared.segments) rfl) _ _

/-! ## Segments that come -/

/-- The order of the list is nobody's business. -/
theorem perm (h : w.Filed Q held owed) {segments : List Live} (hp : segments.Perm w.inner.segments) :
    ({ w with inner := { w.inner with segments } } : World).Filed Q held owed where
  current := h.current
  past := h.past
  named s hs := (h.named s hs).imp_right fun ⟨l, hl, hn⟩ => ⟨l, hp.mem_iff.mpr hl, hn⟩
  erased n hn := by
    obtain ⟨h1, h2⟩ := h.erased n hn
    refine ⟨h1, fun hm => h2 ?_⟩
    unfold World.numbers at hm ⊢
    exact (((hp.map _).append_right _).append_right _).mem_iff.mp hm
  unwritten n hn := by
    obtain ⟨l, hl, heq⟩ := h.unwritten n hn
    exact ⟨l, hp.mem_iff.mpr hl, heq⟩
  files l hl hn := h.files l (hp.mem_iff.mp hl) hn
  landed := h.landed
  written := h.written
  batch p hb a ha := by
    obtain ⟨l, hl, hrest⟩ := h.batch p hb a ha
    exact ⟨l, hp.mem_iff.mpr hl, hrest⟩
  manifest hd := (h.manifest hd).trans ((hp.symm.filter _).map _)

/-- A segment whose files are there takes its place in the list. -/
theorem insert (h : w.Filed Q held owed) {live : Live}
    (hlive : w.disk.image.Holds live.number live.bytes) (hfresh : live.number ∉ w.inner.pendingErase)
    {segments : List Live} (hp : segments.Perm (w.inner.segments ++ [live])) {m : Nat}
    (hm : w.inner.nextSegment ≤ m) : ({ w with
      inner := { w.inner with nextSegment := m, segments, metaDirty := true } } : World).Filed Q none
        owed where
  current := h.current
  past := h.past
  named s hs := (h.named s hs).imp_right fun ⟨l, hl, hn⟩ =>
    ⟨l, hp.mem_iff.mpr (List.mem_append_left _ hl), hn⟩
  erased n hn := by
    obtain ⟨h1, h2⟩ := h.drop.erased n hn
    refine ⟨lt_of_lt_of_le h1 hm, fun hmem => ?_⟩
    unfold World.numbers at h2 hmem
    simp only [List.mem_append, (hp.map _).mem_iff, List.map_append, List.map_cons, List.map_nil,
      List.mem_singleton] at h2 hmem
    rcases hmem with ((hmem | rfl) | hmem) | hmem
    · exact h2 (Or.inl (Or.inl hmem))
    · exact hfresh hn
    · exact h2 (Or.inl (Or.inr hmem))
    · exact h2 (Or.inr hmem)
  unwritten n hn := by
    obtain ⟨l, hl, heq⟩ := h.unwritten n hn
    exact ⟨l, hp.mem_iff.mpr (List.mem_append_left _ hl), heq⟩
  files l hl hn := by
    rcases List.mem_append.mp (hp.mem_iff.mp hl) with hl | hl
    · exact h.files l hl hn
    · rw [List.mem_singleton.mp hl]
      exact ⟨⟨live.alive, rfl, hlive⟩, Or.inl hlive⟩
  landed := h.landed
  written _ hw := by cases hw
  batch _ hw := by cases hw
  manifest hd := by cases hd

/-- A segment that has no files yet takes its place in the list. -/
theorem insertUnwritten (h : w.Filed Q held owed) {live : Live}
    (hfresh : live.number ∉ w.inner.pendingErase)
    (hseg : live.number ∉ w.inner.segments.map (·.number)) {segments : List Live}
    (hp : segments.Perm (w.inner.segments ++ [live])) {m : Nat} (hm : w.inner.nextSegment ≤ m) :
    ({ w with inner := { w.inner with
      nextSegment := m, segments, unwritten := w.inner.unwritten ++ [live.number] } } : World).Filed
        Q none owed where
  current := h.current
  past := h.past
  named s hs := by
    refine (h.named s hs).imp_right fun ⟨l, hl, heq, hn⟩ =>
      ⟨l, hp.mem_iff.mpr (List.mem_append_left _ hl), heq, fun hmem => ?_⟩
    rcases List.mem_append.mp hmem with hmem | hmem
    · exact hn hmem
    · exact hseg (List.mem_singleton.mp hmem ▸ List.mem_map_of_mem hl)
  erased n hn := by
    obtain ⟨h1, h2⟩ := h.drop.erased n hn
    refine ⟨lt_of_lt_of_le h1 hm, fun hmem => ?_⟩
    unfold World.numbers at h2 hmem
    simp only [List.mem_append, (hp.map _).mem_iff, List.map_append, List.map_cons, List.map_nil,
      List.mem_singleton] at h2 hmem
    rcases hmem with ((hmem | rfl) | hmem) | hmem
    · exact h2 (Or.inl (Or.inl hmem))
    · exact hfresh hn
    · exact h2 (Or.inl (Or.inr hmem))
    · exact h2 (Or.inr hmem)
  unwritten n hn := by
    rcases List.mem_append.mp hn with hn | hn
    · obtain ⟨l, hl, heq⟩ := h.unwritten n hn
      exact ⟨l, hp.mem_iff.mpr (List.mem_append_left _ hl), heq⟩
    · exact ⟨live, hp.mem_iff.mpr (List.mem_append_right _ (List.mem_singleton_self _)),
        (List.mem_singleton.mp hn).symm⟩
  files l hl hn := by
    rcases List.mem_append.mp (hp.mem_iff.mp hl) with hl | hl
    · exact h.files l hl fun hm => hn (List.mem_append_left _ hm)
    · exact absurd (List.mem_append_right _ (List.mem_singleton.mpr
        (congrArg Live.number (List.mem_singleton.mp hl)))) hn
  landed := h.landed
  written _ hw := by cases hw
  batch _ hw := by cases hw
  manifest hd := by
    refine (h.manifest hd).trans ?_
    show List.Perm (List.map _ _) (List.map _ (List.filter _ segments))
    refine List.Perm.map _ (List.Perm.trans ?_ (hp.symm.filter _))
    rw [List.filter_append]
    refine List.Perm.of_eq ?_
    have hlast : [live].filter (fun l => !(w.inner.unwritten ++ [live.number]).contains l.number) =
        [] := by simp
    rw [hlast, List.append_nil]
    refine List.filter_congr fun l hl => ?_
    have hne : l.number ≠ live.number := fun heq => hseg (heq ▸ List.mem_map_of_mem hl)
    simp [hne]

end Filed

end World

end Scour
