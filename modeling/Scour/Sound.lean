import Scour.Staging
import Scour.Lib.WriteBuffer

/-!
# One row a path

`Sound` adds to `Ok` that no two rows, live, in the air or in a caller's hands, share a source and
a path, and that the position map finds every staged entry.  Here are the parts of the index that
keep it by themselves: threads finishing, builds taken in, the manifest and the bitmaps.
-/

namespace Scour

theorem perm_cons_filter_ne {α β : Type} [DecidableEq β] (f : α → β) {a : α} {l : List α}
    (ha : a ∈ l) (hnd : (l.map f).Nodup) : l.Perm (a :: l.filter fun x => f x ≠ f a) := by
  induction l with
  | nil => cases ha
  | cons b l ih =>
    obtain ⟨hb, hnd⟩ := List.nodup_cons.mp hnd
    by_cases hab : f b = f a
    · have hba : a = b := by
        rcases List.mem_cons.mp ha with h | h
        · exact h
        · exact absurd (hab ▸ List.mem_map_of_mem h) hb
      subst hba
      have : (a :: l).filter (fun x => f x ≠ f a) = l := by
        rw [List.filter_cons_of_neg (by simp), List.filter_eq_self]
        intro x hx
        simp only [ne_eq, decide_not, Bool.not_eq_true', decide_eq_false_iff_not]
        exact fun h => hb (h ▸ List.mem_map_of_mem hx)
      rw [this]
    · have ha' : a ∈ l := by
        rcases List.mem_cons.mp ha with rfl | h
        · exact absurd rfl hab
        · exact h
      rw [List.filter_cons_of_pos (by simpa using hab)]
      exact ((ih ha' hnd).cons b).trans (List.Perm.swap a b _)

/-- How closely a run is followed. -/
structure Care where
  once : Prop
  exactly : Prop
  once_of_exactly : exactly → once

/-- Only what holds whatever happens. -/
def Care.loosely : Care := ⟨False, False, id⟩

/-- That a path appears once. -/
def Care.uniquely : Care := ⟨True, False, False.elim⟩

/-- That the index stands for what was applied to it. -/
def Care.fully : Care := ⟨True, True, id⟩

/-- The rows of the builds that failed and have not been put back. -/
def failedRows (landed : List Landed) : List (List Entry) :=
  landed.filterMap fun
    | .built _ _ => none
    | .failed _ rows => some rows

namespace World

/-- The batches that left the buffer and may come back to it. -/
def batches (w : World) (hands : List Hand) : List (List Entry) :=
  w.building.jobs.map (·.rows) ++ failedRows w.building.landed ++ hands.map (·.2)

/-- The index as a table behind its buffer. -/
def buffer (w : World) (hands : List Hand) : Search.Buffered Key Entry where
  held := {e | e ∈ w.rows ++ hands.flatMap (·.2)}
  staged := {e | e ∈ w.inner.staged}
  hidden := {k | w.inner.hiddenPrefixes.covers k.2.bytes = true}

/-- A path appears `once`, and the buffer finds what it holds.  Of a run that is followed `exactly`
the index, outside a generation, stands for the table `V`. -/
structure Sound (w : World) (care : Care) (V : Set Entry) (hands : List Hand) : Prop
    extends w.Ok hands where
  unique : care.once → ((w.rows ++ hands.flatMap (·.2)).map Entry.key).Nodup
  slots : care.once → Slots w.inner.staged w.inner.stagedAt
  apart : care.once → ∀ rows ∈ w.batches hands, (rows.map Entry.digest).Nodup
  closed : care.exactly → w.inner.opened = none
  view : care.exactly → (w.buffer hands).view Entry.key = V

/-- Two worlds with the same buffer and the same pending removals. -/
structure Waits (w w' : World) : Prop where
  staged : w'.inner.staged = w.inner.staged
  stagedAt : w'.inner.stagedAt = w.inner.stagedAt
  hidden : w'.inner.hiddenPrefixes = w.inner.hiddenPrefixes
  opened : w'.inner.opened = w.inner.opened

theorem Same.waits {w w' : World} (h : w.Same w') : w.Waits w' :=
  ⟨h.staged, h.stagedAt, h.hidden, h.opened⟩

variable {care : Care} {V : Set Entry}

/-- The rows moved, and are the rows there were. -/
theorem Sound.of_perm {w w' : World} {hands hands' : List Hand} (h : w.Sound care V hands)
    (hok : w'.Ok hands') (hw : w.Waits w')
    (hrows : (w'.rows ++ hands'.flatMap (·.2)).Perm (w.rows ++ hands.flatMap (·.2)))
    (hapart : ∀ rows ∈ w'.batches hands', ∃ rows' ∈ w.batches hands, rows.Perm rows') :
    w'.Sound care V hands' where
  toOk := hok
  unique ho := (hrows.map _).nodup_iff.mpr (h.unique ho)
  slots := by rw [hw.staged, hw.stagedAt]; exact h.slots
  apart ho rows hr := by
    obtain ⟨rows', hr', hp⟩ := hapart rows hr
    exact (hp.map _).nodup_iff.mpr (h.apart ho rows' hr')
  closed hx := hw.opened.trans (h.closed hx)
  view hx := by
    rw [← h.view hx]
    congr 1
    unfold buffer
    simp only [hw.staged, hw.hidden, hrows.mem_iff]

theorem Same.sound {w w' : World} (h : w.Same w') {hands : List Hand}
    (hw : w.Sound care V hands) : w'.Sound care V hands :=
  hw.of_perm (h.ok hw.toOk) h.waits (by rw [h.rows]) fun rows hr => ⟨rows, by
    unfold batches at hr ⊢
    rwa [h.building] at hr, List.Perm.refl _⟩

end World

/-! ## A thread finishes -/

namespace Building

/-- The building after a job ends. -/
def landed' (b : Building) (n : Nat) (done : Landed) : Building :=
  { b with jobs := b.jobs.filter (·.number ≠ n), landed := b.landed ++ [done] }

theorem numbers_landed' (b : Building) (job : Job) (done : Landed) (hjob : job ∈ b.jobs)
    (hnd : (b.jobs.map Job.number).Nodup) (hdone : done.number = job.number) :
    (b.landed' job.number done).numbers.Perm b.numbers := by
  have hp := (perm_cons_filter_ne Job.number hjob hnd).map Job.number
  unfold numbers landed'
  simp only [List.map_append, List.map_cons, List.map_nil, hdone]
  rw [← List.append_assoc]
  refine List.perm_append_comm.trans ?_
  rw [List.singleton_append, ← List.cons_append]
  exact List.Perm.append_right _ hp.symm

theorem landed'_ok {b : Building} (hb : b.Ok) (job : Job) (done : Landed) (hjob : job ∈ b.jobs)
    (hnd : (b.jobs.map Job.number).Nodup)
    (hdone : done = .failed job.number job.rows ∨
      done = .built job.number (.ofBytes job.number job.generation (build job.rows))) :
    (b.landed' job.number done).Ok where
  jobs j hj := hb.jobs j (List.mem_of_mem_filter hj)
  landed n l hm := by
    rcases List.mem_append.mp hm with hm | hm
    · exact hb.landed n l hm
    · have hm := List.mem_singleton.mp hm
      rcases hdone with rfl | rfl
      · cases hm
      · cases hm
        obtain ⟨f, hf, hd⟩ := hb.jobs job hjob
        refine ⟨Live.ofBytes_ok _ _ _, rfl, f, hf, fun e he => hd e ?_⟩
        unfold build at he
        rw [Live.entries_ofBytes] at he
        exact (List.mem_insertionSort _).mp he
  failed n rows hm := by
    rcases List.mem_append.mp hm with hm | hm
    · exact hb.failed n rows hm
    · have hm := List.mem_singleton.mp hm
      rcases hdone with rfl | rfl
      · cases hm
        exact hb.jobs job hjob
      · cases hm
  flights f hf := by
    obtain ⟨h1, h2⟩ := hb.flights f hf
    refine ⟨h1, ((b.numbers_landed' job done hjob hnd ?_).mem_iff).mpr h2⟩
    rcases hdone with rfl | rfl <;> rfl

/-- A build that lands holds what it was going to hold; one that fails gives it back. -/
theorem airRows_landed' {b : Building} (job : Job) (done : Landed) (hjob : job ∈ b.jobs)
    (hnd : (b.jobs.map Job.number).Nodup)
    (hdone : done = .failed job.number job.rows ∨
      done = .built job.number (.ofBytes job.number job.generation (build job.rows))) :
    (b.landed' job.number done).airRows.Perm b.airRows := by
  have hp : b.airRows.Perm (b.landed.flatMap b.landedRows ++
      (b.jobRows job ++ (b.jobs.filter (·.number ≠ job.number)).flatMap b.jobRows)) :=
    List.Perm.append_left _
      (((perm_cons_filter_ne Job.number hjob hnd).flatMap_right b.jobRows).trans (List.Perm.refl _))
  have he : (b.landed' job.number done).airRows = (b.landed.flatMap b.landedRows ++
      b.landedRows done) ++ (b.jobs.filter (·.number ≠ job.number)).flatMap b.jobRows := by
    show ((b.landed ++ [done]).flatMap b.landedRows) ++ _ = _
    rw [List.flatMap_append]
    simp only [landed', List.flatMap_cons, List.flatMap_nil, List.append_nil]
    rfl
  have hrows : (b.landedRows done).Perm (b.jobRows job) := by
    rcases hdone with rfl | rfl
    · exact ((List.perm_insertionSort storedLe job.rows).symm).filter _
    · simp only [landedRows, jobRows, build, Live.entries_ofBytes]
      exact List.Perm.refl _
  rw [he, List.append_assoc]
  exact (List.Perm.append_left _ (hrows.append_right _)).trans hp.symm

end Building

namespace World

variable {care : Care} {V : Set Entry}

theorem landJob_cases (w : World) (job : Job) :
    ∃ disk done, w.landJob job =
      { w with disk, building := w.building.landed' job.number done } ∧
      (done = .failed job.number job.rows ∨
        done = .built job.number (.ofBytes job.number job.generation (build job.rows))) := by
  unfold landJob
  simp only
  cases h : (Live.write w.disk job.number job.generation (build job.rows)).2 with
  | none => exact ⟨_, _, rfl, Or.inl rfl⟩
  | some live =>
    have heq := Live.write_eq _ _ _ _ (Live.build_full _) _ h
    rw [Live.fromBytes_buildSorted] at heq
    exact ⟨_, _, rfl, Or.inr (by rw [← Option.some.inj heq]; rfl)⟩

theorem Ok.jobs_nodup {w : World} {hands : List Hand} (h : w.Ok hands) :
    (w.building.jobs.map Job.number).Nodup := by
  have := h.nodup
  unfold numbers Building.numbers at this
  exact ((List.nodup_append.mp (List.nodup_append.mp (List.nodup_append.mp this).1).2.1)).1

theorem landJob_sound {w : World} {hands : List Hand} (h : w.Sound care V hands) (job : Job)
    (hjob : job ∈ w.building.jobs) : (w.landJob job).Sound care V hands := by
  obtain ⟨disk, done, heq, hdone⟩ := w.landJob_cases job
  have hnum : done.number = job.number := by rcases hdone with rfl | rfl <;> rfl
  have hperm := Building.numbers_landed' w.building job done hjob h.jobs_nodup hnum
  have hb := Building.landed'_ok h.building job done hjob h.jobs_nodup hdone
  have hall : ∀ ws : List Nat, (w.inner.segments.map (·.number) ++
      (w.building.landed' job.number done).numbers ++ ws).Perm
        (w.inner.segments.map (·.number) ++ w.building.numbers ++ ws) := fun ws =>
    (hperm.append_left _).append_right ws
  rw [heq]
  refine h.of_perm ⟨h.segments, ?_, ?_, hb, h.clean⟩ ⟨rfl, rfl, rfl, rfl⟩ ?_ ?_
  · exact (hall _).nodup_iff.mpr h.nodup
  · exact fun n hn => h.fresh n ((hall _).mem_iff.mp hn)
  · exact ((Building.airRows_landed' job done hjob h.jobs_nodup hdone).append_left _).append_right _
  · intro rows hrows
    refine ⟨rows, ?_, List.Perm.refl _⟩
    simp only [batches, Building.landed', List.mem_append, List.mem_map] at hrows ⊢
    rcases hrows with (⟨j, hj, rfl⟩ | hr) | hr
    · exact Or.inl (Or.inl ⟨j, List.mem_of_mem_filter hj, rfl⟩)
    · unfold failedRows at hr
      rw [List.filterMap_append, List.mem_append] at hr
      rcases hr with hr | hr
      · exact Or.inl (Or.inr hr)
      · have : rows = job.rows := by
          rcases hdone with rfl | rfl
          · simpa using hr
          · simp at hr
        exact Or.inl (Or.inl ⟨job, hjob, this.symm⟩)
    · exact Or.inr hr

/-- What is left once they have finished: no jobs, and the same index. -/
theorem foldl_landJob_frame (jobs : List Job) :
    ∀ w : World, (jobs.foldl landJob w).inner = w.inner ∧
      (jobs.foldl landJob w).building.flights = w.building.flights ∧
      (jobs.foldl landJob w).building.jobs =
        w.building.jobs.filter fun j => !(jobs.map Job.number).contains j.number := by
  induction jobs with
  | nil => exact fun w => ⟨rfl, rfl, by simp⟩
  | cons job jobs ih =>
    intro w
    obtain ⟨disk, done, heq, -⟩ := w.landJob_cases job
    obtain ⟨h1, h2, h3⟩ := ih (w.landJob job)
    rw [List.foldl_cons, h1, h2, h3, heq]
    refine ⟨rfl, rfl, ?_⟩
    simp only [Building.landed', List.filter_filter, List.map_cons, List.contains_cons]
    apply List.filter_congr
    intro j _
    by_cases hj : j.number = job.number <;> simp [hj]

end World

/-! ## Builds are taken in -/

namespace Building

/-- The building once the build of `n` has been taken out of it. -/
def taken (b : Building) (n : Nat) (rest : List Landed) : Building :=
  { b with flights := b.flights.filter (·.number ≠ n), landed := rest }

theorem flight?_taken (b : Building) (n m : Nat) (rest : List Landed) (h : m ≠ n) :
    (b.taken n rest).flight? m = b.flight? m := by
  unfold flight? taken
  simp only [List.find?_filter]
  congr 1
  funext f
  by_cases hf : f.number = m
  · simp [hf, h]
  · simp [hf]

variable {b : Building} {d : Landed} {rest : List Landed} (hd : b.landed = d :: rest)
  (hnd : b.numbers.Nodup)
include hd

theorem numbers_taken : b.numbers.Perm (d.number :: (b.taken d.number rest).numbers) := by
  unfold numbers taken
  rw [hd]
  exact List.perm_middle

include hnd

theorem ne_of_mem_taken {m : Nat} (hm : m ∈ (b.taken d.number rest).numbers) : m ≠ d.number := by
  rintro rfl
  exact (List.nodup_cons.mp ((numbers_taken hd).nodup_iff.mp hnd)).1 hm

theorem taken_ok (hb : b.Ok) : (b.taken d.number rest).Ok where
  jobs j hj := by
    rw [flight?_taken]
    · exact hb.jobs j hj
    · exact ne_of_mem_taken hd hnd (List.mem_append_left _ (List.mem_map_of_mem hj))
  landed n l hm := by
    rw [flight?_taken]
    · exact hb.landed n l (by rw [hd]; exact List.mem_cons_of_mem _ hm)
    · exact ne_of_mem_taken hd hnd (List.mem_append_right _
        (List.mem_map.mpr ⟨_, hm, rfl⟩))
  failed n rows hm := by
    rw [flight?_taken]
    · exact hb.failed n rows (by rw [hd]; exact List.mem_cons_of_mem _ hm)
    · exact ne_of_mem_taken hd hnd (List.mem_append_right _
        (List.mem_map.mpr ⟨_, hm, rfl⟩))
  flights f hf := by
    obtain ⟨hf1, hf2⟩ := List.mem_filter.mp hf
    obtain ⟨h1, h2⟩ := hb.flights f hf1
    refine ⟨h1, ?_⟩
    rcases List.mem_cons.mp ((numbers_taken hd).mem_iff.mp h2) with h | h
    · simp [h] at hf2
    · exact h

theorem airRows_taken : b.airRows = b.landedRows d ++ (b.taken d.number rest).airRows := by
  unfold airRows
  rw [hd, List.flatMap_cons, List.append_assoc]
  congr 2
  · refine List.flatMap_congr fun x hx => ?_
    have hne : x.number ≠ d.number := ne_of_mem_taken hd hnd
      (List.mem_append_right _ (List.mem_map.mpr ⟨_, hx, rfl⟩))
    cases x with
    | failed n rows =>
      simp only [landedRows, flight?_taken b d.number n rest hne]
    | built n l =>
      simp only [landedRows, flight?_taken b d.number n rest hne]
  · refine List.flatMap_congr fun j hj => ?_
    simp only [jobRows]
    rw [flight?_taken]
    exact ne_of_mem_taken hd hnd (List.mem_append_left _ (List.mem_map_of_mem hj))

end Building

theorem survives_arrive {b : Building} (hb : b.Ok) {n : Nat} {l : Live} (hl : l.Ok) :
    (World.arrive (b.flight? n) l).entries.filter (survives (b.flight? n)) =
      l.entries.filter (survives (b.flight? n)) := by
  rw [entries_arrive _ (fun f hf => Building.flight?_ok hb hf) l hl, List.filter_filter]
  apply List.filter_congr
  intro e _
  exact Bool.and_self _

namespace World

variable {care : Care} {V : Set Entry}

theorem foldl_forget_clean (es : List Entry) :
    ∀ s : PrefixSet, s.Clean → (es.foldl (fun h e => h.forget e.path.bytes) s).Clean := by
  induction es with
  | nil => exact fun s hs => hs
  | cons e es ih => exact fun s hs => ih _ (hs.forget _)

theorem Ok.building_nodup {w : World} {hands : List Hand} (h : w.Ok hands) :
    w.building.numbers.Nodup :=
  (List.nodup_append.mp (List.nodup_append.mp h.nodup).1).2.1

/-- The index with other builds waiting. -/
def withLanded (w : World) (landed : List Landed) : World :=
  { w with building := { w.building with landed } }

theorem sortSegments_perm (segments : List Live) :
    (Inner.sortSegments segments).Perm segments := List.perm_insertionSort _ _

/-- The order of the list is nobody's business. -/
theorem sound_perm {w : World} {hands : List Hand} (segments : List Live)
    (hp : segments.Perm w.inner.segments) (h : w.Sound care V hands) :
    { w with inner := { w.inner with segments } }.Sound care V hands := by
  have hpn : ((segments.map (·.number) ++ w.building.numbers) ++ hands.map (·.1)).Perm
      ((w.inner.segments.map (·.number) ++ w.building.numbers) ++ hands.map (·.1)) :=
    ((hp.map _).append_right _).append_right _
  refine h.of_perm ⟨fun l hl => h.segments l (hp.mem_iff.mp hl), hpn.nodup_iff.mpr h.nodup,
    fun n hn => h.fresh n (hpn.mem_iff.mp hn), h.building, h.clean⟩ ⟨rfl, rfl, rfl, rfl⟩ ?_
    fun rows hr => ⟨rows, hr, List.Perm.refl _⟩
  exact ((hp.flatMap_right _).append_right _).append_right _

theorem collected_sound {w : World} {hands : List Hand} (h : w.Sound care V hands)
    (added failure : Bool) : (w.collected added failure).world.Sound care V hands := by
  unfold collected
  simp only
  split
  · have h1 := sound_perm _ (sortSegments_perm w.inner.segments) h
    have h2 := (saveMeta_same _).sound h1
    unfold Search.Outcome.bind
    split
    · exact h2
    · split <;> exact h2
  · split <;> exact h

/-- A build that landed well is in the list, with the kills recorded for it. -/
theorem takeBuilt_sound {w : World} {hands : List Hand} {number : Nat} {live : Live}
    {rest : List Landed} (hl : w.building.landed = .built number live :: rest)
    (h : w.Sound care V hands) (disk : Disk) :
    ({ w with
      disk
      building := w.building.taken number rest
      inner := { w.inner with
        nextSegment := max w.inner.nextSegment (number + 1)
        segments := w.inner.segments ++ [arrive (w.building.flight? number) live]
        metaDirty := true } } : World).Sound care V hands := by
  have hok := (h.building.landed number live (by rw [hl]; exact List.mem_cons_self))
  have hlater := arrive_later (w.building.flight? number) live hok.1
  have hb := Building.taken_ok hl h.building_nodup h.building
  have hnum : ((w.inner.segments.map (·.number) ++ [number]) ++
      (w.building.taken number rest).numbers ++ hands.map (·.1)).Perm
        (w.inner.segments.map (·.number) ++ w.building.numbers ++ hands.map (·.1)) := by
    refine List.Perm.append_right _ ?_
    rw [List.append_assoc]
    exact List.Perm.append_left _ (Building.numbers_taken hl).symm
  have hrows : w.rows.Perm ((w.liveRows ++ (arrive (w.building.flight? number) live).entries) ++
      (w.building.taken number rest).airRows) := by
    have ha := Building.airRows_taken hl h.building_nodup
    simp only [Building.landedRows, Landed.number] at ha
    unfold rows
    rw [ha, entries_arrive _ (fun f hf => Building.flight?_ok h.building hf) live hok.1,
      List.append_assoc]
  refine h.of_perm ⟨?_, ?_, ?_, hb, h.clean⟩ ⟨rfl, rfl, rfl, rfl⟩ ?_ ?_
  · intro l hm
    rcases List.mem_append.mp hm with hm | hm
    · exact h.segments l hm
    · rw [List.mem_singleton.mp hm]
      exact hlater.ok hok.1
  · unfold numbers
    simp only [List.map_append, List.map_cons, List.map_nil, hlater.number, hok.2.1]
    exact hnum.nodup_iff.mpr h.nodup
  · intro n hn
    unfold numbers at hn
    simp only [List.map_append, List.map_cons, List.map_nil, hlater.number, hok.2.1] at hn
    exact lt_of_lt_of_le (h.fresh n (hnum.mem_iff.mp hn)) (le_max_left _ _)
  · refine List.Perm.append_right _ (List.Perm.trans ?_ hrows.symm)
    simp [rows, liveRows]
  · intro rows hrows'
    refine ⟨rows, ?_, List.Perm.refl _⟩
    simp only [batches, Building.taken, List.mem_append] at hrows' ⊢
    rw [hl]
    simpa [failedRows] using hrows'

/-- Every member of the pending removals a restore leaves was one of those it merges. -/
theorem mem_restoredPrefixes {inner : Inner} {prefixes : PrefixSet} {m : Str}
    (hm : m ∈ (inner.restoredPrefixes prefixes).paths) :
    m ∈ prefixes.paths ∨ m ∈ inner.hiddenPrefixes.paths := by
  have hsub : ∀ (es : List Entry) (s : PrefixSet),
      m ∈ (es.foldl (fun h e => h.forget e.path.bytes) s).paths → m ∈ s.paths := by
    intro es
    induction es with
    | nil => exact fun _ h => h
    | cons e es ih => exact fun s h => ((s.mem_forget _ _).mp (ih _ h)).1
  have := hsub _ _ hm
  obtain ⟨q, hq, rfl⟩ := (reduce_spec _).1 m this
  rcases List.mem_append.mp hq with h | h
  · exact Or.inl (by rwa [prefixes.trimmed q h])
  · exact Or.inr (by rwa [inner.hiddenPrefixes.trimmed q h])

/-- Forgetting paths that are not pending in their own right uncovers nothing. -/
theorem covers_restoredPrefixes {inner : Inner}
    (h : ∀ e ∈ inner.staged, trimEnd e.path.bytes ∉ inner.hiddenPrefixes.paths) (x : Str) :
    (inner.restoredPrefixes .empty).covers x = inner.hiddenPrefixes.covers x := by
  have hfold : ∀ (es : List Entry) (s : PrefixSet),
      (∀ e ∈ es, trimEnd e.path.bytes ∉ s.paths) →
        (es.foldl (fun h e => h.forget e.path.bytes) s).covers x = s.covers x := by
    intro es
    induction es with
    | nil => exact fun _ _ => rfl
    | cons e es ih =>
      intro s hs
      have he := hs e List.mem_cons_self
      rw [List.foldl_cons, ih _ fun e' h' hm =>
        hs e' (List.mem_cons_of_mem _ h') ((s.mem_forget _ _).mp hm).1]
      rw [Bool.eq_iff_iff, PrefixSet.covers_forget, PrefixSet.covers_iff]
      constructor
      · rintro ⟨m, hm, -, hu⟩
        exact ⟨m, hm, hu⟩
      · rintro ⟨m, hm, hu⟩
        exact ⟨m, hm, fun heq => he (heq ▸ hm), hu⟩
  unfold Inner.restoredPrefixes
  rw [hfold]
  · rw [Bool.eq_iff_iff, PrefixSet.covers_extend, PrefixSet.covers_iff, PrefixSet.covers_iff]
    simp [PrefixSet.empty]
  · intro e he hm
    obtain ⟨q, hq, heq⟩ := (reduce_spec _).1 _ hm
    rcases List.mem_append.mp hq with hq | hq
    · cases hq
    · rw [inner.hiddenPrefixes.trimmed q hq] at heq
      exact h e he (heq ▸ hq)

/-- A build that failed gives its rows back to the buffer. -/
theorem takeFailed_sound {w : World} {hands : List Hand} {number : Nat} {rows : List Entry}
    {rest : List Landed} (hl : w.building.landed = .failed number rows :: rest)
    (h : w.Sound care V hands) (hd : care.once → Distinct (rows ++ w.inner.staged))
    (hx : care.exactly → (∀ e ∈ rows, survives (w.building.flight? number) e = true) ∧
      ∀ e ∈ w.inner.staged, trimEnd e.path.bytes ∉ w.inner.hiddenPrefixes.paths)
    (failed generation : Nat) :
    ({ w with building := w.building.taken number rest, buildFailed := failed }.restore
      ⟨some (number, generation, rows), [], .empty⟩ : World).Sound care V hands := by
  have hb := Building.taken_ok hl h.building_nodup h.building
  have hback := fun ho => Inner.restore_slots w.inner
    ⟨some (number, generation, rows), [], .empty⟩ number generation rows rfl (h.apart ho rows (by
      simp only [batches, List.mem_append]
      rw [hl]
      exact Or.inl (Or.inr (by simp [failedRows])))) (h.slots ho) (hd ho)
  have hnum := (Building.numbers_taken hl)
  have ha := Building.airRows_taken hl h.building_nodup
  simp only [Landed.number] at ha
  have hu := h.unique
  unfold World.rows at hu
  rw [ha] at hu
  unfold restore
  rw [Inner.restore_frame]
  refine ⟨⟨h.segments, ?_, ?_, hb, ?_⟩, fun ho => ?_, fun ho => (hback ho).1, fun ho => ?_, h.closed,
    fun hex => ?_⟩
  · have hsub : (w.inner.segments.map (·.number) ++ (w.building.taken number rest).numbers ++
        hands.map (·.1)).Subperm (w.numbers hands) := by
      refine (List.subperm_append_right _).mpr ((List.subperm_append_left _).mpr ?_)
      exact List.Subperm.trans (List.sublist_cons_self number _).subperm hnum.symm.subperm
    obtain ⟨l, hp, hs⟩ := hsub
    exact hp.nodup_iff.mp (h.nodup.sublist hs)
  · intro n hn
    refine h.fresh n ?_
    simp only [numbers, List.mem_append] at hn ⊢
    rcases hn with (hn | hn) | hn
    · exact Or.inl (Or.inl hn)
    · exact Or.inl (Or.inr (hnum.mem_iff.mpr (List.mem_cons_of_mem _ hn)))
    · exact Or.inr hn
  · exact foldl_forget_clean _ _ (PrefixSet.clean_empty.extend h.clean.trimmed)
  · refine (hu ho).sublist (List.Sublist.map _ (List.Sublist.append_right ?_ _))
    exact List.Sublist.append_left (List.sublist_append_right _ _) _
  · intro rs hrs
    refine h.apart ho rs ?_
    simp only [batches, Building.taken, List.mem_append] at hrs ⊢
    rw [hl]
    rcases hrs with (hrs | hrs) | hrs
    · exact Or.inl (Or.inl hrs)
    · refine Or.inl (Or.inr ?_)
      simp only [failedRows, List.filterMap_cons] at hrs ⊢
      exact List.mem_cons_of_mem _ hrs
    · exact Or.inr hrs
  · obtain ⟨hsurv, hforget⟩ := hx hex
    have hu := hu (care.once_of_exactly hex)
    have hmem := (hback (care.once_of_exactly hex)).2
    have hrows : w.building.landedRows (.failed number rows) = rows := by
      simp only [Building.landedRows, List.filter_eq_self]
      exact hsurv
    rw [hrows] at ha hu
    rw [← h.view hex]
    refine Search.Buffered.view_restore {e | e ∈ rows} (fun x => ?_) (fun x => ?_) (fun x _ => ?_)
      fun x hx s hs => ?_
    · simp only [buffer, World.rows, ha, Set.mem_ofPred_eq, List.mem_append]
      tauto
    · simp only [buffer, Set.mem_ofPred_eq]
      rw [hmem]
      simp only [List.mem_map, not_exists, not_and]
    · simp only [buffer, Set.mem_ofPred_eq]
      rw [← covers_restoredPrefixes hforget]
    · have hp : (w.liveRows ++ (rows ++ (w.building.taken number rest).airRows) ++
          hands.flatMap (·.2)).Perm (rows ++ (w.liveRows ++ (w.building.taken number rest).airRows ++
            hands.flatMap (·.2))) :=
        (List.Perm.append_right _ (List.perm_append_comm_assoc _ _ _)).trans
          (List.Perm.of_eq (List.append_assoc _ _ _))
      have hnd := (hp.map Entry.key).nodup_iff.mp hu
      rw [List.map_append] at hnd
      exact fun heq => (List.nodup_append.mp hnd).2.2 _ (List.mem_map_of_mem hs) _
        (List.mem_map_of_mem hx) heq

theorem withLanded_self {w : World} {landed : List Landed} (h : w.building.landed = landed) :
    w.withLanded landed = w := by
  subst h
  rfl

/-- A build whose bitmap could not be written waits as it is by now. -/
theorem arrived_sound {w : World} {hands : List Hand} {number : Nat} {live : Live}
    {rest : List Landed} (h : (w.withLanded (.built number live :: rest)).Sound care V hands) :
    (w.withLanded (.built number (arrive (w.building.flight? number) live) :: rest)).Sound
      care V hands := by
  have hok := h.building.landed number live List.mem_cons_self
  have hlater := arrive_later (w.building.flight? number) live hok.1
  refine h.of_perm ⟨h.segments, h.nodup, h.fresh, ⟨h.building.jobs, ?_, ?_, h.building.flights⟩,
    h.clean⟩ ⟨rfl, rfl, rfl, rfl⟩ ?_ fun rows hr => ⟨rows, hr, List.Perm.refl _⟩
  · intro n l hm
    rcases List.mem_cons.mp hm with heq | hm
    · cases heq
      refine ⟨hlater.ok hok.1, hlater.number.trans hok.2.1, ?_⟩
      obtain ⟨f, hf, hdig⟩ := hok.2.2
      exact ⟨f, hf, fun e he => hdig e (hlater.entries.subset he)⟩
    · exact h.building.landed n l (List.mem_cons_of_mem _ hm)
  · intro n rows hm
    rcases List.mem_cons.mp hm with heq | hm
    · cases heq
    · exact h.building.failed n rows (List.mem_cons_of_mem _ hm)
  · refine List.Perm.append_right _ (List.Perm.append_left _ (List.Perm.append_right _ ?_))
    show (List.flatMap _ (_ :: rest)).Perm (List.flatMap _ (_ :: rest))
    rw [List.flatMap_cons, List.flatMap_cons]
    refine List.Perm.append_right _ (List.Perm.of_eq ?_)
    exact survives_arrive h.building hok.1

/-- What is asked of the state before builds are taken in.  No digest of a batch that comes back
meets another staged path; of a run followed exactly, the batch is as it left, and no staged path is
itself among the pending removals. -/
structure Collects (care : Care) (w : World) : Prop where
  distinct : care.once → Distinct (w.inner.staged ++ (failedRows w.building.landed).flatten)
  whole : care.exactly → ∀ n rows, Landed.failed n rows ∈ w.building.landed →
    ∀ e ∈ rows, survives (w.building.flight? n) e = true
  apart : care.exactly → failedRows w.building.landed ≠ [] →
    ∀ e ∈ w.inner.staged ++ (failedRows w.building.landed).flatten,
      trimEnd e.path.bytes ∉ w.inner.hiddenPrefixes.paths

/-- The loop of `collect`. -/
theorem collectFrom_sound {hands : List Hand} (rest : List Landed) :
    ∀ (w : World) (added failure : Bool), w.building.landed = [] →
      (w.withLanded rest).Sound care V hands → Collects care (w.withLanded rest) →
      (w.collectFrom added failure rest).world.Sound care V hands := by
  induction rest with
  | nil =>
    intro w added failure hl h _
    rw [withLanded_self hl] at h
    exact collected_sound h added failure
  | cons d rest ih =>
    intro w added failure hl h hc
    have hne : ∀ x ∈ rest, x.number ≠ d.number := fun x hx =>
      Building.ne_of_mem_taken (b := (w.withLanded (d :: rest)).building) rfl h.building_nodup
        (List.mem_append_right _ (List.mem_map.mpr ⟨x, hx, rfl⟩))
    cases d with
    | built number live =>
      unfold collectFrom
      simp only
      generalize (if (List.find? (fun x => decide (x.number = number)) w.building.flights).any
          (fun f => !f.doomed.isEmpty || !f.gone.isEmpty) = true then
          w.disk.writeAlive number
            (arrive (List.find? (fun x => decide (x.number = number)) w.building.flights) live).alive
        else (w.disk, true)) = r
      split
      · have hland : ∀ inner : Inner, ({ w with
            disk := r.1
            building := { w.building with
              landed := w.building.landed ++ .built number (arrive
                (List.find? (fun x => decide (x.number = number)) w.building.flights) live) :: rest }
            inner } : World) = { w.withLanded (.built number
              (arrive (w.building.flight? number) live) :: rest) with disk := r.1, inner } := by
          intro inner
          rw [hl]
          rfl
        simp only [Search.Outcome.err]
        rw [hland]
        have h1 := (same_disk (w.withLanded _) r.1).sound (arrived_sound h)
        split
        · exact sound_perm (w := { w.withLanded (.built number
              (arrive (w.building.flight? number) live) :: rest) with disk := r.1 }) _
            (sortSegments_perm w.inner.segments) h1
        · exact h1
      · refine ih _ _ _ hl ?_ ⟨hc.distinct, fun hx n rows hm => ?_, hc.apart⟩
        · exact takeBuilt_sound (w := w.withLanded (.built number live :: rest)) rfl h r.1
        · show ∀ e ∈ rows, survives ((w.building.taken number rest).flight? n) e = true
          rw [Building.flight?_taken w.building number n rest (hne _ hm)]
          exact hc.whole hx n rows (List.mem_cons_of_mem _ hm)
    | failed number rows =>
      unfold collectFrom
      simp only
      have hsub : ∀ e ∈ rows ++ w.inner.staged,
          e ∈ w.inner.staged ++ (failedRows (.failed number rows :: rest)).flatten := fun e he => by
        simp only [failedRows, List.filterMap_cons, List.flatten_cons, List.mem_append] at he ⊢
        rcases he with he | he
        · exact Or.inr (Or.inl he)
        · exact Or.inl he
      have hnext : ∀ e ∈ (w.inner.restore ⟨some (number, w.inner.generation, rows), [], .empty⟩
          ).staged ++ (failedRows rest).flatten,
          e ∈ w.inner.staged ++ (failedRows (.failed number rows :: rest)).flatten := by
        intro e he
        rcases List.mem_append.mp he with he | he
        · rcases Inner.mem_restore_subset _ _ _ he with he | ⟨n, g, rs, heq, he⟩
          · exact List.mem_append_left _ he
          · cases heq
            exact hsub e (List.mem_append_left _ he)
        · refine List.mem_append_right _ ?_
          simp only [failedRows, List.filterMap_cons, List.flatten_cons, List.mem_append] at he ⊢
          exact Or.inr he
      have hapart := fun hx => hc.apart hx (by simp [withLanded, failedRows])
      refine ih _ _ _ hl ?_ ⟨fun ho => (hc.distinct ho).subset hnext, fun hx n rs hm => ?_, fun hx _ e he hm => ?_⟩
      · refine takeFailed_sound (w := w.withLanded (.failed number rows :: rest)) rfl h
          (fun ho => (hc.distinct ho).subset hsub) (fun hx => ⟨?_, fun e he => ?_⟩) _ _
        · exact hc.whole hx number rows List.mem_cons_self
        · exact hapart hx e (List.mem_append_left _ he)
      · show ∀ e ∈ rs, survives ((w.building.taken number rest).flight? n) e = true
        rw [Building.flight?_taken w.building number n rest (hne _ hm)]
        exact hc.whole hx n rs (List.mem_cons_of_mem _ hm)
      · -- what is pending after the restore was pending before it
        refine hapart hx e (hnext e he) ?_
        have hm' : trimEnd e.path.bytes ∈ (w.inner.restoredPrefixes .empty).paths := by
          have hframe := Inner.restore_frame w.inner
            ⟨some (number, w.inner.generation, rows), [], .empty⟩
          have : (w.inner.restore ⟨some (number, w.inner.generation, rows), [], .empty⟩
            ).hiddenPrefixes = w.inner.restoredPrefixes .empty := by rw [hframe]
          rw [← this]
          exact hm
        rcases mem_restoredPrefixes hm' with h | h
        · cases h
        · exact h

/-- Taking in the finished builds keeps one row a path. -/
theorem collect_sound {w : World} {hands : List Hand} (h : w.Sound care V hands)
    (hc : Collects care w) : w.collect.world.Sound care V hands := by
  unfold collect
  simp only
  split
  · exact h
  · exact collectFrom_sound _ _ _ _ rfl (by simpa [withLanded] using h) hc

theorem empty_sound (care : Care) (faults : List Bool) :
    (empty faults).Sound care ∅ [] where
  segments _ h := absurd h List.not_mem_nil
  nodup := List.nodup_nil
  fresh _ h := absurd h List.not_mem_nil
  building := ⟨fun _ h => absurd h List.not_mem_nil, fun _ _ h => absurd h List.not_mem_nil,
    fun _ _ h => absurd h List.not_mem_nil, fun _ h => absurd h List.not_mem_nil⟩
  clean := PrefixSet.clean_empty
  unique _ := List.nodup_nil
  slots _ := Slots.nil _
  apart _ _ h := absurd h List.not_mem_nil
  closed _ := rfl
  view _ := by
    simp [Search.Buffered.view, buffer, rows, liveRows, Building.airRows, empty, openInner]

end World

end Scour
