import Scour.FiledSteps

/-!
# Builds, folds and sweeps keep the directory true

The steps of `Filed` that write segments: a build lands, the finished builds are taken in, a batch is
written, a fold puts one segment in the place of several, a segment kept in memory gets its files.
-/

namespace Scour

/-- A bitmap that cannot be written leaves the old one. -/
theorem Disk.writeAlive_image (d : Disk) (number : Nat) (bits : List Bool) :
    ((d.writeAlive number bits).2 = false ∧ (d.writeAlive number bits).1.image = d.image ∧
        (d.writeAlive number bits).1.past = d.past) ∨
      ((d.writeAlive number bits).2 = true ∧
        (d.writeAlive number bits).1.image = d.image.setFile number .alive (.bits bits)) := by
  unfold Disk.writeAlive
  simp only
  split
  · exact Or.inl ⟨rfl, Disk.fault_image d, Disk.fault_past d⟩
  · refine Or.inr ⟨rfl, ?_⟩
    unfold Disk.step
    rw [Disk.fault_image]

theorem World.arrive_of_not_late {flight : Option Flight} (h : late flight = false) (live : Live) :
    arrive flight live = live := by
  unfold arrive
  cases flight with
  | none => rfl
  | some f =>
    simp only [late, Option.any_some, Bool.or_eq_false_iff, Bool.not_eq_false'] at h
    simp [h.1, h.2]

namespace World

variable {Q : Segment → Prop} {w w' : World} {held : Option Held} {owed : List Nat}

/-- What is asked of an index that is followed loosely. -/
theorem Ok.loosely {hands : List Hand} (h : w.Ok hands) (V : Set Entry) :
    w.Sound .loosely V hands :=
  ⟨h, fun h => h.elim, fun h => h.elim, fun h => h.elim, fun h => h.elim, fun h => h.elim⟩

/-- A number in use by a build is not that of a segment. -/
theorem Ok.not_mem_segments {hands : List Hand} (h : w.Ok hands) {n : Nat}
    (hn : n ∈ w.building.numbers) : n ∉ w.inner.segments.map (·.number) := by
  have hnd := h.nodup
  unfold World.numbers at hnd
  intro hm
  exact (List.nodup_append.mp (List.nodup_append.mp hnd).1).2.2 n hm n hn rfl

/-- The bitmap of a build that lands is written again where something is recorded for it. -/
theorem writeLate (flight : Option Flight) (live : Live) (d : Disk) (number : Nat) {r : Disk × Bool}
    (hr : (if late flight = true then d.writeAlive number (arrive flight live).alive
      else (d, true)) = r) :
    (r.2 = false ∧ late flight = true ∧ r.1.image = d.image ∧ r.1.past = d.past) ∨
      (r.2 = true ∧ ((late flight = false ∧ r.1 = d) ∨
        (late flight = true ∧ r.1 = (d.writeAlive number (arrive flight live).alive).1 ∧
          r.1.image = d.image.setFile number .alive (.bits (arrive flight live).alive)))) := by
  subst hr
  cases hlate : late flight with
  | false => exact Or.inr ⟨rfl, Or.inl ⟨rfl, rfl⟩⟩
  | true =>
    rw [if_pos rfl]
    rcases d.writeAlive_image number (arrive flight live).alive with ⟨h1, h2, h3⟩ | ⟨h1, h2⟩
    · exact Or.inl ⟨h1, rfl, h2, h3⟩
    · exact Or.inr ⟨h1, Or.inr ⟨rfl, rfl, h2⟩⟩

namespace Filed

/-- A number in use does not wait to be erased. -/
theorem not_mem_pendingErase (h : w.Filed Q held owed) {n : Nat}
    (hn : n ∈ w.numbers (Held.hand held)) : n ∉ w.inner.pendingErase := fun hm => (h.erased n hm).2 hn

/-! ## Builds on other threads -/

/-- The thread of a job finishes. -/
theorem landJob (h : w.Filed Q none owed) (hw : w.Ok []) {job : Job} (hjob : job ∈ w.building.jobs) :
    (w.landJob job).Filed Q none owed := by
  have hin : job.number ∈ w.building.numbers :=
    List.mem_append_left _ (List.mem_map.mpr ⟨job, hjob, rfl⟩)
  have hseg := hw.not_mem_segments hin
  have hlanded : ∀ l, Landed.built job.number l ∉ w.building.landed := fun l hl =>
    (List.nodup_append.mp hw.building_nodup).2.2 _ (List.mem_map.mpr ⟨job, hjob, rfl⟩) _
      (List.mem_map.mpr ⟨_, hl, rfl⟩) rfl
  have herase : job.number ∉ w.inner.pendingErase := h.not_mem_pendingErase (by
    unfold World.numbers
    exact List.mem_append_left _ (List.mem_append_right _ hin))
  have hdisk := h.disk (Live.write_only w.disk job.number job.generation (build job.rows))
    (h.current.write _ _ _) (fun l hl heq => absurd (List.mem_map.mpr ⟨l, hl, heq⟩) hseg) hlanded
    (fun _ hlive => by cases hlive) herase
  unfold World.landJob
  simp only
  have hnumbers : ∀ done : Landed, done.number = job.number →
      (w.building.landed' job.number done).numbers.Perm w.building.numbers :=
    fun done hd => Building.numbers_landed' w.building job done hjob hw.jobs_nodup hd
  have herased : ∀ done : Landed, done.number = job.number → ∀ n ∈ w.inner.pendingErase,
      n < w.inner.nextSegment ∧
        n ∉ ({ w with building := w.building.landed' job.number done } : World).numbers [] := by
    intro done hd n hn
    obtain ⟨h1, h2⟩ := h.erased n hn
    refine ⟨h1, fun hm => h2 ?_⟩
    unfold World.numbers
    exact (((hnumbers done hd).append_left _).append_right _).mem_iff.mp hm
  cases hwrite : (Live.write w.disk job.number job.generation (build job.rows)).2 with
  | none =>
    exact { hdisk with
      erased := herased _ rfl
      landed := fun n l hl => by
        rcases List.mem_append.mp hl with hl | hl
        · exact hdisk.landed n l hl
        · cases List.mem_singleton.mp hl
      written := fun _ hw => by cases hw
      batch := fun _ hw => by cases hw }
  | some live =>
    have hholds := Live.write_holds _ _ _ _ _ hwrite
    have heq := Live.write_eq _ _ _ _ (Live.build_full _) _ hwrite
    rw [Live.fromBytes_buildSorted] at heq
    cases heq
    exact { hdisk with
      erased := herased _ rfl
      landed := fun n l hl => by
        rcases List.mem_append.mp hl with hl | hl
        · exact hdisk.landed n l hl
        · cases List.mem_singleton.mp hl
          exact ⟨⟨_, rfl, hholds⟩, Or.inl hholds⟩
      written := fun _ hw => by cases hw
      batch := fun _ hw => by cases hw }

/-- A build is taken out of the air. -/
theorem taken {d : Landed} {rest : List Landed} (h : (w.withLanded (d :: rest)).Filed Q none owed)
    (hnd : (w.withLanded (d :: rest)).building.numbers.Nodup) :
    ({ w with building := w.building.taken d.number rest } : World).Filed Q none owed :=
  { h with
    erased := fun n hn => by
      obtain ⟨h1, h2⟩ := h.erased n hn
      refine ⟨h1, fun hm => h2 ?_⟩
      have hp := Building.numbers_taken (b := (w.withLanded (d :: rest)).building) (d := d)
        rfl
      unfold World.numbers at hm ⊢
      simp only [List.mem_append] at hm ⊢
      exact hm.imp_left (Or.imp_right fun hm => hp.mem_iff.mpr (List.mem_cons_of_mem _ hm))
    landed := fun n l hl => by
      obtain ⟨h1, h2⟩ := h.landed n l (List.mem_cons_of_mem _ hl)
      have hne : n ≠ d.number := Building.ne_of_mem_taken
        (b := (w.withLanded (d :: rest)).building) (d := d) rfl hnd
          (List.mem_append_right _ (List.mem_map.mpr ⟨_, hl, rfl⟩))
      refine ⟨h1, h2.imp_right fun hlate => ?_⟩
      rw [← hlate]
      exact congrArg late (Building.flight?_taken w.building d.number n rest hne)
    written := fun _ hw => by cases hw
    batch := fun _ hw => by cases hw }

/-! ## The finished builds are taken in -/

theorem collected (h : w.Filed Q none owed) (hw : w.Ok []) (hq : w.Holds Q none)
    (added failure : Bool) : (w.collected added failure).world.Filed Q none owed := by
  unfold World.collected
  simp only
  split
  · have hp := sortSegments_perm w.inner.segments
    have hsorted := h.perm hp
    have hok : ({ w with inner := { w.inner with
        segments := Inner.sortSegments w.inner.segments } } : World).Ok [] :=
      (sound_perm _ hp (hw.loosely ∅)).toOk
    have hqsorted : ({ w with inner := { w.inner with
        segments := Inner.sortSegments w.inner.segments } } : World).Holds Q none :=
      hq.of_seg (fun l hl => ⟨l, hp.mem_iff.mp hl, rfl⟩) rfl
    have hsaved := hsorted.saveMeta hok hqsorted
    unfold Search.Outcome.bind
    split
    · exact hsaved
    · split <;> exact hsaved
  · split <;> exact h

/-- A build whose bitmap could not be written waits as it is by now. -/
theorem arrived {number : Nat} {live : Live} {rest : List Landed}
    (h : (w.withLanded (.built number live :: rest)).Filed Q none owed) (hlive : live.Ok)
    (hlate : late (w.building.flight? number) = true) :
    (w.withLanded (.built number (arrive (w.building.flight? number) live) :: rest)).Filed Q none
      owed :=
  { h with
    landed := fun n l hl => by
      rcases List.mem_cons.mp hl with heq | hl
      · cases heq
        have hlater := arrive_later (w.building.flight? number) live hlive
        rw [hlater.seg, hlater.length]
        exact ⟨(h.landed number live List.mem_cons_self).1, Or.inr hlate⟩
      · exact h.landed n l (List.mem_cons_of_mem _ hl)
    written := fun _ hw => by cases hw
    batch := fun _ hw => by cases hw }

/-- A build that landed well takes its place in the list, the kills recorded for it done. -/
theorem takeBuilt {number : Nat} {live : Live} {rest : List Landed}
    (h : (w.withLanded (.built number live :: rest)).Filed Q none owed)
    (hw : (w.withLanded (.built number live :: rest)).Ok []) {d : Disk}
    (hd : (late (w.building.flight? number) = false ∧ d = w.disk) ∨
      (late (w.building.flight? number) = true ∧
        d = (w.disk.writeAlive number (arrive (w.building.flight? number) live).alive).1 ∧
        d.image = w.disk.image.setFile number .alive
          (.bits (arrive (w.building.flight? number) live).alive))) :
    ({ w with
      disk := d
      building := w.building.taken number rest
      inner := { w.inner with
        nextSegment := max w.inner.nextSegment (number + 1)
        segments := w.inner.segments ++ [arrive (w.building.flight? number) live]
        metaDirty := true } } : World).Filed Q none owed := by
  obtain ⟨hlive, hnum, -⟩ := hw.building.landed number live List.mem_cons_self
  have hlater := arrive_later (w.building.flight? number) live hlive
  have hnd := hw.building_nodup
  have htaken := h.taken hnd
  have hin : number ∈ (w.withLanded (.built number live :: rest)).building.numbers :=
    List.mem_append_right _ List.mem_cons_self
  have hseg : number ∉ w.inner.segments.map (·.number) := hw.not_mem_segments hin
  have herase : number ∉ w.inner.pendingErase := h.not_mem_pendingErase (by
    unfold World.numbers
    exact List.mem_append_left _ (List.mem_append_right _ hin))
  obtain ⟨hkeeps, hholds⟩ := h.landed number live List.mem_cons_self
  rcases hd with ⟨hlate, rfl⟩ | ⟨hlate, rfl, himage⟩
  · have harrive := arrive_of_not_late hlate live
    have hholds := hholds.resolve_right fun hl => by
      change late (w.building.flight? number) = true at hl
      rw [hlate] at hl
      cases hl
    rw [harrive]
    refine htaken.insert ?_ ?_ (List.Perm.refl _) (le_max_left _ _)
    · rw [hnum]
      exact hholds
    · rw [hnum]
      exact herase
  · have hdisk := htaken.disk
      (Disk.writeAlive_only w.disk number (arrive (w.building.flight? number) live).alive)
      (h.current.writeAlive number _) (fun l hl heq => absurd (List.mem_map.mpr ⟨l, hl, heq⟩) hseg)
      (fun l hl => Building.ne_of_mem_taken
        (b := (w.withLanded (.built number live :: rest)).building) (d := .built number live)
          rfl hnd (List.mem_append_right _ (List.mem_map.mpr ⟨_, hl, rfl⟩)) rfl)
      (fun _ hlive => by cases hlive) herase
    refine hdisk.insert ?_ ?_ (List.Perm.refl _) (le_max_left _ _)
    · show ((w.disk.writeAlive number _).1.image).Holds _ _
      rw [himage, hlater.number, hnum]
      have hset := hkeeps.setAlive (arrive (w.building.flight? number) live).alive
      rw [← hlater.seg] at hset
      exact hset
    · rw [hlater.number, hnum]
      exact herase

/-- A build that failed gives its rows back. -/
theorem takeFailed {number : Nat} {rows : List Entry} {rest : List Landed}
    (h : (w.withLanded (.failed number rows :: rest)).Filed Q none [])
    (hnd : (w.withLanded (.failed number rows :: rest)).building.numbers.Nodup) (generation : Nat)
    (n : Nat) : ({ ({ w with building := w.building.taken number rest, buildFailed := n } : World) with
      inner := w.inner.restore ⟨some (number, generation, rows), [], .empty⟩ } : World).Filed Q none
        [] := by
  have htaken : ({ w with building := w.building.taken number rest, buildFailed := n } : World).Filed Q
      none [] := (h.taken hnd).still
    ⟨rfl, rfl, rfl, rfl, rfl, List.Subset.refl _, id, le_refl _⟩
  exact htaken.restore (List.nil_subset _)

/-- The loop of `collect`. -/
theorem collectFrom (rest : List Landed) : ∀ (w : World) (added failure : Bool),
    w.building.landed = [] → (w.withLanded rest).Filed Q none [] →
      (w.withLanded rest).Sound .loosely ∅ [] → (w.withLanded rest).Holds Q none →
        (w.collectFrom added failure rest).world.Filed Q none [] := by
  induction rest with
  | nil =>
    intro w added failure hl h hs hq
    rw [withLanded_self hl] at h hs hq
    exact h.collected hs.toOk hq added failure
  | cons d rest ih =>
    intro w added failure hl h hs hq
    have hnd := hs.building_nodup
    cases d with
    | built number live =>
      obtain ⟨hlive, -⟩ := hs.building.landed number live List.mem_cons_self
      have hseg := (arrive_later (w.building.flight? number) live hlive).seg
      have harrived : Q (arrive (w.building.flight? number) live).seg := by
        rw [hseg]
        exact hq.landed number live List.mem_cons_self
      unfold World.collectFrom
      simp only
      generalize hr : (if (List.find? (fun x => decide (x.number = number)) w.building.flights).any
          (fun f => !f.doomed.isEmpty || !f.gone.isEmpty) = true then
          w.disk.writeAlive number
            (arrive (List.find? (fun x => decide (x.number = number)) w.building.flights) live).alive
        else (w.disk, true)) = r
      have hdisk := writeLate (w.building.flight? number) live w.disk number hr
      rcases hdisk with ⟨hfail, hlate, himage, hpast⟩ | ⟨hok, hwritten⟩
      · rw [hfail, Bool.not_false, if_pos rfl]
        have hwaits := (h.arrived hlive hlate).untouched himage hpast
        have hland : ∀ inner : Inner, ({ w with
            disk := r.1
            building := { w.building with
              landed := w.building.landed ++ .built number (arrive
                (List.find? (fun x => decide (x.number = number)) w.building.flights) live) :: rest }
            inner } : World) = { w.withLanded (.built number
              (arrive (w.building.flight? number) live) :: rest) with disk := r.1, inner } := by
          intro inner
          rw [hl]
          rfl
        simp only [Search.Outcome.err]
        rw [hland]
        split
        · exact hwaits.perm (sortSegments_perm w.inner.segments)
        · exact hwaits
      · rw [hok, Bool.not_true, if_neg Bool.false_ne_true]
        refine ih _ _ _ hl (h.takeBuilt hs.toOk hwritten)
          (takeBuilt_sound (w := w.withLanded (.built number live :: rest)) rfl hs r.1)
          ⟨fun l hm => ?_, fun n l hm => hq.landed n l (List.mem_cons_of_mem _ hm),
            fun _ hw => (by cases hw)⟩
        rcases List.mem_append.mp hm with hm | hm
        · exact hq.segments l hm
        · rw [List.mem_singleton.mp hm]
          exact harrived
    | failed number rows =>
      unfold World.collectFrom
      simp only
      refine ih _ _ _ hl (h.takeFailed hnd _ _)
        (takeFailed_sound (w := w.withLanded (.failed number rows :: rest)) rfl hs
          (fun h => h.elim) (fun h => h.elim) _ _)
        ⟨fun l hm => hq.segments l ?_, fun n l hm => hq.landed n l (List.mem_cons_of_mem _ hm),
          fun _ hw => (by cases hw)⟩
      simp only [World.restore, withLanded] at hm
      rwa [Inner.restore_frame] at hm

theorem collect (h : w.Filed Q none []) (hs : w.Sound .loosely ∅ []) (hq : w.Holds Q none) :
    w.collect.world.Filed Q none [] := by
  unfold World.collect
  simp only
  split
  · exact h
  · exact collectFrom _ _ _ _ rfl h hs hq

/-! ## A batch is written -/

/-- The bitmaps of a batch are written, or owed again. -/
theorem commitAlive {p : Pending} (h : w.Filed Q (some (.batch p)) (p.alive.map (·.1)))
    (hw : w.Ok p.hand) (hq : w.Holds Q none) :
    (w.commitAlive p).Meets (fun w _ => w.Filed Q (some (.batch p.bare)) [])
      fun w => w.Filed Q none [] := by
  have hall : w.Filed Q (some (.batch p)) (p.alive.map (·.1) ++ []) := by
    rw [List.append_nil]
    exact h
  obtain ⟨h1, h2⟩ := hall.writeAlive p.alive hw (hq.batch p) (h.batch p rfl)
  unfold World.commitAlive
  simp only
  split
  · rename_i hok
    exact (Search.Outcome.meets_ok _ _ _ _).mpr
      ((h2 hok).carry p.bare rfl fun a ha => absurd ha List.not_mem_nil)
  · rw [List.append_nil] at h1
    exact (Search.Outcome.meets_err _ _ _).mpr (h1.restore (List.Subset.refl _))

/-- The segment of a batch is written under its number, or the batch is put back. -/
theorem commitBuild {p : Pending} (h : w.Filed Q (some (.batch p.bare)) []) (hw : w.Ok p.hand) :
    (w.commitBuild p).Meets (fun w live => w.Filed Q (live.map .written) [])
      fun w => w.Filed Q none [] := by
  unfold World.commitBuild
  cases hp : p.staged with
  | none => exact (Search.Outcome.meets_ok _ _ _ _).mpr h.drop
  | some s =>
    obtain ⟨number, generation, staged⟩ := s
    simp only
    have hhand : p.hand = [(number, staged)] := hand_of_staged hp
    have hin : number ∈ w.numbers (Held.hand (some (.batch p.bare))) := by
      unfold World.numbers
      refine List.mem_append_right _ ?_
      show number ∈ p.hand.map (·.1)
      rw [hhand]
      exact List.mem_singleton_self _
    have hfree : number ∉ w.inner.segments.map (·.number) ∧ number ∉ w.building.numbers := by
      have hnd := hw.nodup
      unfold World.numbers at hnd
      rw [hhand] at hnd
      have happ := List.nodup_append.mp hnd
      exact ⟨fun hm => happ.2.2 _ (List.mem_append_left _ hm) _ (List.mem_singleton_self _) rfl,
        fun hm => happ.2.2 _ (List.mem_append_right _ hm) _ (List.mem_singleton_self _) rfl⟩
    have hdisk := h.disk (Live.write_only w.disk number generation (build staged))
      (h.current.write _ _ _) (fun l hl heq => absurd (List.mem_map.mpr ⟨l, hl, heq⟩) hfree.1)
      (fun l hl => hfree.2 (List.mem_append_right _ (List.mem_map.mpr ⟨_, hl, rfl⟩)))
      (fun _ hlive => by cases hlive) (h.not_mem_pendingErase hin)
    cases hwrite : (Live.write w.disk number generation (build staged)).2 with
    | none => exact (Search.Outcome.meets_err _ _ _).mpr (hdisk.restore (List.nil_subset _))
    | some live =>
      have hholds := Live.write_holds _ _ _ _ _ hwrite
      have heq := Live.write_eq _ _ _ _ (Live.build_full _) _ hwrite
      rw [Live.fromBytes_buildSorted] at heq
      cases heq
      refine (Search.Outcome.meets_ok _ _ _ _).mpr { hdisk with
        erased := fun n hn => ?_
        written := fun live hlive => ?_
        batch := fun _ hb => by cases hb }
      · obtain ⟨h1, h2⟩ := h.erased n hn
        refine ⟨h1, fun hm => h2 ?_⟩
        unfold World.numbers at hm ⊢
        have hsame : (Held.hand (some (.batch p.bare))).map (·.1) = [number] := by
          show p.hand.map (·.1) = _
          rw [hhand]
          rfl
        rw [hsame]
        exact hm
      · cases hlive
        exact hholds

/-- A written segment takes its place in the list, and is named. -/
theorem install {live : Live} {n : Nat} (h : w.Filed Q (some (.written live)) [])
    (hs : w.Sound .loosely ∅ [(live.number, live.entries)]) (hq : w.Holds Q (some (.written live)))
    (hlive : live.Ok) :
    ({ w with inner := { w.inner with nextSegment := max w.inner.nextSegment n } }.installWritten
      live).saveMeta.world.Filed Q none [] := by
  have hin : live.number ∈ w.numbers (Held.hand (some (.written live))) := by
    unfold World.numbers
    exact List.mem_append_right _ (List.mem_singleton_self _)
  have hput : ({ w with inner := { w.inner with
      nextSegment := max w.inner.nextSegment n } }.installWritten live).Filed Q none [] :=
    h.insert (h.written live rfl) (h.not_mem_pendingErase hin)
      (sortSegments_perm (w.inner.segments ++ [live])) (le_max_left _ _)
  have hqput : ({ w with inner := { w.inner with
      nextSegment := max w.inner.nextSegment n } }.installWritten live).Holds Q none :=
    hq.insert (hq.written live rfl) rfl rfl
  exact hput.saveMeta (install_sound hlive hs _ _ _ (le_max_left _ _)).toOk hqput

/-- Another thread builds the segment of a batch. -/
theorem takeOff {p : Pending} {number generation : Nat} {staged : List Entry}
    (h : w.Filed Q (some (.batch p.bare)) []) (hw : w.Ok p.hand)
    (hp : p.staged = some (number, generation, staged)) :
    (w.takeOff number generation staged).world.Filed Q none [] := by
  have hhand : p.hand = [(number, staged)] := hand_of_staged hp
  have hne : ∀ n l, Landed.built n l ∈ w.building.landed → n ≠ number := by
    rintro n l hl rfl
    have hnd := hw.nodup
    unfold World.numbers at hnd
    rw [hhand] at hnd
    refine (List.nodup_append.mp hnd).2.2 n (List.mem_append_right _ (List.mem_append_right _
      (List.mem_map.mpr ⟨_, hl, rfl⟩))) n (List.mem_singleton_self _) rfl
  unfold World.takeOff
  simp only
  split
  · have hkept := h.drop.untouched (Disk.fault_image w.disk) (Disk.fault_past _)
    exact { hkept with
      landed := fun n l hl => by
        obtain ⟨h1, h2⟩ := hkept.landed n l hl
        refine ⟨h1, h2.imp_right fun hlate => ?_⟩
        rw [← hlate]
        exact congrArg late (Building.flight?_taken w.building number n w.building.landed (hne n l hl))
      written := fun _ hw => by cases hw
      batch := fun _ hw => by cases hw }
  · have hkept := h.untouched (Disk.fault_image w.disk) (Disk.fault_past _)
    have hnew : number ∉ w.building.numbers := by
      intro hm
      have hnd := hw.nodup
      unfold World.numbers at hnd
      rw [hhand] at hnd
      exact (List.nodup_append.mp hnd).2.2 number (List.mem_append_right _ hm) number
        (List.mem_singleton_self _) rfl
    exact { hkept with
      erased := fun n hn => by
        obtain ⟨h1, h2⟩ := h.erased n hn
        refine ⟨h1, fun hm => h2 ?_⟩
        have hsame : (Held.hand (some (.batch p.bare))).map (·.1) = [number] := by
          show p.hand.map (·.1) = _
          rw [hhand]
          rfl
        unfold World.numbers Building.numbers at hm ⊢
        rw [hsame]
        simp only [Search.Outcome.ok, Held.hand, List.map_append, List.map_cons, List.map_nil,
          List.append_nil, List.mem_append, List.mem_singleton] at hm ⊢
        tauto
      landed := fun n l hl => by
        obtain ⟨h1, h2⟩ := hkept.landed n l hl
        refine ⟨h1, h2.imp_right fun hlate => ?_⟩
        rw [← hlate]
        exact congrArg late (Building.flight?_flown_old hw.building hnew
          (f := ⟨number, staged.map Entry.digest, [], .empty⟩) (j := ⟨number, generation, staged⟩)
          (List.mem_append_right _ (List.mem_map.mpr ⟨_, hl, rfl⟩)))
      written := fun _ hw => by cases hw
      batch := fun _ hw => by cases hw }

/-- A batch becomes a segment in memory. -/
theorem publishInstall {p : Pending} (h : w.Filed Q (some (.batch p.bare)) []) (hw : w.Ok p.hand) :
    (w.publishInstall p.bare).world.Filed Q none [] := by
  unfold World.publishInstall
  cases hp : p.bare.staged with
  | none => exact h.drop
  | some s =>
    obtain ⟨number, generation, staged⟩ := s
    have hb : Live.fromBytes number generation (build staged) =
        some (.ofBytes number generation (build staged)) := Live.fromBytes_buildSorted _ _ _
    have hhand : p.hand = [(number, staged)] := hand_of_staged hp
    have hin : number ∈ w.numbers (Held.hand (some (.batch p.bare))) := by
      unfold World.numbers
      refine List.mem_append_right _ ?_
      show number ∈ p.hand.map (·.1)
      rw [hhand]
      exact List.mem_singleton_self _
    have hseg : number ∉ w.inner.segments.map (·.number) := fun hm => by
      have hnd := hw.nodup
      unfold World.numbers at hnd
      rw [hhand] at hnd
      exact (List.nodup_append.mp hnd).2.2 _ (List.mem_append_left _ hm) _
        (List.mem_singleton_self _) rfl
    simp only [hb]
    exact h.insertUnwritten (h.not_mem_pendingErase hin) hseg
      (sortSegments_perm (w.inner.segments ++ [.ofBytes number generation (build staged)]))
      (le_max_left _ _)

end Filed

end World

end Scour
