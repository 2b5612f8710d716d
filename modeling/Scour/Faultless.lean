import Scour.Passes

/-!
# Nothing fails without a fault

`Unfailing` is a directory whose operations all succeed and no build that failed.  There no step
fails, and every step leaves it so (`Keeper.unfailing`).
-/

namespace Scour

namespace Disk

variable {d : Disk} (h : d.faults = [])
include h

theorem fault_eq : d.fault = (false, d) := by
  unfold fault
  rw [h]

theorem writeSynced_ok (number : Nat) (x : Ext) (c : Content) :
    (d.writeSynced number x c).2 = true ∧ (d.writeSynced number x c).1.faults = [] := by
  unfold writeSynced
  simp only [fault_eq (d := d.step _) h, Bool.false_eq_true, if_false]
  exact ⟨trivial, h⟩

theorem writeAlive_ok (number : Nat) (bits : List Bool) :
    (d.writeAlive number bits).2 = true ∧ (d.writeAlive number bits).1.faults = [] := by
  unfold writeAlive
  rw [fault_eq h]
  exact ⟨rfl, h⟩

theorem writeManifest_ok (m : Manifest) :
    (d.writeManifest m).2 = true ∧ (d.writeManifest m).1.faults = [] := by
  unfold writeManifest
  rw [fault_eq h]
  exact ⟨rfl, h⟩

omit h in
theorem erase_faults (d : Disk) (number : Nat) : (d.erase number).faults = d.faults := by
  unfold erase
  induction PARTS ++ ORDERS ++ [Ext.alive] generalizing d with
  | nil => rfl
  | cons x exts ih => exact ih _

omit h in
theorem foldl_erase_faults (numbers : List Nat) :
    ∀ d : Disk, (numbers.foldl erase d).faults = d.faults := by
  induction numbers with
  | nil => exact fun _ => rfl
  | cons n numbers ih => exact fun d => (ih _).trans (d.erase_faults n)

omit h in
theorem writeAll_ok (number : Nat) (files : List (Ext × Content)) :
    ∀ d : Disk, d.faults = [] →
      (d.writeAll number files).2 = true ∧ (d.writeAll number files).1.faults = [] := by
  induction files with
  | nil => exact fun d h => ⟨rfl, h⟩
  | cons f files ih =>
    obtain ⟨x, c⟩ := f
    intro d h
    obtain ⟨h1, h2⟩ := writeSynced_ok h number x c
    unfold writeAll
    simp only [h1, if_true]
    exact ih _ h2

end Disk

namespace Live

/-- A segment that can be opened from memory can be written. -/
theorem write_ok {d : Disk} (h : d.faults = []) {number generation : Nat} {b : SegmentBytes}
    (hf : b.Full) {l : Live} (hl : fromBytes number generation b = some l) :
    (write d number generation b).2 = some l ∧ (write d number generation b).1.faults = [] := by
  obtain ⟨hok, hfaults⟩ := Disk.writeAll_ok number ((PARTS ++ ORDERS ++ [Ext.alive]).filterMap
    fun x => (b.content x).map fun c => (x, c)) (d.erase number) ((d.erase_faults number).trans h)
  have hholds := writeAll_holds d number b hok
  unfold write
  simp only [hok, if_true]
  exact ⟨(open?_of_holds hholds hf generation).trans hl, hfaults⟩

theorem write_build {d : Disk} (h : d.faults = []) (number generation : Nat) (es : List Entry) :
    (write d number generation (buildSorted es)).2 =
        some (ofBytes number generation (buildSorted es)) ∧
      (write d number generation (buildSorted es)).1.faults = [] :=
  write_ok h (build_full es) (fromBytes_buildSorted _ _ _)

/-- What a segment is made of makes it again, its death count apart. -/
theorem fromBytes_bytes {l : Live} (hl : l.Ok) (number generation : Nat) :
    l.bytes.Full ∧ fromBytes number generation l.bytes =
      some { number, generation, seg := l.seg, alive := l.alive, deaths := 0 } := by
  obtain ⟨es, h1, h2⟩ := hl
  have hbuilt := fromBytes_buildSorted number generation es
  unfold fromBytes assemble at hbuilt ⊢
  refine ⟨fun d hd => ?_, ?_⟩
  · show l.seg.derived d ≠ none
    rw [h1]
    exact build_full es d hd
  · simp only [bytes, h1, h2, buildSorted_alive, List.length_replicate] at hbuilt ⊢
    split at hbuilt
    · rename_i hc
      rw [if_pos hc]
    · cases hbuilt

end Live

namespace World

/-- No operation of the directory fails, and no build has. -/
structure Unfailing (w : World) : Prop where
  faults : w.disk.faults = []
  landed : failedRows w.building.landed = []

variable {w : World}

theorem saveMeta_returns (h : w.Unfailing) :
    w.saveMeta.Meets (fun w _ => w.Unfailing) fun _ => False := by
  obtain ⟨h1, h2⟩ := Disk.writeManifest_ok h.faults w.inner.manifest
  unfold saveMeta
  simp only [h1, Bool.not_true, Bool.false_eq_true, if_false]
  exact (Search.Outcome.meets_ok _ _ _ _).mpr ⟨(Disk.foldl_erase_faults _ _).trans h2, h.landed⟩

theorem writeAlive_returns (alive : List (Nat × List Bool)) :
    ∀ {d : Disk}, d.faults = [] → (writeAlive d alive).2 = true ∧ (writeAlive d alive).1.faults = [] := by
  induction alive with
  | nil => exact fun h => ⟨rfl, h⟩
  | cons p alive ih =>
    obtain ⟨number, bits⟩ := p
    intro d h
    obtain ⟨h1, h2⟩ := Disk.writeAlive_ok h number bits
    unfold writeAlive
    simp only [h1, if_true]
    exact ih h2

theorem writeDirtyAlive_returns (h : w.Unfailing) :
    w.writeDirtyAlive.Meets (fun w _ => w.Unfailing) fun _ => False := by
  unfold writeDirtyAlive
  simp only
  obtain ⟨h1, h2⟩ := writeAlive_returns w.inner.takeDirtyAlive.2 h.faults
  split
  · exact (Search.Outcome.meets_ok _ _ _ _).mpr ⟨h.faults, h.landed⟩
  · exact (Search.Outcome.meets_ok _ _ _ _).mpr ⟨h2, h.landed⟩

theorem landJob_unfailing (h : w.Unfailing) (job : Job) : (w.landJob job).Unfailing := by
  obtain ⟨h1, h2⟩ := Live.write_build h.faults job.number job.generation
    (job.rows.insertionSort storedLe)
  unfold landJob build
  simp only [h1]
  refine ⟨h2, ?_⟩
  have := h.landed
  unfold failedRows at this ⊢
  simp only [List.filterMap_append, this]
  rfl

theorem collected_returns (h : w.Unfailing) (added : Bool) :
    (w.collected added false).Meets (fun w _ => w.Unfailing) fun _ => False := by
  unfold collected
  simp only [Bool.false_eq_true, if_false]
  split
  · refine (saveMeta_returns (w := { w with inner := { w.inner with
      segments := Inner.sortSegments w.inner.segments } }) ⟨h.faults, h.landed⟩).bind
        fun w _ hw => ?_
    exact (Search.Outcome.meets_ok _ _ _ _).mpr hw
  · exact (Search.Outcome.meets_ok _ _ _ _).mpr h

theorem collectFrom_returns (rest : List Landed) : ∀ {w : World} (added : Bool),
    w.disk.faults = [] → w.building.landed = [] → failedRows rest = [] →
      (w.collectFrom added false rest).Meets (fun w _ => w.Unfailing) fun _ => False := by
  induction rest with
  | nil =>
    intro w added h hl _
    exact collected_returns ⟨h, by rw [hl]; rfl⟩ added
  | cons d rest ih =>
    intro w added h hl hrest
    cases d with
    | failed number rows => simp [failedRows] at hrest
    | built number live =>
      have hrest : failedRows rest = [] := by
        unfold failedRows at hrest ⊢
        simpa using hrest
      unfold collectFrom
      simp only
      generalize arrive _ live = arrived
      have hdisk : ∀ c : Bool, (if c = true then w.disk.writeAlive number arrived.alive
          else (w.disk, true)).2 = true ∧
            (if c = true then w.disk.writeAlive number arrived.alive
              else (w.disk, true)).1.faults = [] := by
        intro c
        cases c with
        | true => exact Disk.writeAlive_ok h number arrived.alive
        | false => exact ⟨rfl, h⟩
      obtain ⟨h1, h2⟩ := hdisk ((w.building.flights.find? (·.number = number)).any fun f =>
        !f.doomed.isEmpty || !f.gone.isEmpty)
      rw [if_neg (by simp [h1])]
      exact ih true h2 hl hrest

theorem collect_returns (h : w.Unfailing) :
    w.collect.Meets (fun w _ => w.Unfailing) fun _ => False := by
  unfold collect
  simp only
  split
  · exact (Search.Outcome.meets_ok _ _ _ _).mpr h
  · exact collectFrom_returns _ false h.faults rfl h.landed

theorem killHidden_unfailing (h : w.Unfailing) : w.killHidden.1.Unfailing := by
  refine ⟨?_, ?_⟩
  · rw [killHidden_frame]
    exact h.faults
  · rw [(killHidden_building w).2]
    exact h.landed

theorem flushTake_returns (h : w.Unfailing) (discretionary durable : Bool) (touched : List Nat) :
    (w.flushTake discretionary durable touched).Meets (fun w _ => w.Unfailing) fun _ => False := by
  unfold flushTake
  generalize w.inner.liftOut discretionary durable touched = lifted
  obtain ⟨inner, pending, gone⟩ := lifted
  simp only
  have hsaved : (if (durable && inner.metaDirty) = true then ({ w with inner } : World).saveMeta
      else Search.Outcome.ok { w with inner } ()).Meets (fun w _ => w.Unfailing) fun _ => False := by
    split
    · exact saveMeta_returns ⟨h.faults, h.landed⟩
    · exact (Search.Outcome.meets_ok _ _ _ _).mpr ⟨h.faults, h.landed⟩
  obtain ⟨u, hu, hw⟩ := hsaved.returns
  rw [hu]
  exact (Search.Outcome.meets_ok _ _ _ _).mpr hw

theorem flushStaged_returns (h : w.Unfailing) (discretionary durable : Bool) :
    (w.flushStaged discretionary durable).Meets (fun w _ => w.Unfailing) fun _ => False := by
  unfold flushStaged
  split
  · split
    · exact (saveMeta_returns h).bind fun _ _ hw => (Search.Outcome.meets_ok _ _ _ _).mpr hw
    · exact (Search.Outcome.meets_ok _ _ _ _).mpr h
  · have hk := killHidden_unfailing h
    simp only
    exact flushTake_returns (w := ({ w.killHidden.1 with
      inner := w.killHidden.1.inner.spareUnchanged } : World).killReplaced.1)
      ⟨hk.faults, hk.landed⟩ _ _ _

theorem commitAlive_returns (h : w.Unfailing) (p : Pending) :
    (w.commitAlive p).Meets (fun w _ => w.Unfailing) fun _ => False := by
  obtain ⟨h1, h2⟩ := writeAlive_returns p.alive h.faults
  unfold commitAlive
  simp only [h1, if_true]
  exact (Search.Outcome.meets_ok _ _ _ _).mpr ⟨h2, h.landed⟩

theorem commitBuild_returns (h : w.Unfailing) (p : Pending) :
    (w.commitBuild p).Meets (fun w _ => w.Unfailing) fun _ => False := by
  unfold commitBuild
  split
  · exact (Search.Outcome.meets_ok _ _ _ _).mpr h
  · rename_i number generation staged _
    obtain ⟨h1, h2⟩ := Live.write_build h.faults number generation (staged.insertionSort storedLe)
    unfold build
    simp only [h1]
    exact (Search.Outcome.meets_ok _ _ _ _).mpr ⟨h2, h.landed⟩

theorem takeOff_returns (h : w.Unfailing) (number generation : Nat) (staged : List Entry) :
    (w.takeOff number generation staged).Meets (fun w _ => w.Unfailing) fun _ => False := by
  unfold takeOff
  simp only [Disk.fault_eq h.faults, Bool.false_eq_true, if_false]
  exact (Search.Outcome.meets_ok _ _ _ _).mpr ⟨h.faults, h.landed⟩

theorem publishInstall_returns (h : w.Unfailing) (p : Pending) :
    (w.publishInstall p).Meets (fun w _ => w.Unfailing) fun _ => False := by
  unfold publishInstall
  split
  · exact (Search.Outcome.meets_ok _ _ _ _).mpr h
  · unfold build
    simp only [Live.fromBytes_buildSorted]
    exact (Search.Outcome.meets_ok _ _ _ _).mpr ⟨h.faults, h.landed⟩

theorem foldWrite_returns (h : w.Unfailing) {number : Nat} {input : FoldInput} {durable : Bool}
    {es : List Entry} (hb : input.bytes = buildSorted es) :
    (w.foldWrite number input durable).Meets (fun w _ => w.Unfailing) fun _ => False := by
  obtain ⟨h1, h2⟩ := Live.write_build h.faults number input.generation es
  unfold foldWrite
  rw [hb]
  split
  · exact (Search.Outcome.meets_ok _ _ _ _).mpr h
  · split
    · simp only [h1]
      exact (Search.Outcome.meets_ok _ _ _ _).mpr ⟨h2, h.landed⟩
    · simp only [Live.fromBytes_buildSorted]
      exact (Search.Outcome.meets_ok _ _ _ _).mpr h

theorem foldPublish_returns (h : w.Unfailing) (which : List Nat) (number : Nat)
    (snapshot : List (Nat × Nat)) (folded : Option Live) (durable : Bool) :
    (w.foldPublish which number snapshot folded durable).Meets (fun w _ => w.Unfailing)
      fun _ => False := by
  unfold foldPublish
  split
  · refine (Search.Outcome.meets_ok _ _ _ _).mpr ?_
    split
    · exact ⟨(Disk.erase_faults _ _).trans h.faults, h.landed⟩
    · exact h
  · simp only
    split
    · refine (saveMeta_returns (w := { w with
        inner := w.inner.putFolded which number folded durable }) ⟨h.faults, h.landed⟩).bind
          fun w _ hw => ?_
      exact (Search.Outcome.meets_ok _ _ _ _).mpr hw
    · exact (Search.Outcome.meets_ok _ _ _ _).mpr ⟨h.faults, h.landed⟩

theorem foldTo_returns (h : w.Unfailing) (which : List Nat) (durable : Bool) :
    (w.foldTo which durable).Meets (fun w _ => w.Unfailing) fun _ => False := by
  unfold foldTo
  split
  · exact (Search.Outcome.meets_ok _ _ _ _).mpr h
  · simp only
    cases hb : (w.foldClaim durable).1.foldBuild which with
    | none => exact (Search.Outcome.meets_ok _ _ _ _).mpr ⟨h.faults, h.landed⟩
    | some input =>
      have hbytes : ∃ es, input.bytes = buildSorted es := by
        unfold foldBuild at hb
        simp only at hb
        split at hb
        · cases hb
        · exact ⟨_, by rw [← Option.some.inj hb]⟩
      obtain ⟨es, hbytes⟩ := hbytes
      exact (foldWrite_returns (w := (w.foldClaim durable).1) ⟨h.faults, h.landed⟩ hbytes).bind
        fun _ _ hw => foldPublish_returns hw _ _ _ _ _

theorem writeUnwritten_returns (h : w.Unfailing) (hl : ∀ l ∈ w.inner.segments, l.Ok)
    (number : Nat) : (w.writeUnwritten number).Meets (fun w _ => w.Unfailing) fun _ => False := by
  unfold writeUnwritten
  cases hs : w.inner.segment? number with
  | none => exact (Search.Outcome.meets_ok _ _ _ _).mpr h
  | some live =>
    simp only
    split
    · exact (Search.Outcome.meets_ok _ _ _ _).mpr h
    · obtain ⟨hfull, hbytes⟩ := Live.fromBytes_bytes (hl live (Inner.mem_of_segment? hs).1) number
        live.generation
      obtain ⟨h1, h2⟩ := Live.write_ok h.faults hfull hbytes
      simp only [h1]
      refine (Search.Outcome.meets_ok _ _ _ _).mpr ?_
      unfold adoptWritten
      simp only [hs]
      exact ⟨h2, h.landed⟩

end World

/-- An invariant of runs that may fail is one of runs that do not. -/
theorem Keeper.unfailing {G : Guards} {I : List Change → World → Option Held → Prop}
    {E : List Change → World → Prop} (K : Keeper G I E)
    (hok : ∀ {cs w}, I cs w none → ∀ l ∈ w.inner.segments, l.Ok) :
    Keeper G (fun cs w held => I cs w held ∧ w.Unfailing) fun _ _ => False := by
  have hand : ∀ {α : Type} {r : Out α} {Q : World → α → Prop} {E' : World → Prop},
      r.Meets Q E' → r.Meets (fun w _ => w.Unfailing) (fun _ => False) →
        r.Meets (fun w a => Q w a ∧ w.Unfailing) fun _ => False :=
    fun h h' => (h.and h').mono (fun _ _ hw => hw) fun _ hw => hw.2
  exact {
    numbered := fun h => K.numbered h.1
    stage := fun h hg => ⟨K.stage h.1 hg, ⟨h.2.faults, h.2.landed⟩⟩
    hide := fun h => ⟨K.hide h.1, ⟨h.2.faults, h.2.landed⟩⟩
    rescan := fun h => ⟨K.rescan h.1, h.2⟩
    told := fun h => ⟨K.told h.1, ⟨h.2.faults, h.2.landed⟩⟩
    land := fun h hj => ⟨K.land h.1 hj, World.landJob_unfailing h.2 _⟩
    collect := fun h hg => hand (K.collect h.1 hg) (World.collect_returns h.2)
    flush := fun h hg => hand (K.flush h.1 hg) (World.flushStaged_returns h.2 _ _)
    commitAlive := fun h => hand (K.commitAlive h.1) (World.commitAlive_returns h.2 _)
    commitBuild := fun h => hand (K.commitBuild h.1) (World.commitBuild_returns h.2 _)
    install := fun h hn => hand (K.install h.1 hn)
      (World.saveMeta_returns ⟨h.2.faults, h.2.landed⟩)
    takeOff := fun h hp hg hf => hand (K.takeOff h.1 hp hg hf) (World.takeOff_returns h.2 _ _ _)
    oweAlive := fun h => ⟨K.oweAlive h.1, ⟨h.2.faults, h.2.landed⟩⟩
    publishInstall := fun h => hand (K.publishInstall h.1) (World.publishInstall_returns h.2 _)
    foldTo := fun h hu => hand (K.foldTo h.1 hu) (World.foldTo_returns h.2 _ _)
    writeUnwritten := fun h => hand (K.writeUnwritten h.1)
      (World.writeUnwritten_returns h.2 (hok h.1) _)
    writeDirtyAlive := fun h => hand (K.writeDirtyAlive h.1) (World.writeDirtyAlive_returns h.2)
    saveMeta := fun h => hand (K.saveMeta h.1) (World.saveMeta_returns h.2) }

end Scour
