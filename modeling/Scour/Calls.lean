import Scour.FlushRows

/-!
# Runs, and what every call is made of

`Call` is what a caller asks for, or a thread finishing; `run` takes a list of them one after
another.  A `Keeper` is an invariant shown for the steps the calls are made of, each step once; from
it follows that every call keeps it (`Keeper.commit`, `Keeper.apply`, …) and so does every run.
`Guards` says what is asked of the state before the steps that may not go well: an upsert that
reaches the buffer, builds that are taken in, a flush, and a batch handed to another thread.
-/

namespace Scour

/-- What a call carries between its steps: rows lifted out, or the segment written from them. -/
inductive Held where
  | batch (pending : Pending)
  | written (live : Live)

/-- What is asked of the state before a step. -/
structure Guards where
  stage : World → Entry → Prop
  collect : World → Prop
  flush : Bool → World → Prop
  spawn : World → Pending → Prop

inductive Call where
  | apply (changes : List Change)
  | commit
  | publish
  | persist
  | fold (which : List Nat) (durable : Bool)
  | beginGeneration
  | sweep (source : SourceId) (under : List World.Root) (generation : Nat) (spare : PrefixSet)
  | abandonGeneration (generation : Nat)
  | forget (source : SourceId)
  | maintain (level : World.Maintenance)
  /-- The thread that builds this segment finishes. -/
  | land (number : Nat)

namespace Call

/-- The call, its answer dropped. -/
def out (w : World) : Call → Out Unit
  | .apply changes => (w.apply changes).bind fun w _ => .ok w ()
  | .commit => w.commit
  | .publish => w.publish
  | .persist => w.persistUnwritten
  | .fold which durable => (w.foldTo which durable).bind fun w _ => .ok w ()
  | .beginGeneration => w.beginGeneration.bind fun w _ => .ok w ()
  | .sweep source under generation spare =>
      (w.sweep source under generation spare).bind fun w _ => .ok w ()
  | .abandonGeneration generation => w.abandonGeneration generation
  | .forget source => (w.forget source).bind fun w _ => .ok w ()
  | .maintain level => w.maintain level
  | .land number => .ok (w.land number) ()

/-- Does the call only write what is applied? -/
def writes : Call → Bool
  | .apply _ | .commit | .publish | .land _ => true
  | _ => false

/-- What the call applies. -/
def changes : Call → List Change
  | .apply changes => changes
  | _ => []

/-- What has been applied, since a generation was last begun. -/
def log (cs : List Change) : Call → List Change
  | .apply changes => cs ++ changes
  | .beginGeneration => []
  | _ => cs

theorem log_of_writes {c : Call} (h : c.writes = true) (cs : List Change) :
    c.log cs = cs ++ c.changes := by
  cases c <;> simp_all [writes, log, changes]

end Call

namespace World

/-- The world some calls later, whatever they answered. -/
def run (w : World) (calls : List Call) : World := calls.foldl (fun w c => (c.out w).world) w

end World

/-! ## What is asked of a call -/

namespace Guards

variable (G : Guards)

def flushes (discretionary : Bool) (w : World) : Prop :=
  G.collect w ∧ w.collect.Then fun w _ => G.flush discretionary w

def settles (w : World) : Prop := G.collect (w.building.jobs.foldl World.landJob w)

/-- A flush of a full buffer, which another thread may be handed. -/
def overflows (w : World) : Prop :=
  G.flushes true w ∧ (w.flushPrepare true true).Then fun w p =>
    (w.commitAlive p).Then fun w _ => G.spawn w p

def change (w : World) : Change → Prop
  | .upsert e => G.stage w e ∧
      (MAX_STAGED ≤ (w.stage e).inner.staged.length → G.overflows (w.stage e))
  | _ => True

def changes (w : World) (report : ApplyReport) : List Change → Prop
  | [] => True
  | c :: rest => G.change w c ∧ (w.applyChange report c).Then fun w report => changes w report rest

def commits (w : World) : Prop := G.settles w ∧ w.settle.Then fun w _ => G.flushes false w

def begins (w : World) : Prop := G.settles w ∧ w.settle.Then fun w _ => G.flushes false w.dropMarks

def sweeps (w : World) : Prop :=
  G.settles w ∧ w.settle.Then fun w _ =>
    G.commits w ∧ w.publishNow.Then fun w _ => G.flushes false w

def call (w : World) : Call → Prop
  | .apply changes => G.changes w .default changes
  | .commit | .publish | .forget _ | .maintain _ => G.commits w
  | .beginGeneration => G.begins w
  | .sweep .. => G.sweeps w
  | .persist | .fold .. | .abandonGeneration _ | .land _ => True

/-- Every call of a run meets its guard. -/
def run (w : World) : List Call → Prop
  | [] => True
  | c :: rest => G.call w c ∧ run (c.out w).world rest

/-- Guards that can be evaluated. -/
class Computes where
  stage : ∀ w e, Decidable (G.stage w e)
  collect : ∀ w, Decidable (G.collect w)
  flush : ∀ d w, Decidable (G.flush d w)
  spawn : ∀ w p, Decidable (G.spawn w p)

section
variable [hG : G.Computes]

instance (d : Bool) (w : World) : Decidable (G.flushes d w) :=
  have := hG.collect
  have := hG.flush
  inferInstanceAs (Decidable (_ ∧ _))

instance (w : World) : Decidable (G.settles w) := hG.collect _

instance (w : World) : Decidable (G.overflows w) :=
  have := hG.spawn
  inferInstanceAs (Decidable (_ ∧ _))

instance (w : World) : (c : Change) → Decidable (G.change w c)
  | .upsert _ =>
      have := hG.stage
      inferInstanceAs (Decidable (_ ∧ _))
  | .removeSubtree _ | .rescan _ => .isTrue trivial

instance decidableChanges : (changes : List Change) → (w : World) → (report : ApplyReport) →
    Decidable (G.changes w report changes)
  | [], _, _ => .isTrue trivial
  | _ :: rest, _, _ =>
      have := decidableChanges rest
      inferInstanceAs (Decidable (_ ∧ _))

instance (w : World) : Decidable (G.commits w) := inferInstanceAs (Decidable (_ ∧ _))

instance (w : World) : Decidable (G.begins w) := inferInstanceAs (Decidable (_ ∧ _))

instance (w : World) : Decidable (G.sweeps w) := inferInstanceAs (Decidable (_ ∧ _))

instance (w : World) : (c : Call) → Decidable (G.call w c)
  | .apply changes => decidableChanges G changes w .default
  | .commit | .publish | .forget _ | .maintain _ => inferInstanceAs (Decidable (G.commits w))
  | .beginGeneration => inferInstanceAs (Decidable (G.begins w))
  | .sweep .. => inferInstanceAs (Decidable (G.sweeps w))
  | .persist | .fold .. | .abandonGeneration _ | .land _ => .isTrue trivial

instance decidableRun : (calls : List Call) → (w : World) → Decidable (G.run w calls)
  | [], _ => .isTrue trivial
  | _ :: rest, _ =>
      have := decidableRun rest
      inferInstanceAs (Decidable (_ ∧ _))

end

/-- Nothing is asked. -/
def free : Guards := ⟨fun _ _ => True, fun _ => True, fun _ _ => True, fun _ _ => True⟩

theorem free_changes (changes : List Change) :
    ∀ (w : World) (report : ApplyReport), free.changes w report changes := by
  induction changes with
  | nil => exact fun _ _ => trivial
  | cons c changes ih =>
    intro w report
    refine ⟨?_, fun _ _ => ih _ _⟩
    cases c with
    | upsert e => exact ⟨trivial, fun _ => ⟨⟨trivial, fun _ _ => trivial⟩, fun _ _ _ _ => trivial⟩⟩
    | _ => trivial

theorem free_call (w : World) (c : Call) : free.call w c := by
  have hcommits : ∀ w : World, free.commits w := fun _ =>
    ⟨trivial, fun _ _ => ⟨trivial, fun _ _ => trivial⟩⟩
  cases c with
  | apply changes => exact free_changes changes w .default
  | beginGeneration => exact ⟨trivial, fun _ _ => ⟨trivial, fun _ _ => trivial⟩⟩
  | sweep => exact ⟨trivial, fun _ _ => ⟨hcommits _, fun _ _ => ⟨trivial, fun _ _ => trivial⟩⟩⟩
  | persist | fold | abandonGeneration | land => trivial
  | _ => exact hcommits w

theorem free_run (calls : List Call) : ∀ w : World, free.run w calls := by
  induction calls with
  | nil => exact fun _ => trivial
  | cons c calls ih => exact fun w => ⟨free_call w c, ih _⟩

theorem run_append {G : Guards} (calls rest : List Call) :
    ∀ w : World, G.run w (calls ++ rest) ↔ G.run w calls ∧ G.run (w.run calls) rest := by
  induction calls with
  | nil => exact fun w => ⟨fun h => ⟨trivial, h⟩, And.right⟩
  | cons c calls ih => exact fun w => (and_congr_right fun _ => ih _).trans and_assoc.symm

end Guards

/-! ## Keepers -/

namespace World

/-- Segments with a stamp apart are not folded together while a generation is open. -/
def Uniform (w : World) (which : List Nat) : Prop :=
  w.inner.opened.isSome → ∀ l ∈ w.inner.segments, ∀ l' ∈ w.inner.segments,
    l.number ∈ which → l'.number ∈ which → l.generation = l'.generation

end World

/-- An invariant of the write path: `I` holds between steps, with what the call in progress holds
and what has been applied, and `E` after a step that fails. -/
structure Keeper (G : Guards) (I : List Change → World → Option Held → Prop)
    (E : List Change → World → Prop) : Prop where
  numbered : ∀ {cs w}, I cs w none → (w.inner.segments.map (·.number)).Nodup ∧
    (∀ l ∈ w.inner.segments, l.number < w.inner.nextSegment) ∧
    (w.building.jobs.map (·.number)).Nodup
  stage : ∀ {cs w e}, I cs w none → G.stage w e → I (cs ++ [.upsert e]) (w.stage e) none
  hide : ∀ {cs w path}, I cs w none → I (cs ++ [.removeSubtree path]) (w.hide path) none
  rescan : ∀ {cs w path}, I cs w none → I (cs ++ [.rescan path]) w none
  told : ∀ {cs w}, I cs w none → I cs w.told none
  land : ∀ {cs w job}, I cs w none → job ∈ w.building.jobs → I cs (w.landJob job) none
  collect : ∀ {cs w}, I cs w none → G.collect w →
    w.collect.Meets (fun w _ => I cs w none) (E cs)
  flush : ∀ {cs w d durable}, I cs w none → G.flush d w →
    (w.flushStaged d durable).Meets (fun w p => I cs w (some (.batch p))) (E cs)
  commitAlive : ∀ {cs w} {p : Pending}, I cs w (some (.batch p)) →
    (w.commitAlive p).Meets (fun w _ => I cs w (some (.batch p.bare))) (E cs)
  commitBuild : ∀ {cs w} {p : Pending}, I cs w (some (.batch p.bare)) →
    (w.commitBuild p).Meets (fun w live => I cs w (live.map .written)) (E cs)
  install : ∀ {cs w n} {live : Live}, I cs w (some (.written live)) → n ≤ live.number + 1 →
    ({ w with inner := { w.inner with nextSegment := max w.inner.nextSegment n } }.installWritten
      live).saveMeta.Meets (fun w _ => I cs w none) (E cs)
  takeOff : ∀ {cs w number generation staged} {p : Pending}, I cs w (some (.batch p.bare)) →
    p.staged = some (number, generation, staged) → G.spawn w p →
    w.building.flights.length < MAX_BUILDING →
    (w.takeOff number generation staged).Meets (fun w _ => I cs w none) (E cs)
  oweAlive : ∀ {cs w} {p : Pending}, I cs w (some (.batch p)) →
    I cs (w.oweAlive p) (some (.batch p.bare))
  publishInstall : ∀ {cs w} {p : Pending}, I cs w (some (.batch p.bare)) →
    (w.publishInstall p.bare).Meets (fun w _ => I cs w none) (E cs)
  foldTo : ∀ {cs w which durable}, I cs w none → w.Uniform which →
    (w.foldTo which durable).Meets (fun w _ => I cs w none) (E cs)
  writeUnwritten : ∀ {cs w number}, I cs w none →
    (w.writeUnwritten number).Meets (fun w _ => I cs w none) (E cs)
  writeDirtyAlive : ∀ {cs w}, I cs w none →
    w.writeDirtyAlive.Meets (fun w _ => I cs w none) (E cs)
  saveMeta : ∀ {cs w}, I cs w none → w.saveMeta.Meets (fun w _ => I cs w none) (E cs)

/-- With the passes of a walk: a generation is begun and swept. -/
structure WalkKeeper (G : Guards) (I : List Change → World → Option Held → Prop)
    (E : List Change → World → Prop) : Prop extends Keeper G I E where
  dropMarks : ∀ {cs w}, I cs w none → I cs w.dropMarks none
  openNext : ∀ {cs w}, I cs w none → w.inner.opened = none → w.inner.staged = [] →
    w.inner.hiddenPrefixes.paths = [] → w.building.jobs = [] → w.building.landed = [] →
    I [] w.openNext none
  sweepJudge : ∀ {cs w source under generation spare}, I cs w none →
    (w.sweepJudge source under generation spare).Meets (fun w _ => I cs w none) (E cs)

/-- With everything else a caller can ask for. -/
structure FullKeeper (G : Guards) (I : List Change → World → Option Held → Prop)
    (E : List Change → World → Prop) : Prop extends WalkKeeper G I E where
  foldAny : ∀ {cs w which durable}, I cs w none →
    (w.foldTo which durable).Meets (fun w _ => I cs w none) (E cs)
  abandon : ∀ {cs w generation}, I cs w none → I cs (w.closeGeneration generation).unmarked none
  forgetKill : ∀ {cs w source}, I cs w none → I cs (w.forgetKill source).1 none
  emptied : ∀ {cs w}, I cs w none → I cs w.emptied none

/-- The same steps under other guards, where the invariant makes up the difference. -/
theorem Keeper.weaken {G G' : Guards} {I : List Change → World → Option Held → Prop}
    {E : List Change → World → Prop} (K : Keeper G I E)
    (hstage : ∀ {cs w e}, I cs w none → G'.stage w e → G.stage w e)
    (hcollect : ∀ {cs w}, I cs w none → G'.collect w → G.collect w)
    (hflush : ∀ {cs w d}, I cs w none → G'.flush d w → G.flush d w)
    (hspawn : ∀ {cs w} {p : Pending}, I cs w (some (.batch p.bare)) → G'.spawn w p → G.spawn w p) :
    Keeper G' I E :=
  { K with
    stage := fun h hg => K.stage h (hstage h hg)
    collect := fun h hg => K.collect h (hcollect h hg)
    flush := fun h hg => K.flush h (hflush h hg)
    takeOff := fun h hp hg hf => K.takeOff h hp (hspawn h hg) hf }

theorem FullKeeper.weaken {G G' : Guards} {I : List Change → World → Option Held → Prop}
    {E : List Change → World → Prop} (K : FullKeeper G I E)
    (hstage : ∀ {cs w e}, I cs w none → G'.stage w e → G.stage w e)
    (hcollect : ∀ {cs w}, I cs w none → G'.collect w → G.collect w)
    (hflush : ∀ {cs w d}, I cs w none → G'.flush d w → G.flush d w)
    (hspawn : ∀ {cs w} {p : Pending}, I cs w (some (.batch p.bare)) → G'.spawn w p → G.spawn w p) :
    FullKeeper G' I E :=
  { K with toKeeper := K.toKeeper.weaken hstage hcollect hflush hspawn }

/-! ## The steps a call is made of -/

namespace World

/-- An inline flush takes the steps a commit takes. -/
theorem flushMaybeElsewhere_eq (w : World) (elsewhere : Bool) :
    w.flushMaybeElsewhere elsewhere = (w.flushPrepare elsewhere true).bind fun w p =>
      (w.commitAlive p).bind fun w _ =>
        match p.staged with
        | none => .ok w ()
        | some (number, generation, staged) =>
            if !elsewhere || MAX_BUILDING ≤ w.building.flights.length then
              (w.commitBuild p).bind fun w live =>
                match live with
                | none => .ok w ()
                | some live => (w.installWritten live).saveMeta
            else w.takeOff number generation staged := by
  unfold flushMaybeElsewhere
  congr 1
  funext w p
  unfold commitAlive
  simp only
  cases hok : (writeAlive w.disk p.alive).2 with
  | false => rfl
  | true =>
    cases hs : p.staged with
    | none => rfl
    | some s =>
      obtain ⟨number, generation, staged⟩ := s
      simp only [Search.Outcome.bind, Search.Outcome.ok, if_true, Bool.not_true,
        Bool.false_eq_true, if_false]
      split
      · unfold commitBuild
        simp only [hs]
        cases hl : (Live.write (writeAlive w.disk p.alive).1 number generation (build staged)).2 with
        | none => rfl
        | some live => rfl
      · rfl

theorem collected_building (w : World) (added failure : Bool) :
    (w.collected added failure).world.building = w.building := by
  unfold collected
  simp only
  split
  · unfold Search.Outcome.bind
    split
    · exact (saveMeta_same _).building
    · split <;> exact (saveMeta_same _).building
  · split <;> rfl

theorem collectFrom_landed (rest : List Landed) :
    ∀ (w : World) (added failure : Bool), w.building.landed = [] →
      (w.collectFrom added failure rest).Then fun w' _ =>
        w'.building.landed = [] ∧ w'.building.jobs = w.building.jobs := by
  induction rest with
  | nil =>
    intro w added failure hl _ _
    unfold collectFrom
    rw [collected_building]
    exact ⟨hl, rfl⟩
  | cons d rest ih =>
    intro w added failure hl
    cases d with
    | built number live =>
      unfold collectFrom
      simp only
      generalize (if (List.find? (fun x => decide (x.number = number)) w.building.flights).any
          (fun f => !f.doomed.isEmpty || !f.gone.isEmpty) = true then
          w.disk.writeAlive number
            (arrive (List.find? (fun x => decide (x.number = number)) w.building.flights) live).alive
        else (w.disk, true)) = r
      split
      · exact Search.Outcome.then_err _ _
      · exact ih _ true failure hl
    | failed number rows => exact ih _ added true hl

/-- Every finished build is in. -/
theorem collect_landed (w : World) :
    w.collect.Then fun w' _ => w'.building.landed = [] ∧ w'.building.jobs = w.building.jobs := by
  unfold collect
  simp only
  split
  · rename_i h
    exact (Search.Outcome.then_ok _ _ _).mpr ⟨List.isEmpty_iff.mp h, rfl⟩
  · exact collectFrom_landed _ _ _ _ rfl

/-- Nothing is in the air once a caller has waited. -/
theorem settle_idle (w : World) :
    w.settle.Then fun w' _ => w'.building.jobs = [] ∧ w'.building.landed = [] := by
  intro _ h
  obtain ⟨h1, h2⟩ := collect_landed (w.building.jobs.foldl landJob w) _ h
  refine ⟨?_, h1⟩
  show (w.building.jobs.foldl landJob w).collect.world.building.jobs = []
  rw [h2, (foldl_landJob_frame w.building.jobs w).2.2]
  simp only [List.filter_eq_nil_iff, List.contains_iff_mem, List.mem_map, Bool.not_eq_true',
    Bool.not_eq_false]
  exact fun j hj => ⟨j, hj, rfl⟩

theorem collect_idle {w : World} (h : w.building.landed = []) : w.collect = .ok w () := by
  unfold collect
  simp [h]

/-- What a flush leaves is what was lifted out of it, and what is owed to the disk. -/
theorem flushTake_then {w : World} {discretionary durable : Bool} {touched : List Nat} :
    (w.flushTake discretionary durable touched).Then fun w' p =>
      ({ w with inner := (w.inner.liftOut discretionary durable touched).1 } : World).Same w' ∧
        p.staged = (w.inner.liftOut discretionary durable touched).2.1.staged ∧
        p.prefixes = (w.inner.liftOut discretionary durable touched).2.1.prefixes := by
  unfold flushTake
  generalize w.inner.liftOut discretionary durable touched = lifted
  obtain ⟨inner, pending, gone⟩ := lifted
  simp only
  have hsame : ({ w with inner } : World).Same (if (durable && inner.metaDirty) = true then
      ({ w with inner } : World).saveMeta else Search.Outcome.ok { w with inner } ()).world := by
    split
    · exact saveMeta_same _
    · exact Same.refl _
  generalize (if (durable && inner.metaDirty) = true then ({ w with inner } : World).saveMeta
    else Search.Outcome.ok { w with inner } ()) = saved at hsame
  cases hv : saved.val with
  | none => exact Search.Outcome.then_err _ _
  | some u => exact (Search.Outcome.then_ok _ _ _).mpr ⟨hsame, rfl, rfl⟩

/-- A flush that is not left to a full buffer leaves nothing waiting. -/
theorem flushStaged_empty (w : World) (durable : Bool) :
    (w.flushStaged false durable).Then fun w' _ =>
      w'.inner.staged = [] ∧ w'.inner.hiddenPrefixes.paths = [] ∧ w'.building.jobs = w.building.jobs ∧
        w'.building.landed = w.building.landed ∧ w'.inner.opened = w.inner.opened := by
  unfold flushStaged
  split
  · rename_i h
    simp only [Bool.and_eq_true, List.isEmpty_iff, PrefixSet.isEmpty_iff] at h
    obtain ⟨⟨h1, h2⟩, -⟩ := h
    split
    · refine Search.Outcome.Then.bind fun _ _ => (Search.Outcome.then_ok _ _ _).mpr ?_
      have hs := saveMeta_same w
      rw [hs.staged, hs.hidden, hs.building, hs.opened]
      exact ⟨h1, h2, rfl, rfl, rfl⟩
    · exact (Search.Outcome.then_ok _ _ _).mpr ⟨h1, h2, rfl, rfl, rfl⟩
  · simp only
    refine fun p hp => ?_
    have hs := (flushTake_then p hp).1
    beta_reduce
    rw [hs.staged, hs.hidden, hs.building, hs.opened]
    have hst := Inner.liftOut_staged ({ w.killHidden.1 with
      inner := w.killHidden.1.inner.spareUnchanged } : World).killReplaced.1.inner false durable
      (w.killHidden.2 ++ ({ w.killHidden.1 with
        inner := w.killHidden.1.inner.spareUnchanged } : World).killReplaced.2)
    have hre := Inner.liftOut_rest ({ w.killHidden.1 with
      inner := w.killHidden.1.inner.spareUnchanged } : World).killReplaced.1.inner false durable
      (w.killHidden.2 ++ ({ w.killHidden.1 with
        inner := w.killHidden.1.inner.spareUnchanged } : World).killReplaced.2)
    refine ⟨?_, ?_, (killHidden_building w).1, (killHidden_building w).2, ?_⟩
    · rcases hst with ⟨h1, -, -, -, h5⟩ | ⟨h1, -⟩
      · rcases h5 with h5 | ⟨h5, -⟩
        · exact h1.trans h5
        · cases h5
      · exact h1
    · simp only [hre.2.1]
      rfl
    · simp only [hre.2.2.2.2.2.2]
      rw [killReplaced_frame]
      simp only
      rw [Inner.spareUnchanged_frame, killHidden_frame]

/-- What was published leaves the buffer as the flush left it. -/
theorem publishInstall_waiting (w : World) (p : Pending) :
    (w.publishInstall p).Then fun w' _ =>
      w'.inner.staged = w.inner.staged ∧ w'.inner.hiddenPrefixes = w.inner.hiddenPrefixes ∧
        w'.building = w.building ∧ w'.inner.opened = w.inner.opened := by
  unfold publishInstall
  split
  · exact (Search.Outcome.then_ok _ _ _).mpr ⟨rfl, rfl, rfl, rfl⟩
  · simp only
    split
    · exact Search.Outcome.then_err _ _
    · exact (Search.Outcome.then_ok _ _ _).mpr ⟨rfl, rfl, rfl, rfl⟩

/-- A publish under the lock leaves nothing waiting. -/
theorem publishLocked_empty {w : World} (hl : w.building.landed = []) :
    w.publishLocked.Then fun w' _ =>
      w'.inner.staged = [] ∧ w'.inner.hiddenPrefixes.paths = [] ∧
        w'.building.jobs = w.building.jobs ∧ w'.building.landed = [] ∧
        w'.inner.opened = w.inner.opened := by
  unfold publishLocked publishPrepare flushPrepare
  rw [collect_idle hl]
  refine Search.Outcome.Then.bind (Search.Outcome.Then.bind fun p hp => ?_)
  obtain ⟨h1, h2, h3, h4, h5⟩ := flushStaged_empty w false p hp
  refine (Search.Outcome.then_ok _ _ _).mpr fun a ha => ?_
  obtain ⟨i1, i2, i3, i4⟩ := publishInstall_waiting _ _ a ha
  rw [i1, i2, i3, i4]
  exact ⟨h1, h2, h3, h4.trans hl, h5⟩

/-! ## Segments keep their stamps -/

/-- Nothing but the list of segments moved: the segments there were, and new ones under new
numbers. -/
structure Aged (w w' : World) : Prop where
  opened : w'.inner.opened = w.inner.opened
  generation : w'.inner.generation = w.inner.generation
  seen : w'.inner.seen = w.inner.seen
  staged : w'.inner.staged = w.inner.staged
  hidden : w'.inner.hiddenPrefixes = w.inner.hiddenPrefixes
  building : w'.building = w.building
  nextSegment : w.inner.nextSegment ≤ w'.inner.nextSegment
  stamps : ∀ l' ∈ w'.inner.segments, l'.number < w.inner.nextSegment →
    ∃ l ∈ w.inner.segments, l.number = l'.number ∧ l.generation = l'.generation

namespace Aged

theorem trans {w₁ w₂ w₃ : World} (h : w₁.Aged w₂) (h' : w₂.Aged w₃) : w₁.Aged w₃ where
  opened := h'.opened.trans h.opened
  generation := h'.generation.trans h.generation
  seen := h'.seen.trans h.seen
  staged := h'.staged.trans h.staged
  hidden := h'.hidden.trans h.hidden
  building := h'.building.trans h.building
  nextSegment := h.nextSegment.trans h'.nextSegment
  stamps l hl hn := by
    obtain ⟨l', hl', h1, h2⟩ := h'.stamps l hl (lt_of_lt_of_le hn h.nextSegment)
    obtain ⟨l'', hl'', h3, h4⟩ := h.stamps l' hl' (by rw [h1]; exact hn)
    exact ⟨l'', hl'', h3.trans h1, h4.trans h2⟩

theorem of_same {w w' : World} (h : w.Same w') : w.Aged w' :=
  ⟨h.opened, h.generation, h.seen, h.staged, h.hidden, h.building, h.nextSegment,
    fun l hl _ => ⟨l, by rwa [← h.segments], rfl, rfl⟩⟩

theorem refl (w : World) : w.Aged w := of_same (Same.refl w)

theorem uniform {w w' : World} (h : w.Aged w') {which : List Nat} (hu : w.Uniform which)
    (hn : ∀ n ∈ which, n < w.inner.nextSegment) : w'.Uniform which := by
  intro ho l hl l' hl' hm hm'
  rw [h.opened] at ho
  obtain ⟨k, hk, h1, h2⟩ := h.stamps l hl (hn _ hm)
  obtain ⟨k', hk', h3, h4⟩ := h.stamps l' hl' (hn _ hm')
  rw [← h2, ← h4]
  exact hu ho k hk k' hk' (h1 ▸ hm) (h3 ▸ hm')

end Aged

/-- A fold that is overtaken changes nothing; one that is not puts its segment in the list. -/
theorem foldPublish_cases (w : World) (which : List Nat) (number : Nat)
    (snapshot : List (Nat × Nat)) (folded : Option Live) (durable : Bool) :
    let w' := (w.foldPublish which number snapshot folded durable).world
    (w.foldCurrent which snapshot = false ∧ ∃ disk, w' = { w with disk }) ∨
      (w.foldCurrent which snapshot = true ∧
        ({ w with inner := w.inner.putFolded which number folded durable } : World).Same w') := by
  unfold foldPublish
  split
  · rename_i h
    refine Or.inl ⟨by simpa using h, ?_⟩
    split
    · exact ⟨_, rfl⟩
    · exact ⟨w.disk, rfl⟩
  · rename_i h
    refine Or.inr ⟨by simpa using h, ?_⟩
    simp only
    split
    · unfold Search.Outcome.bind
      split <;> exact saveMeta_same _
    · exact Same.refl _

/-- What a fold builds: all of its rows, or nothing where there are none. -/
theorem foldWrite_spec {w : World} (number : Nat) {input : FoldInput} (durable : Bool)
    {es : List Entry} (hb : input.bytes = buildSorted es) :
    (∃ disk, (w.foldWrite number input durable).world = { w with disk }) ∧
      (w.foldWrite number input durable).Then fun _ folded =>
        (folded = none ∧ es = []) ∨
          folded = some (.ofBytes number input.generation (buildSorted es)) := by
  unfold foldWrite
  rw [hb]
  split
  · rename_i h
    refine ⟨⟨w.disk, rfl⟩, (Search.Outcome.then_ok _ _ _).mpr (Or.inl ⟨rfl, ?_⟩)⟩
    simp only [Bool.or_eq_true, List.isEmpty_iff, buildSorted_alive, List.replicate_eq_nil_iff] at h
    rcases h with h | h
    · have hlen := @buildSorted_rows es
      unfold Segment.rows at hlen
      rw [h] at hlen
      exact List.length_eq_zero_iff.mp hlen.symm
    · exact List.length_eq_zero_iff.mp h
  · split
    · simp only
      split
      · exact ⟨⟨_, rfl⟩, Search.Outcome.then_err _ _⟩
      · rename_i l hl
        refine ⟨⟨_, rfl⟩, (Search.Outcome.then_ok _ _ _).mpr (Or.inr ?_)⟩
        have := Live.write_eq _ _ _ _ (Live.build_full es) _ hl
        rw [Live.fromBytes_buildSorted] at this
        exact this.symm
    · rw [Live.fromBytes_buildSorted]
      exact ⟨⟨w.disk, rfl⟩, (Search.Outcome.then_ok _ _ _).mpr (Or.inr rfl)⟩

/-- What a fold leaves: a number claimed, or the merged segment in the list besides. -/
theorem foldTo_cases (w : World) (which : List Nat) (durable : Bool) :
    (∃ disk m dirty, w.inner.nextSegment ≤ m ∧ (w.foldTo which durable).world =
      { w with disk, inner := { w.inner with nextSegment := m, metaDirty := dirty } }) ∨
    ∃ disk input folded w₁, w₁ = { (w.foldClaim durable).1 with disk } ∧
      w.marked which = false ∧ w₁.foldBuild which = some input ∧
      ((folded = none ∧ mergeRows (w.inner.segments.filter fun l => which.contains l.number) = []) ∨
        folded = some (.ofBytes w.inner.nextSegment input.generation (buildSorted (mergeRows
          (w.inner.segments.filter fun l => which.contains l.number))))) ∧
      w₁.foldCurrent which input.snapshot = true ∧
      ({ w₁ with inner := w₁.inner.putFolded which w.inner.nextSegment folded durable } :
        World).Same (w.foldTo which durable).world := by
  unfold foldTo
  split
  · exact Or.inl ⟨w.disk, w.inner.nextSegment, w.inner.metaDirty, le_refl _, rfl⟩
  · rename_i hm
    simp only
    have hclaim : ∀ disk, ∃ m dirty, w.inner.nextSegment ≤ m ∧
        ({ (w.foldClaim durable).1 with disk } : World) =
          { w with disk, inner := { w.inner with nextSegment := m, metaDirty := dirty } } :=
      fun disk => ⟨w.inner.nextSegment + 1, w.inner.metaDirty || durable, Nat.le_succ _, rfl⟩
    cases hb : (w.foldClaim durable).1.foldBuild which with
    | none =>
      obtain ⟨m, dirty, h1, h2⟩ := hclaim w.disk
      exact Or.inl ⟨w.disk, m, dirty, h1, h2⟩
    | some input =>
      have hbytes : input.bytes = buildSorted (mergeRows
          (w.inner.segments.filter fun l => which.contains l.number)) := by
        unfold foldBuild at hb
        simp only at hb
        split at hb
        · cases hb
        · rw [← Option.some.inj hb]
          rfl
      obtain ⟨⟨disk, hd⟩, hthen⟩ := foldWrite_spec (w := (w.foldClaim durable).1)
        (w.foldClaim durable).2 durable hbytes
      obtain ⟨m, dirty, h1, h2⟩ := hclaim disk
      simp only
      unfold Search.Outcome.bind
      cases hv : ((w.foldClaim durable).1.foldWrite (w.foldClaim durable).2 input durable).val with
      | none => exact Or.inl ⟨disk, m, dirty, h1, hd.trans h2⟩
      | some folded =>
        simp only
        have hf := hthen folded hv
        generalize ((w.foldClaim durable).1.foldWrite (w.foldClaim durable).2 input durable).world =
          w₁ at hd
        rcases foldPublish_cases w₁ which (w.foldClaim durable).2 input.snapshot folded durable with
          ⟨-, disk', h'⟩ | ⟨hcur, hs⟩
        · obtain ⟨m, dirty, h1, h2⟩ := hclaim disk'
          refine Or.inl ⟨disk', m, dirty, h1, ?_⟩
          rw [h', hd]
          exact h2
        · refine Or.inr ⟨disk, input, folded, w₁, hd, by simpa using hm, ?_, hf, hcur, hs⟩
          rw [hd]
          exact hb

theorem foldTo_aged (w : World) (which : List Nat) (durable : Bool) :
    w.Aged (w.foldTo which durable).world := by
  rcases w.foldTo_cases which durable with ⟨disk, m, dirty, hm, h⟩ |
    ⟨disk, input, folded, w₁, rfl, -, -, hf, -, hs⟩
  · rw [h]
    exact ⟨rfl, rfl, rfl, rfl, rfl, rfl, hm, fun l hl _ => ⟨l, hl, rfl, rfl⟩⟩
  · refine ⟨hs.opened, hs.generation, hs.seen, hs.staged, hs.hidden, hs.building, ?_,
      fun l hl hn => ⟨l, ?_, rfl, rfl⟩⟩
    · exact le_trans (le_trans (Nat.le_succ _) (le_max_left _ _)) hs.nextSegment
    · rw [hs.segments] at hl
      rcases List.mem_append.mp ((sortSegments_perm _).mem_iff.mp hl) with hl | hl
      · exact List.mem_of_mem_filter hl
      · rcases hf with ⟨rfl, -⟩ | rfl
        · cases hl
        · rw [List.mem_singleton.mp hl] at hn
          exact absurd hn (lt_irrefl _)

theorem writeUnwritten_aged (w : World) (number : Nat) :
    w.Aged (w.writeUnwritten number).world := by
  unfold writeUnwritten
  cases hl : w.inner.segment? number with
  | none => exact Aged.refl w
  | some live =>
    simp only
    split
    · exact Aged.refl w
    · cases hw : (Live.write w.disk number live.generation live.bytes).2 with
      | none => exact Aged.of_same (same_disk w _)
      | some written =>
        simp only [Search.Outcome.ok]
        unfold adoptWritten
        have hseg : ({ w with disk := (Live.write w.disk number live.generation live.bytes).1 } :
            World).inner.segment? number = some live := hl
        rw [hseg]
        refine ⟨rfl, rfl, rfl, rfl, rfl, rfl, le_refl _, fun l hm _ => ?_⟩
        obtain ⟨l', hl', rfl⟩ := List.mem_map.mp hm
        by_cases hn : l'.number = number
        · rw [if_pos hn]
          obtain ⟨h1, h2⟩ := Live.write_stamp hw
          obtain ⟨h3, h4⟩ := Inner.mem_of_segment? hl
          exact ⟨live, h3, h4.trans h1.symm, h2.symm⟩
        · rw [if_neg hn]
          exact ⟨l', hl', rfl, rfl⟩

theorem aged_bind {α β : Type} {w : World} {r : Out α} {f : World → α → Out β}
    (h : w.Aged r.world) (hf : ∀ (w' : World) a, w'.Aged (f w' a).world) : w.Aged (r.bind f).world := by
  unfold Search.Outcome.bind
  cases r.val with
  | none => exact h
  | some a => exact h.trans (hf _ _)

theorem writeGroup_aged (group : List Nat) : ∀ w : World, w.Aged (w.writeGroup group).world := by
  induction group with
  | nil => exact Aged.refl
  | cons n group ih => exact fun w => aged_bind (w.writeUnwritten_aged n) fun w' _ => ih w'

theorem persistGroup_aged (w : World) (group : List Nat) :
    w.Aged (w.persistGroup group).world := by
  unfold persistGroup
  split
  · refine aged_bind (w.foldTo_aged group true) fun w' folded => ?_
    split
    · exact Aged.refl w'
    · exact writeGroup_aged group w'
  · exact writeGroup_aged group w

theorem persistGroups_aged (groups : List (List Nat)) :
    ∀ w : World, w.Aged (w.persistGroups groups).world := by
  induction groups with
  | nil => exact Aged.refl
  | cons group groups ih =>
    exact fun w => aged_bind (w.persistGroup_aged group) fun w' _ => ih w'

theorem persistUnwritten_aged (w : World) : w.Aged w.persistUnwritten.world := by
  refine aged_bind (persistGroups_aged _ w) fun w _ => ?_
  refine aged_bind (Aged.of_same (writeDirtyAlive_same w)) fun w _ => ?_
  split
  · exact Aged.of_same (saveMeta_same w)
  · exact Aged.refl w

/-! ## A commit leaves nothing waiting -/

/-- Nothing is staged, hidden or in the air. -/
structure Idle (w : World) : Prop where
  staged : w.inner.staged = []
  hidden : w.inner.hiddenPrefixes.paths = []
  jobs : w.building.jobs = []
  landed : w.building.landed = []

theorem Same.idle {w w' : World} (h : w.Same w') (hw : w.Idle) : w'.Idle :=
  ⟨h.staged ▸ hw.staged, h.hidden ▸ hw.hidden, h.building ▸ hw.jobs, h.building ▸ hw.landed⟩

theorem Aged.idle {w w' : World} (h : w.Aged w') (hw : w.Idle) : w'.Idle :=
  ⟨h.staged ▸ hw.staged, h.hidden ▸ hw.hidden, h.building ▸ hw.jobs, h.building ▸ hw.landed⟩

theorem commitPrepare_idle (w : World) : w.commitPrepare.Then fun w' _ => w'.Idle := by
  refine Search.Outcome.Then.bind fun a ha => ?_
  obtain ⟨hj, hl⟩ := w.settle_idle a ha
  unfold flushPrepare
  rw [collect_idle hl]
  refine fun p hp => ?_
  obtain ⟨h1, h2, h3, h4, -⟩ := flushStaged_empty _ true p hp
  exact ⟨h1, h2, h3.trans hj, h4.trans hl⟩

theorem commitAlive_idle {w : World} (h : w.Idle) (p : Pending) :
    (w.commitAlive p).Then fun w' _ => w'.Idle := by
  unfold commitAlive
  simp only
  split
  · exact (Search.Outcome.then_ok _ _ _).mpr ((same_disk w _).idle h)
  · exact Search.Outcome.then_err _ _

theorem commitBuild_idle {w : World} (h : w.Idle) (p : Pending) :
    (w.commitBuild p).Then fun w' _ => w'.Idle := by
  unfold commitBuild
  split
  · exact (Search.Outcome.then_ok _ _ _).mpr h
  · simp only
    split
    · exact Search.Outcome.then_err _ _
    · exact (Search.Outcome.then_ok _ _ _).mpr ((same_disk w _).idle h)

theorem commitWrite_idle {w : World} (h : w.Idle) (p : Pending) :
    (w.commitWrite p).Then fun w' _ => w'.Idle := by
  refine Search.Outcome.Then.bind fun a ha => ?_
  have h1 := commitAlive_idle h p a ha
  refine Search.Outcome.Then.bind fun live hl => ?_
  have h2 := commitBuild_idle h1 p live hl
  cases live with
  | none => exact (Search.Outcome.then_ok _ _ _).mpr h2
  | some live => exact fun _ _ => (saveMeta_same _).idle ⟨h2.staged, h2.hidden, h2.jobs, h2.landed⟩

theorem commit_idle (w : World) : w.commit.Then fun w' _ => w'.Idle := by
  refine Search.Outcome.Then.bind fun p hp => ?_
  refine Search.Outcome.Then.bind fun u hu => ?_
  have h := commitWrite_idle (w.commitPrepare_idle p hp) p u hu
  exact fun _ _ => (persistUnwritten_aged _).idle h

/-- The groups a persist folds have one stamp each. -/
theorem unwrittenGroups_uniform {w : World} (hnd : (w.inner.segments.map (·.number)).Nodup)
    (group : List Nat) (hg : group ∈ w.inner.unwrittenGroups) :
    w.Uniform group ∧ ∀ n ∈ group, n ∈ w.inner.segments.map (·.number) := by
  unfold Inner.unwrittenGroups at hg
  obtain ⟨g, hm, rfl⟩ := List.mem_map.mp (List.mem_of_mem_filter hg)
  clear hg
  unfold Inner.groups at hm
  have hinj := List.inj_on_of_nodup_map hnd
  cases ho : w.inner.opened with
  | none =>
    rw [ho] at hm
    rw [List.mem_singleton.mp hm]
    exact ⟨fun h => by simp [ho] at h, fun n hn => List.mem_of_mem_filter hn⟩
  | some o =>
    rw [ho] at hm
    simp only [List.mem_insertionSort] at hm
    obtain ⟨gen, -, rfl⟩ := List.mem_map.mp hm
    have hgen : ∀ l ∈ w.inner.segments,
        l.number ∈ ((w.inner.segments.filter (·.generation = gen)).map (·.number)).filter
          w.inner.unwritten.contains → l.generation = gen := by
      intro l hl hm
      obtain ⟨l', hl', hn⟩ := List.mem_map.mp (List.mem_of_mem_filter hm)
      obtain ⟨h1, h2⟩ := List.mem_filter.mp hl'
      rw [← hinj h1 hl hn]
      exact of_decide_eq_true h2
    refine ⟨fun _ l hl l' hl' h h' => (hgen l hl h).trans (hgen l' hl' h').symm, fun n hn => ?_⟩
    obtain ⟨l', hl', rfl⟩ := List.mem_map.mp (List.mem_of_mem_filter hn)
    exact List.mem_map_of_mem (List.mem_of_mem_filter hl')

end World

/-! ## What a keeper gives -/

namespace Keeper

variable {G : Guards} {I : List Change → World → Option Held → Prop}
  {E : List Change → World → Prop} (K : Keeper G I E)
include K

theorem flushPrepare {cs : List Change} {w : World} {d durable : Bool} (h : I cs w none)
    (hg : G.flushes d w) :
    (w.flushPrepare d durable).Meets (fun w p => I cs w (some (.batch p))) (E cs) :=
  (K.collect h hg.1).bind_then hg.2 fun _ _ hw hf => K.flush hw hf

theorem flushMaybeElsewhere {cs : List Change} {w : World} {elsewhere : Bool} (h : I cs w none)
    (hg : G.flushes elsewhere w) (hs : elsewhere = true → G.overflows w) :
    (w.flushMaybeElsewhere elsewhere).Meets (fun w _ => I cs w none) (E cs) := by
  have hspawn : (w.flushPrepare elsewhere true).Then fun w p =>
      (w.commitAlive p).Then fun w _ => elsewhere = true → G.spawn w p := by
    intro p hp u hu he
    subst he
    exact (hs rfl).2 p hp u hu
  rw [World.flushMaybeElsewhere_eq]
  refine (K.flushPrepare h hg).bind_then hspawn fun w p hp hspawn => ?_
  refine (K.commitAlive hp).bind_then hspawn fun w _ hw hspawn => ?_
  cases hs : p.staged with
  | none =>
    have hb := K.commitBuild hw
    unfold World.commitBuild at hb
    simpa [hs] using hb
  | some s =>
    obtain ⟨number, generation, staged⟩ := s
    simp only
    split
    · refine (K.commitBuild hw).bind fun w live hl => ?_
      cases live with
      | none => simpa using hl
      | some live => simpa using K.install (n := 0) hl (Nat.zero_le _)
    · rename_i hfew
      simp only [Bool.or_eq_true, Bool.not_eq_true', decide_eq_true_eq, not_or,
        Bool.not_eq_false, not_le] at hfew
      exact K.takeOff hw hs (hspawn hfew.1) hfew.2

/-- One change of a batch. -/
theorem applyChange {cs : List Change} {w : World} {report : ApplyReport} {c : Change}
    (h : I cs w none) (hg : G.change w c) :
    (w.applyChange report c).Meets (fun w _ => I (cs ++ [c]) w none) (E (cs ++ [c])) := by
  cases c with
  | upsert e =>
    have hs := K.stage h hg.1
    simp only [World.applyChange]
    split
    · rename_i hfull
      refine (K.flushMaybeElsewhere hs (hg.2 hfull).1 fun _ => hg.2 hfull).bind fun w _ hw => ?_
      exact (Search.Outcome.meets_ok _ _ _ _).mpr hw
    · exact (Search.Outcome.meets_ok _ _ _ _).mpr hs
  | removeSubtree path => exact (Search.Outcome.meets_ok _ _ _ _).mpr (K.hide h)
  | rescan path => exact (Search.Outcome.meets_ok _ _ _ _).mpr (K.rescan h)

/-- A batch: where it fails, some first part of it was applied. -/
theorem applyFrom (changes : List Change) : ∀ {cs : List Change} {w : World} {report : ApplyReport},
    I cs w none → G.changes w report changes →
      (w.applyFrom report changes).Meets (fun w _ => I (cs ++ changes) w none)
        fun w => ∃ done, done <+: changes ∧ E (cs ++ done) w := by
  induction changes with
  | nil =>
    intro cs w report h _
    refine (Search.Outcome.meets_ok _ _ _ _).mpr ?_
    rwa [List.append_nil]
  | cons c rest ih =>
    intro cs w report h hg
    have hone : (w.applyChange report c).Meets (fun w _ => I (cs ++ [c]) w none)
        fun w => ∃ done, done <+: c :: rest ∧ E (cs ++ done) w :=
      (K.applyChange h hg.1).mono (fun _ _ hw => hw) fun w hw =>
        ⟨[c], List.prefix_append [c] rest, hw⟩
    refine hone.bind_then hg.2 fun w report hw hrest => ?_
    refine (ih hw hrest).mono (fun w _ hw => ?_) fun w hw => ?_
    · simpa using hw
    · obtain ⟨done, hp, hE⟩ := hw
      exact ⟨c :: done, (List.prefix_cons_inj c).mpr hp, by simpa using hE⟩

theorem apply {cs changes : List Change} {w : World} (h : I cs w none)
    (hg : G.changes w .default changes) :
    (w.apply changes).Meets (fun w _ => I (cs ++ changes) w none)
      fun w => ∃ done, done <+: changes ∧ E (cs ++ done) w :=
  (K.applyFrom changes h hg).bind fun _ _ hw => (Search.Outcome.meets_ok _ _ _ _).mpr (K.told hw)

/-- The threads a caller waits for. -/
theorem landJobs (jobs : List Job) : ∀ {cs : List Change} {w : World}, I cs w none →
    (∀ j ∈ jobs, j ∈ w.building.jobs) → (jobs.map Job.number).Nodup →
      I cs (jobs.foldl World.landJob w) none := by
  induction jobs with
  | nil => exact fun h _ _ => h
  | cons job jobs ih =>
    intro cs w h hsub hnd
    obtain ⟨hne, hnd⟩ := List.nodup_cons.mp hnd
    refine ih (K.land h (hsub job List.mem_cons_self)) (fun j hj => ?_) hnd
    obtain ⟨disk, done, heq, -⟩ := w.landJob_cases job
    rw [heq]
    refine List.mem_filter.mpr ⟨hsub j (List.mem_cons_of_mem _ hj), ?_⟩
    simp only [ne_eq, decide_not, Bool.not_eq_true', decide_eq_false_iff_not]
    exact fun hjn => hne (hjn ▸ List.mem_map_of_mem hj)

theorem settle {cs : List Change} {w : World} (h : I cs w none) (hg : G.settles w) :
    w.settle.Meets (fun w _ => I cs w none) (E cs) :=
  K.collect (K.landJobs w.building.jobs h (fun _ hj => hj) (K.numbered h).2.2) hg

theorem commitWrite {cs : List Change} {w : World} {p : Pending}
    (h : I cs w (some (.batch p))) : (w.commitWrite p).Meets (fun w _ => I cs w none) (E cs) := by
  refine (K.commitAlive h).bind fun w _ hw => ?_
  refine (K.commitBuild hw).bind fun w live hl => ?_
  cases live with
  | none => simpa using hl
  | some live => exact K.install hl (le_refl _)

theorem writeGroup {cs : List Change} (group : List Nat) : ∀ {w : World}, I cs w none →
    (w.writeGroup group).Meets (fun w _ => I cs w none) (E cs) := by
  induction group with
  | nil => exact fun h => (Search.Outcome.meets_ok _ _ _ _).mpr h
  | cons n group ih => exact fun h => (K.writeUnwritten h).bind fun _ _ hw => ih hw

theorem persistGroup {cs : List Change} {w : World} {group : List Nat} (h : I cs w none)
    (hu : w.Uniform group) : (w.persistGroup group).Meets (fun w _ => I cs w none) (E cs) := by
  unfold World.persistGroup
  split
  · refine (K.foldTo h hu).bind fun w folded hw => ?_
    split
    · exact (Search.Outcome.meets_ok _ _ _ _).mpr hw
    · exact K.writeGroup group hw
  · exact K.writeGroup group h

theorem persistGroups {cs : List Change} (groups : List (List Nat)) : ∀ {w : World}, I cs w none →
    (∀ g ∈ groups, w.Uniform g ∧ ∀ n ∈ g, n < w.inner.nextSegment) →
      (w.persistGroups groups).Meets (fun w _ => I cs w none) (E cs) := by
  induction groups with
  | nil => exact fun h _ => (Search.Outcome.meets_ok _ _ _ _).mpr h
  | cons group groups ih =>
    intro w h hg
    obtain ⟨hu, hn⟩ := hg group List.mem_cons_self
    have haged : (w.persistGroup group).Then fun w' _ => w.Aged w' :=
      fun _ _ => w.persistGroup_aged group
    refine (K.persistGroup h hu).bind_then haged fun w' _ hw' ha => ih hw' fun g hm => ?_
    obtain ⟨hu, hn⟩ := hg g (List.mem_cons_of_mem _ hm)
    exact ⟨ha.uniform hu hn, fun n hm => lt_of_lt_of_le (hn n hm) ha.nextSegment⟩

theorem persistMeta {cs : List Change} {w : World} (h : I cs w none) :
    w.persistMeta.Meets (fun w _ => I cs w none) (E cs) := by
  refine (K.writeDirtyAlive h).bind fun w _ hw => ?_
  split
  · exact K.saveMeta hw
  · exact (Search.Outcome.meets_ok _ _ _ _).mpr hw

theorem persistUnwritten {cs : List Change} {w : World} (h : I cs w none) :
    w.persistUnwritten.Meets (fun w _ => I cs w none) (E cs) := by
  obtain ⟨hnd, hlt, -⟩ := K.numbered h
  refine (K.persistGroups _ h fun g hg => ?_).bind fun _ _ hw => K.persistMeta hw
  obtain ⟨hu, hn⟩ := World.unwrittenGroups_uniform hnd g hg
  refine ⟨hu, fun n hm => ?_⟩
  obtain ⟨l, hl, rfl⟩ := List.mem_map.mp (hn n hm)
  exact hlt l hl

theorem commit {cs : List Change} {w : World} (h : I cs w none) (hg : G.commits w) :
    w.commit.Meets (fun w _ => I cs w none) (E cs) := by
  have hprep : w.commitPrepare.Meets (fun w p => I cs w (some (.batch p))) (E cs) :=
    (K.settle h hg.1).bind_then hg.2 fun _ _ hw hf => K.flushPrepare hw hf
  exact hprep.bind fun _ _ hp => (K.commitWrite hp).bind fun _ _ hw => K.persistUnwritten hw

theorem publishLocked {cs : List Change} {w : World} (h : I cs w none) (hg : G.flushes false w) :
    w.publishLocked.Meets (fun w _ => I cs w none) (E cs) := by
  have hprep : w.publishPrepare.Meets (fun w p => ∃ q : Pending, p = q.bare ∧
      I cs w (some (.batch q.bare))) (E cs) :=
    (K.flushPrepare h hg).bind fun _ p hp =>
      (Search.Outcome.meets_ok _ _ _ _).mpr ⟨p, rfl, K.oweAlive hp⟩
  refine hprep.bind ?_
  rintro w p ⟨q, rfl, hq⟩
  exact K.publishInstall hq

theorem publishNow {cs : List Change} {w : World} (h : I cs w none) (hg : G.commits w) :
    w.publishNow.Meets (fun w _ => I cs w none) (E cs) :=
  (K.settle h hg.1).bind_then hg.2 fun _ _ hw hf => K.publishLocked hw hf

theorem publish {cs : List Change} {w : World} (h : I cs w none) (hg : G.commits w) :
    w.publish.Meets (fun w _ => I cs w none) (E cs) := by
  unfold World.publish
  split
  · exact K.commit h hg
  · refine (K.publishNow h hg).bind fun w _ hw => ?_
    simp only
    split
    · exact K.persistUnwritten hw
    · exact (Search.Outcome.meets_ok _ _ _ _).mpr hw

theorem land' {cs : List Change} {w : World} (h : I cs w none) (number : Nat) :
    I cs (w.land number) none := by
  unfold World.land
  split
  · exact h
  · rename_i job hjob
    exact K.land h (List.mem_of_find?_eq_some hjob)

/-- A call that writes keeps what its steps keep. -/
theorem writes {cs : List Change} {w : World} {c : Call} (hc : c.writes = true) (h : I cs w none)
    (hg : G.call w c) :
    (c.out w).Meets (fun w _ => I (cs ++ c.changes) w none) fun w => ∃ cs', E cs' w := by
  have hsome : ∀ {r : Out Unit}, r.Meets (fun w _ => I cs w none) (E cs) →
      r.Meets (fun w _ => I (cs ++ []) w none) fun w => ∃ cs', E cs' w :=
    fun hr => hr.mono (fun _ _ hw => by rwa [List.append_nil]) fun _ hE => ⟨_, hE⟩
  cases c with
  | apply changes =>
    have hall : (w.apply changes).Meets (fun w _ => I (cs ++ changes) w none)
        fun w => ∃ cs', E cs' w :=
      (K.apply h hg).mono (fun _ _ hw => hw) fun _ ⟨_, _, hE⟩ => ⟨_, hE⟩
    show ((w.apply changes).bind fun w _ => .ok w ()).Meets _ _
    exact hall.bind fun w _ hw => (Search.Outcome.meets_ok _ _ _ _).mpr hw
  | commit => exact hsome (K.commit h hg)
  | publish => exact hsome (K.publish h hg)
  | land number => exact hsome ((Search.Outcome.meets_ok _ _ _ _).mpr (K.land' h number))
  | _ => cases hc

/-- A run of calls that write and do not fail. -/
theorem runWrites (hE : ∀ cs w, ¬ E cs w) (calls : List Call) :
    ∀ {cs : List Change} {w : World}, (∀ c ∈ calls, c.writes = true) → I cs w none →
      G.run w calls → I (cs ++ calls.flatMap Call.changes) (w.run calls) none := by
  induction calls with
  | nil => exact fun _ h _ => by rwa [List.flatMap_nil, List.append_nil]
  | cons c calls ih =>
    intro cs w hc h hg
    have hw := K.writes (hc c List.mem_cons_self) h hg.1
    obtain ⟨a, -, hw⟩ := (hw.mono (fun _ _ hw => hw) fun _ ⟨_, hE'⟩ => hE _ _ hE').returns
    have := ih (fun c' hc' => hc c' (List.mem_cons_of_mem _ hc')) hw hg.2
    rwa [List.append_assoc] at this

end Keeper

namespace WalkKeeper

variable {G : Guards} {I : List Change → World → Option Held → Prop}
  {E : List Change → World → Prop} (K : WalkKeeper G I E)
include K

theorem beginGeneration {cs : List Change} {w : World} (h : I cs w none) (hg : G.begins w) :
    w.beginGeneration.Meets (fun w _ => I [] w none) (E cs) := by
  have hsettled := K.toKeeper.settle h hg.1
  refine (hsettled.and_then w.settle_idle).bind_then hg.2 fun w _ hw hf => ?_
  obtain ⟨hw, hj, hl⟩ := hw
  have hempty := World.publishLocked_empty (w := w.dropMarks) hl
  refine (K.toKeeper.publishLocked (K.dropMarks hw) hf).bind_then hempty fun w' _ hw' he => ?_
  obtain ⟨h1, h2, h3, h4, h5⟩ := he
  exact (Search.Outcome.meets_ok _ _ _ _).mpr (K.openNext hw' h5 h1 h2 (h3.trans hj) h4)

theorem sweep {cs : List Change} {w : World} {source : SourceId} {under : List World.Root}
    {generation : Nat} {spare : PrefixSet} (h : I cs w none) (hg : G.sweeps w) :
    (w.sweep source under generation spare).Meets (fun w _ => I cs w none) (E cs) := by
  have hsettle : w.sweepSettle.Meets (fun w _ => I cs w none) (E cs) := by
    refine (K.toKeeper.settle h hg.1).bind_then hg.2 fun w _ hw hf => ?_
    exact (K.toKeeper.publishNow hw hf.1).bind_then hf.2 fun w _ hw hf =>
      K.toKeeper.publishLocked hw hf
  exact hsettle.bind fun _ _ hw => K.sweepJudge hw

end WalkKeeper

namespace FullKeeper

variable {G : Guards} {I : List Change → World → Option Held → Prop}
  {E : List Change → World → Prop} (K : FullKeeper G I E)
include K

theorem flushInline {cs : List Change} {w : World} (h : I cs w none) (hg : G.flushes false w) :
    w.flush.Meets (fun w _ => I cs w none) (E cs) := 
  K.toKeeper.flushMaybeElsewhere h hg fun he => by cases he

theorem forget {cs : List Change} {w : World} {source : SourceId} (h : I cs w none)
    (hg : G.commits w) : (w.forget source).Meets (fun w _ => I cs w none) (E cs) := by
  refine (K.toKeeper.settle h hg.1).bind_then hg.2 fun w _ hw hf => ?_
  refine (K.flushInline hw hf).bind fun w _ hw => ?_
  have hk : I cs (w.forgetKill source).1 none := K.forgetKill hw
  simp only
  split
  · exact (Search.Outcome.meets_ok _ _ _ _).mpr hk
  · refine (K.writeDirtyAlive hk).bind fun w _ hw => ?_
    refine (K.saveMeta (K.emptied hw)).bind fun w _ hw => ?_
    exact (Search.Outcome.meets_ok _ _ _ _).mpr hw

theorem foldGroups {cs : List Change} {durable : Bool} (groups : List (List Nat)) :
    ∀ {w : World}, I cs w none →
      (w.foldGroups durable groups).Meets (fun w _ => I cs w none) (E cs) := by
  induction groups with
  | nil => exact fun h => (Search.Outcome.meets_ok _ _ _ _).mpr h
  | cons group groups ih => exact fun h => (K.foldAny h).bind fun _ _ hw => ih hw

theorem rebuildGroups {cs : List Change} (groups : List (List Nat)) :
    ∀ {w : World}, I cs w none →
      (w.rebuildGroups groups).Meets (fun w _ => I cs w none) (E cs) := by
  induction groups with
  | nil => exact fun h => (Search.Outcome.meets_ok _ _ _ _).mpr h
  | cons group groups ih =>
    refine fun h => (K.foldAny h).bind fun w folded hw => ?_
    split
    · exact ih hw
    · exact (Search.Outcome.meets_ok _ _ _ _).mpr hw

theorem compactLoop {cs : List Change} (fuel : Nat) : ∀ {w : World}, I cs w none →
    (w.compactLoop fuel).Meets (fun w _ => I cs w none) (E cs) := by
  induction fuel with
  | zero => exact fun h => (Search.Outcome.meets_ok _ _ _ _).mpr h
  | succ fuel ih =>
    intro w h
    unfold World.compactLoop
    split
    · exact (Search.Outcome.meets_ok _ _ _ _).mpr h
    · refine (K.foldAny h).bind fun w folded hw => ?_
      split
      · exact ih hw
      · exact (Search.Outcome.meets_ok _ _ _ _).mpr hw

theorem maintain {cs : List Change} {w : World} {level : World.Maintenance} (h : I cs w none)
    (hg : G.commits w) : (w.maintain level).Meets (fun w _ => I cs w none) (E cs) := by
  refine (K.toKeeper.settle h hg.1).bind_then hg.2 fun w _ hw hf => ?_
  refine (K.flushInline hw hf).bind fun w _ hw => ?_
  cases level with
  | flush => exact K.toKeeper.persistUnwritten hw
  | idle => exact K.toKeeper.persistUnwritten hw
  | compact => exact (K.foldGroups _ hw).bind fun _ _ hw => K.compactLoop _ hw
  | rebuild => exact (K.rebuildGroups _ hw).bind fun _ _ hw => K.toKeeper.persistUnwritten hw

/-- Every call keeps what its steps keep. -/
theorem call {cs : List Change} {w : World} (c : Call) (h : I cs w none) (hg : G.call w c) :
    (c.out w).Meets (fun w _ => I (c.log cs) w none) fun w => ∃ cs', E cs' w := by
  have hdrop : ∀ {α : Type} {ds : List Change} {r : Out α},
      r.Meets (fun w _ => I ds w none) (E cs) →
        (r.bind fun w _ => (.ok w () : Out Unit)).Meets (fun w _ => I ds w none)
          fun w => ∃ cs', E cs' w :=
    fun hr => (hr.mono (fun _ _ hw => hw) fun _ hE => ⟨_, hE⟩).bind fun _ _ hw =>
      (Search.Outcome.meets_ok _ _ _ _).mpr hw
  have hsome : ∀ {r : Out Unit}, r.Meets (fun w _ => I cs w none) (E cs) →
      r.Meets (fun w _ => I cs w none) fun w => ∃ cs', E cs' w :=
    fun hr => hr.mono (fun _ _ hw => hw) fun _ hE => ⟨_, hE⟩
  cases hc : c.writes with
  | true =>
    rw [Call.log_of_writes hc]
    exact K.toKeeper.writes hc h hg
  | false =>
    cases c with
    | persist => exact hsome (K.toKeeper.persistUnwritten h)
    | fold which durable => exact hdrop (K.foldAny h)
    | beginGeneration => exact hdrop (K.toWalkKeeper.beginGeneration h hg)
    | sweep source under generation spare => exact hdrop (K.toWalkKeeper.sweep h hg)
    | abandonGeneration generation => exact (Search.Outcome.meets_ok _ _ _ _).mpr (K.abandon h)
    | forget source => exact hdrop (K.forget h hg)
    | maintain level => exact hsome (K.maintain h hg)
    | _ => cases hc

/-- Every run keeps it, when a call that fails leaves it too. -/
theorem run (hE : ∀ {cs w}, E cs w → ∃ cs', I cs' w none) (calls : List Call) :
    ∀ {cs : List Change} {w : World}, I cs w none → G.run w calls →
      ∃ cs', I cs' (w.run calls) none := by
  induction calls with
  | nil => exact fun h _ => ⟨_, h⟩
  | cons c calls ih =>
    intro cs w h hg
    have hc := K.call c h hg.1
    have hw : ∃ cs', I cs' (c.out w).world none := by
      cases hv : (c.out w).val with
      | none =>
        obtain ⟨cs', he⟩ := hc.2 hv
        exact hE he
      | some a => exact ⟨_, hc.1 a hv⟩
    obtain ⟨cs', hw⟩ := hw
    exact ih hw hg.2

end FullKeeper

end Scour
