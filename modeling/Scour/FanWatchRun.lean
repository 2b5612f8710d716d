import Scour.FanWatchSteps

/-!
# A directory learned stays known

Every directory below the roots that the rules do not exclude is known to the map, or due
(`Inv.due`), in every state of a careful run.  So the watcher resolves every one whenever nothing is
queued, owed or running (`run_resolves`).

A cover can lose one: its walk has read a directory the map does not know, something is made in that,
and the event is taken, and dropped, before what the walk found is inserted (`not_run_resolves`).
-/

namespace Scour

open Search

namespace FanWatch

variable {U : Unicode} {K : Kernel} {k p : DirKey} {e : Made} {path : Text} {s s' : State}

/-! ## Runs -/

theorem Inv.step (h : Inv U K s) {a : Act} (hlegal : Legal U s a) (hcare : Careful U s a)
    (hstep : FanWatch.step U K s a = some s') : Inv U K s' := by
  cases a with
  | mkdir e =>
    cases hstep
    exact h.mkdir hlegal hcare
  | window n order => exact h.window hcare hstep
  | cover i => exact h.coverStart hstep
  | coverRead => exact h.coverRead hstep
  | coverInsert => exact h.coverInsert hcare hstep
  | retune rules => exact h.retuneStart hlegal hstep
  | retuneRead i => exact h.retuneRead hstep
  | replace order => exact h.replace hcare hstep

/-- Where nothing is due, everything is known. -/
theorem Inv.resolves (h : Inv U K s) (hquiet : Quiet s) : Resolves U K s := by
  obtain ⟨hqueue, howed, hjob⟩ := hquiet
  intro k path hat hin hadm
  rcases h.due k path hat hin hadm with hk | ⟨top, htop, -⟩ | ⟨w, hw, -⟩ | ⟨f, hf, -⟩
  · exact h.map.pathOf_known h.disk hk hat (h.shallow k path hat)
  · rw [howed] at htop
    cases htop
  · rw [hjob] at hw
    cases hw
  · rw [hqueue] at hf
    cases hf

theorem Started.inv {calls : List InsertCall} (h : Started U K s calls)
    (hcare : CarefulStart U s calls) : Inv U K s := by
  have hcalls : ∀ c ∈ calls, CallOk s.disk s.roots c := by
    intro c hc
    obtain ⟨k, path, hat, hin, -, rfl⟩ := (h.whole c).mp hc
    exact callOk_callAt h.disk hat hin
  obtain ⟨m, hm, hmap, hknown⟩ :=
    insertCalls_some h.disk (mapOk_empty K s.disk s.roots) hcalls hcare.fits
  obtain rfl := Option.some.inj (h.map.symm.trans hm)
  refine
    { disk := h.disk
      roots := h.roots
      old := fun root hroot a hat hq => ?_
      made := fun f hf => ?_
      order := ?_
      shallow := hcare.shallow
      closed := hcare.closed
      map := hmap
      owed := fun top htop => ?_
      cover := fun w hw => ?_
      retune := fun w hw => ?_
      due := fun k path hat hin hadm => Or.inl ?_
      kept := fun w hw => ?_ }
  · obtain ⟨f, hf, -⟩ := hq
    rw [h.queue] at hf
    cases hf
  · rw [h.queue] at hf
    cases hf
  · rw [h.queue]
    exact List.Pairwise.nil
  · rw [h.owed] at htop
    cases htop
  · rw [h.job] at hw
    cases hw
  · rw [h.job] at hw
    cases hw
  · exact (hknown k).mpr (Or.inr ⟨_, (h.whole _).mpr ⟨k, path, hat, hin, hadm, rfl⟩, rfl⟩)
  · rw [h.job] at hw
    cases hw

/-- **A directory below the roots that the rules do not exclude is resolved by its path** whenever
nothing is queued, owed or running, after any careful run. -/
theorem run_resolves {s₀ : State} {calls : List InsertCall} (hstart : Started U K s₀ calls)
    (hcare : CarefulStart U s₀ calls)
    (hrun : Run U K (fun s a => Legal U s a ∧ Careful U s a) s₀ s) (hquiet : Quiet s) :
    Resolves U K s := by
  have hinv : Inv U K s := by
    clear hquiet
    induction hrun with
    | start => exact hstart.inv hcare
    | step a _ hok hstep ih => exact ih.step hok.1 hok.2 hstep
  exact hinv.resolves hquiet

/-! ## A directory made behind a cover's back -/

/-- Steps one after another, each of which passes a test. -/
def runIf (U : Unicode) (K : Kernel) (check : State → Act → Bool) (s : State) :
    List Act → Option State
  | [] => some s
  | a :: as => if check s a then (step U K s a).bind fun s' => runIf U K check s' as else none

theorem Run.runIf {ok : State → Act → Prop} {check : State → Act → Bool} {P : State → Prop}
    (hcheck : ∀ s a s', P s → check s a = true → FanWatch.step U K s a = some s' → ok s a ∧ P s')
    {s₀ : State} {acts : List Act} : ∀ {s s' : State}, P s → Run U K ok s₀ s →
      FanWatch.runIf U K check s acts = some s' → Run U K ok s₀ s' := by
  induction acts with
  | nil =>
    intro s s' _ hrun h
    cases h
    exact hrun
  | cons a as ih =>
    intro s s' hp hrun h
    unfold FanWatch.runIf at h
    split at h
    · rename_i ha
      obtain ⟨s₁, hs₁, h⟩ := Option.bind_eq_some_iff.mp h
      obtain ⟨hok, hp₁⟩ := hcheck s a s₁ hp ha hs₁
      exact ih hp₁ (.step a hrun hok hs₁) h
    · cases h

/-- Can this directory be made there? -/
def isFree (x : DirDisk) (e : Made) : Bool :=
  decide ((e.parent = x.top ∨ ∃ f ∈ x.made, f.key = e.parent) ∧
    (e.key ≠ x.top ∧ ∀ f ∈ x.made, f.key ≠ e.key) ∧ ((e.name ≠ [] ∧ '/' ∉ e.name) ∧ e.name ≠ ['.']) ∧
      ∀ f ∈ x.made, ¬ (f.parent = e.parent ∧ f.name = e.name))

theorem free_of_isFree {x : DirDisk} (hx : x.Ok) (h : isFree x e = true) : x.Free e := by
  obtain ⟨hparent, hkey, hname, hapart⟩ := of_decide_eq_true h
  refine ⟨?_, hkey, hname, hapart⟩
  rcases hparent with hparent | ⟨f, hf, hparent⟩
  · exact ⟨['/'], 0, hparent ▸ .top⟩
  · obtain ⟨path, hat⟩ := hx.at_of_mem f hf
    exact ⟨_, hparent ▸ hat.child hx hf⟩

/-- A directory that can be made, or a step that leaves the rules alone. -/
def isLegal (s : State) : Act → Bool
  | .mkdir e => isFree s.disk e
  | .retune _ => false
  | _ => true

theorem legal_of_isLegal (a : Act) (hx : s.disk.Ok) (h : isLegal s a = true)
    (hstep : step U K s a = some s') : Legal U s a ∧ s'.disk.Ok := by
  have hother : ∀ {α : Type} {o : Option α} {f : α → State}, o.map f = some s' →
      (∀ b, (f b).disk = s.disk) → s'.disk.Ok := by
    intro α o f hmap hf
    obtain ⟨b, -, rfl⟩ := Option.map_eq_some_iff.mp hmap
    rw [hf]
    exact hx
  cases a with
  | mkdir e =>
    cases hstep
    exact ⟨free_of_isFree hx h, .grow hx (free_of_isFree hx h)⟩
  | window n order =>
    obtain ⟨⟨m, -, rfl⟩, -⟩ := step_window hstep
    exact ⟨trivial, hx⟩
  | retune rules => cases h
  | cover i =>
    refine ⟨trivial, ?_⟩
    simp only [step] at hstep
    split at hstep
    · exact hother hstep fun _ => rfl
    · cases hstep
  | coverRead =>
    refine ⟨trivial, ?_⟩
    simp only [step] at hstep
    split at hstep
    · exact hother hstep fun _ => rfl
    · cases hstep
  | coverInsert =>
    refine ⟨trivial, ?_⟩
    simp only [step] at hstep
    split at hstep
    · split at hstep
      · exact hother hstep fun _ => rfl
      · cases hstep
    · cases hstep
  | retuneRead i =>
    refine ⟨trivial, ?_⟩
    simp only [step] at hstep
    split at hstep
    · exact hother hstep fun _ => rfl
    · cases hstep
  | replace order =>
    refine ⟨trivial, ?_⟩
    simp only [step] at hstep
    split at hstep
    · split at hstep
      · exact hother hstep fun _ => rfl
      · cases hstep
    · cases hstep

/-- Devices told apart by their first number. -/
def plainKernel : Kernel where
  tag := fun d => ⟨(d + 1, 0), none⟩
  event := fun d => ⟨(d + 1, 0), none⟩
  told := fun d e => by
    unfold FsTag.holds
    simp

def noRules : Rules := ⟨[], [], [], [], [], [], []⟩

/-- One disk with nothing on it but its root, watched. -/
def bareState (map : DirMap) : State where
  disk := ⟨⟨1, 1⟩, []⟩
  queue := []
  roots := [['/']]
  rules := noRules
  map := map
  owed := []
  job := none

def rootCall : InsertCall := ⟨⟨1, 1⟩, none, ['/']⟩

theorem noRules_admits (U : Unicode) (path : Text) : Admits U noRules path := by
  unfold Admits Rules.excludesPath Rules.allows Rules.seqWithin noRules
  simp

theorem bare_at {path : Text} (h : (⟨⟨1, 1⟩, []⟩ : DirDisk).At k path) :
    k = ⟨1, 1⟩ ∧ path = ['/'] := by
  rcases h.cases (.top _) with h | ⟨p, ppath, n, -, hmem, -⟩
  · exact h
  · cases hmem

theorem bare_started : ∃ map, insertCalls plainKernel ⟨⟨1, 1⟩, []⟩ .empty [rootCall] = some map ∧
    Started .asciiOnly plainKernel (bareState map) [rootCall] := by
  have hsome : (insertCalls plainKernel ⟨⟨1, 1⟩, []⟩ .empty [rootCall]).isSome = true := by
    decide +kernel
  obtain ⟨map, hmap⟩ := Option.isSome_iff_exists.mp hsome
  have hroot : (⟨⟨1, 1⟩, []⟩ : DirDisk).At ⟨1, 1⟩ ['/'] := ⟨0, .top⟩
  refine ⟨map, hmap, ?_⟩
  refine
    { disk := .top _
      roots := fun root hr => ⟨⟨1, 1⟩, by rw [List.mem_singleton.mp hr]; exact hroot⟩
      queue := rfl
      owed := rfl
      job := rfl
      map := hmap
      whole := fun c => ⟨fun hc => ?_, ?_⟩ }
  · rw [List.mem_singleton.mp hc]
    exact ⟨⟨1, 1⟩, ['/'], hroot, ⟨['/'], List.mem_singleton_self _, ⟨1, 1⟩, hroot, .self⟩,
      noRules_admits _ _, rfl⟩
  · rintro ⟨k, path, hat, -, -, rfl⟩
    obtain ⟨rfl, rfl⟩ := bare_at hat
    exact List.mem_singleton_self _

/-- `/a` and `/a/b` are made at once, and the second is left to the cover of the first; `/a/b/c` is
made when that has read `/a/b`, and its event is taken before the cover inserts what it found. -/
def behindCover : List Act :=
  [.mkdir ⟨⟨1, 2⟩, ⟨1, 1⟩, ['a']⟩, .mkdir ⟨⟨1, 3⟩, ⟨1, 2⟩, ['b']⟩, .window 2 [['/', 'a']], .cover 0,
    .coverRead, .coverRead, .mkdir ⟨⟨1, 4⟩, ⟨1, 3⟩, ['c']⟩, .window 1 [], .coverInsert]

/-- Nothing is left to do, and `/a/b/c` is not known. -/
def lostBehind (s : State) : Bool :=
  s.queue.isEmpty && s.owed.isEmpty && s.job.isNone &&
    decide (s.disk = ⟨⟨1, 1⟩, [⟨⟨1, 2⟩, ⟨1, 1⟩, ['a']⟩, ⟨⟨1, 3⟩, ⟨1, 2⟩, ['b']⟩,
      ⟨⟨1, 4⟩, ⟨1, 3⟩, ['c']⟩]⟩) &&
    decide (s.roots = [['/']]) && decide (s.rules = noRules) &&
    (s.map.pathOf 4 (plainKernel.event 1)).isNone

theorem behindCover_lost : ((insertCalls plainKernel ⟨⟨1, 1⟩, []⟩ .empty [rootCall]).bind fun map =>
    runIf .asciiOnly plainKernel isLegal (bareState map) behindCover).any lostBehind = true := by
  decide +kernel

/-- A run with nothing but steps that are legal ends with a directory unknown for good. -/
theorem not_run_resolves : ¬ ∀ (U : Unicode) (K : Kernel) (s₀ s : State) (calls : List InsertCall),
    Started U K s₀ calls → Run U K (Legal U) s₀ s → Quiet s → Resolves U K s := by
  intro h
  obtain ⟨map, hmap, hstart⟩ := bare_started
  have hlost := behindCover_lost
  rw [hmap, Option.bind_some] at hlost
  obtain ⟨s, hs, hlost⟩ := (Option.any_eq_true _ _).mp hlost
  have hrun := Run.runIf (fun s a s' => legal_of_isLegal a) hstart.disk (Run.start) hs
  unfold lostBehind at hlost
  simp only [Bool.and_eq_true, List.isEmpty_iff, Option.isNone_iff_eq_none, decide_eq_true_eq]
    at hlost
  obtain ⟨⟨⟨⟨⟨⟨hqueue, howed⟩, hjob⟩, hdisk⟩, hroots⟩, hrules⟩, hpath⟩ := hlost
  have hroot : s.disk.At ⟨1, 1⟩ ['/'] := ⟨0, by rw [hdisk]; exact .top⟩
  have hups : s.disk.up ⟨1, 2⟩ = some (⟨1, 1⟩, ['a']) ∧ s.disk.up ⟨1, 3⟩ = some (⟨1, 2⟩, ['b']) ∧
      s.disk.up ⟨1, 4⟩ = some (⟨1, 3⟩, ['c']) := by
    rw [hdisk]
    decide
  obtain ⟨h₂, h₃, h₄⟩ := hups
  have hat : s.disk.At ⟨1, 4⟩ (joinText (joinText (joinText ['/'] ['a']) ['b']) ['c']) := by
    refine ⟨3, .step (.step (.step ?_ h₂) h₃) h₄⟩
    rw [hdisk]
    exact .top
  have hin : Within s.disk s.roots ⟨1, 4⟩ := by
    refine ⟨['/'], by rw [hroots]; exact List.mem_singleton_self _, ⟨1, 1⟩, hroot, ?_⟩
    exact .step (.step (.step .self h₂) h₃) h₄
  have hresolved := h _ _ _ s _ hstart hrun ⟨hqueue, howed, hjob⟩ _ _ hat hin
    (by rw [hrules]; exact noRules_admits _ _)
  exact absurd (hresolved.symm.trans hpath) (Option.some_ne_none _)

/-- There is room, by computing it. -/
def isRoomy (m : DirMap) (paths : List Text) : Bool :=
  decide (∀ path ∈ paths, (utf8 path).length ≤ DirMap.NAME_MAX) &&
    decide (m.names.used + (paths.map fun path => (utf8 path).length).sum ≤ DirMap.NAME_ROOM) &&
    decide (m.nodes.length + 2 * paths.length < NO_PARENT)

theorem fits_of_isRoomy {m : DirMap} {paths : List Text} (h : isRoomy m paths = true) :
    Fits m paths := by
  unfold isRoomy at h
  simp only [Bool.and_eq_true, decide_eq_true_eq] at h
  exact ⟨h.1.1, h.1.2, h.2⟩

/-- Windows taken while no cover runs, and covers. -/
def isCareful (s : State) : Act → Bool
  | .window _ order =>
      s.job.isNone && isRoomy s.map ((order.filterMap (learned s.disk)).map InsertCall.path)
  | .cover _ => true
  | .coverRead => true
  | .coverInsert =>
      match s.job with
      | some (.cover w) => isRoomy s.map (w.found.map InsertCall.path)
      | _ => false
  | _ => false

theorem careful_of_isCareful (a : Act) (h : isCareful s a = true) : Legal U s a ∧ Careful U s a := by
  cases a with
  | mkdir e => cases h
  | window n order =>
    obtain ⟨hjob, hroom⟩ := Bool.and_eq_true_iff.mp h
    refine ⟨trivial, fits_of_isRoomy hroom, fun w hw => ?_⟩
    rw [hw] at hjob
    cases hjob
  | cover i => exact ⟨trivial, trivial⟩
  | coverRead => exact ⟨trivial, trivial⟩
  | coverInsert =>
    refine ⟨trivial, fun w hw => ?_⟩
    simp only [isCareful, hw] at h
    exact fits_of_isRoomy h
  | retune rules => cases h
  | retuneRead i => cases h
  | replace order => cases h

/-- `/a` is made, learned and covered. -/
theorem run_resolves_bare : ∃ s₀ s calls,
    Run .asciiOnly plainKernel (fun s a => Legal .asciiOnly s a ∧ Careful .asciiOnly s a) s₀ s ∧
      s.disk.made = [⟨⟨1, 2⟩, ⟨1, 1⟩, ['a']⟩] ∧ Started .asciiOnly plainKernel s₀ calls ∧
        Resolves .asciiOnly plainKernel s := by
  obtain ⟨map, hmap, hstart⟩ := bare_started
  let made : Made := ⟨⟨1, 2⟩, ⟨1, 1⟩, ['a']⟩
  let s₁ : State := { bareState map with
    disk := (bareState map).disk.grow made
    queue := [⟨made.parent, made.name⟩] }
  have hcareStart : CarefulStart .asciiOnly (bareState map) [rootCall] := by
    refine ⟨fun k path hat => ?_, fun f hf => (by cases hf), fits_of_isRoomy (by decide +kernel)⟩
    rw [(bare_at hat).2]
    decide
  have hfree : (bareState map).disk.Free made := by
    apply free_of_isFree hstart.disk
    show isFree ⟨⟨1, 1⟩, []⟩ ⟨⟨1, 2⟩, ⟨1, 1⟩, ['a']⟩ = true
    decide
  have hmkdir : Careful .asciiOnly (bareState map) (.mkdir made) := by
    intro path hat
    rw [(bare_at hat).2]
    exact ⟨by decide, fun _ _ => noRules_admits _ _⟩
  have hrun₁ : Run .asciiOnly plainKernel
      (fun s a => Legal .asciiOnly s a ∧ Careful .asciiOnly s a) (bareState map) s₁ :=
    .step (.mkdir made) .start ⟨hfree, hmkdir⟩ rfl
  have hends : ((insertCalls plainKernel ⟨⟨1, 1⟩, []⟩ .empty [rootCall]).bind fun map =>
      runIf .asciiOnly plainKernel isCareful { bareState map with
        disk := (bareState map).disk.grow made
        queue := [⟨made.parent, made.name⟩] }
        [.window 1 [['/', 'a']], .cover 0, .coverRead, .coverInsert]).any (fun s =>
          s.queue.isEmpty && s.owed.isEmpty && s.job.isNone && decide (s.disk.made = [made])) =
            true := by
    decide +kernel
  rw [hmap, Option.bind_some] at hends
  obtain ⟨s, hs, hends⟩ := (Option.any_eq_true _ _).mp hends
  have hrun : Run .asciiOnly plainKernel
      (fun s a => Legal .asciiOnly s a ∧ Careful .asciiOnly s a) (bareState map) s := by
    apply Run.runIf (P := fun _ => True) _ trivial hrun₁ hs
    exact fun s a s' _ hcheck _ => ⟨careful_of_isCareful a hcheck, trivial⟩
  simp only [Bool.and_eq_true, List.isEmpty_iff, Option.isNone_iff_eq_none, decide_eq_true_eq]
    at hends
  obtain ⟨⟨⟨hqueue, howed⟩, hjob⟩, hmade⟩ := hends
  exact ⟨bareState map, s, [rootCall], hrun, hmade, hstart,
    run_resolves hstart hcareStart hrun ⟨hqueue, howed, hjob⟩⟩

end FanWatch

end Scour
