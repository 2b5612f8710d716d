import Mathlib.Data.List.Perm.Basic
import Scour.Saved

/-!
# A saved rule, and the engine in use

A save takes the engine in use, folds its edit into the settings and makes the new rules under the
lock on the settings, and hands them to the engine after it; a swap replaces the engine by one that
reads the settings' file; and a start of watching makes an engine's watches with the rules it read
before.  A move is one of these steps, by any of the threads, and a run is any sequence of moves.

In a run whose moves all meet `meets` the engine in use and its watches follow the settings held
whenever nothing is under way (`run_follows`).  Without it the rules of the earlier of two saves can
be what the engine is left with (`not_run_follows`).
-/

namespace Scour

deriving instance DecidableEq for DiskPlan

/-- The scan options with this source's skips added, and without the path rules that would hide all
of it. -/
def Planned.own (p : Planned) (opts : ScanOptions) : ScanOptions :=
  let covers (rule : Str) : Bool := p.source.roots.any fun r => pathStartsWith r rule
  if p.skip.isEmpty && !opts.excludePaths.any covers then opts
  else
    { opts with
      excludePaths := opts.excludePaths.filter fun rule => !covers rule
      deny := opts.deny ++ p.skip }

/-- What a watch of the source filters by, given these options. -/
def Planned.rules (U : Unicode) (p : Planned) (opts : ScanOptions) : Rules :=
  .fromOptions U (p.own opts)

/-- A watch, of one source. -/
structure WatchHandle where
  source : Planned
  rules : Rules
deriving DecidableEq

/-- An engine, as far as rules go. -/
structure Rig where
  sources : List Planned
  scan : ScanOptions
  watches : List WatchHandle
  /-- The options the rows were tested by. -/
  swept : List ScanOptions
  /-- The walks asked for. -/
  asked : List (Option Str)
deriving DecidableEq

namespace Rig

variable (U : Unicode)

/-- An engine just built. -/
def fresh (sources : List Planned) (scan : ScanOptions) : Rig := ⟨sources, scan, [], [], []⟩

/-- `start_watching` under the watch lock, with the options read before it.  Which of the sources
that are to be watched can be is the machine's to say. -/
def startWatching (e : Rig) (scan : ScanOptions) (watched : List Nat) : Rig :=
  { e with
    watches := e.watches ++ (e.sources.zipIdx.filter fun (p, i) =>
      p.source.watch && watched.contains i).map fun (p, _) => ⟨p, p.rules U scan⟩ }

/-- `set_scan_options`, under the watch lock. -/
def retune (e : Rig) (fresh : ScanOptions) : Rig :=
  { e with watches := e.watches.map fun h => { h with rules := h.source.rules U fresh } }

end Rig

/-- The walks a save asks for. -/
def Opened.walks : Opened → List (Option Str)
  | .nothing => []
  | .subtrees paths => paths.map some
  | .everything => [none]

/-- Is the plan looked at again after the edit? -/
def Edit.replans : Edit → Bool
  | .set change => change.movesSources
  | .choose _ _ => true

/-! ## The threads -/

/-- Where a request that edits the settings is. -/
inductive Save where
  /-- It holds the engine that was in use, and waits for the lock on the settings. -/
  | took (engine : Nat) (edit : Edit)
  /-- The settings are let go. -/
  | computed (engine : Nat) (now : ScanOptions) (opened : Opened) (replan : Bool)
  /-- The engine's options are written. -/
  | written (engine : Nat) (now : ScanOptions) (opened : Opened) (replan : Bool)
  /-- Its watches filter by them. -/
  | retuned (engine : Nat) (opened : Opened) (replan : Bool)
  /-- The rows are tested by them. -/
  | swept (engine : Nat) (opened : Opened) (replan : Bool)
  /-- To look at the disks again. -/
  | planning

/-- Where a swap is. -/
inductive Swap where
  | planned (sources : List Planned)
  /-- The old engine is stopped. -/
  | stopped (sources : List Planned)
  /-- The new one is built. -/
  | built (sources : List Planned) (scan : ScanOptions)
deriving DecidableEq

/-- Where the thread that starts an engine is. -/
inductive Start where
  | spawned (engine : Nat)
  /-- It has read the options the watches are made with. -/
  | read (engine : Nat) (scan : ScanOptions)
deriving DecidableEq

/-- The service: `requested` and `applied` are the edits asked for, and those made. -/
structure Service where
  held : Saved
  file : Saved
  plan : DiskPlan
  engines : List Rig
  inUse : Nat
  saves : List Save
  swap : Option Swap
  starts : List Start
  requested : List Edit
  applied : List Edit

/-- A move of one of the threads. -/
inductive Service.Action where
  /-- A request comes in and takes the engine in use. -/
  | request (edit : Edit)
  | save (i : Nat)
  /-- Somebody looks at the disks: a request of its own, or the thread that follows them. -/
  | replan (save : Option Nat) (volumes : List Volume) (later : List Str)
  | swap
  | start (i : Nat) (watched : List Nat)

namespace Service

variable (U : Unicode) (c : Config)

/-- The service as it comes up. -/
def opened (held : Saved) (volumes : List Volume) (later : List Str) : Service :=
  let plan := Scour.plan c.sources c.home volumes held.toSettings later
  { held := held, file := held, plan := plan
    engines := [.fresh plan.sources (scanOptionsWith c held)], inUse := 0
    saves := [], swap := none, starts := [.spawned 0], requested := [], applied := [] }

def onEngine (s : Service) (k : Nat) (f : Rig → Rig) : Service :=
  { s with engines := s.engines.modify k f }

/-- What is left of the saves when this one has queued its walks. -/
def endSave (s : Service) (i : Nat) (replan : Bool) : Service :=
  { s with saves := if replan then s.saves.set i .planning else s.saves.eraseIdx i }

/-- The edit is made and written to the file, and the rules before and now are made, all under the
lock on the settings. -/
def fold (s : Service) (i : Nat) (e : Rig) (k : Nat) (edit : Edit) : Service :=
  let held := edit.apply s.held
  let t := { s with held := held, file := held, applied := s.applied ++ [edit] }
  if rulesOf s.held = rulesOf held then t.endSave i edit.replans
  else
    let now := scanOptionsWith c held
    { t with saves := s.saves.set i (.computed k now (openedUp e.scan now) edit.replans) }

def stepSave (s : Service) (i : Nat) : Option Service :=
  match s.saves[i]? with
  | some (.took k edit) => (s.engines[k]?).map fun e => s.fold c i e k edit
  | some (.computed k now opened replan) =>
      some { s.onEngine k fun e => { e with scan := now } with
        saves := s.saves.set i (.written k now opened replan) }
  | some (.written k now opened replan) =>
      some { s.onEngine k fun e => e.retune U now with
        saves := s.saves.set i (.retuned k opened replan) }
  | some (.retuned k opened replan) =>
      some { s.onEngine k fun e => { e with swept := e.swept ++ [e.scan] } with
        saves := s.saves.set i (.swept k opened replan) }
  | some (.swept k opened replan) =>
      some ((s.onEngine k fun e => { e with asked := e.asked ++ opened.walks }).endSave i replan)
  | _ => none

/-- The disks are looked at again: a change in what is indexed replaces the engine. -/
def look (s : Service) (volumes : List Volume) (later : List Str) : Service :=
  let plan := Scour.plan c.sources c.home volumes s.held.toSettings later
  if s.plan = plan then s
  else if s.plan.sources = plan.sources then { s with plan := plan }
  else { s with plan := plan, swap := some (.planned plan.sources) }

/-- One swap at a time. -/
def stepReplan (s : Service) (save : Option Nat) (volumes : List Volume) (later : List Str) :
    Option Service :=
  if s.swap.isSome then none
  else
    match save with
    | none => some (s.look c volumes later)
    | some i =>
        match s.saves[i]? with
        | some .planning => some { s.look c volumes later with saves := s.saves.eraseIdx i }
        | _ => none

def stepSwap (s : Service) : Option Service :=
  match s.swap with
  | none => none
  | some (.planned sources) =>
      some { s.onEngine s.inUse fun e => { e with watches := [] } with
        swap := some (.stopped sources) }
  | some (.stopped sources) =>
      some { s with swap := some (.built sources (scanOptionsWith c s.file)) }
  | some (.built sources scan) =>
      some { s with
        engines := s.engines ++ [.fresh sources scan], inUse := s.engines.length
        starts := s.starts ++ [.spawned s.engines.length], swap := none }

def stepStart (s : Service) (i : Nat) (watched : List Nat) : Option Service :=
  match s.starts[i]? with
  | none => none
  | some (.spawned k) => (s.engines[k]?).map fun e =>
      { s with starts := s.starts.set i (.read k e.scan) }
  | some (.read k scan) =>
      some { s.onEngine k fun e => e.startWatching U scan watched with
        starts := s.starts.eraseIdx i }

def step (s : Service) : Action → Option Service
  | .request edit =>
      some { s with saves := s.saves ++ [.took s.inUse edit], requested := s.requested ++ [edit] }
  | .save i => s.stepSave U c i
  | .replan save volumes later => s.stepReplan c save volumes later
  | .swap => s.stepSwap c
  | .start i watched => s.stepStart U i watched

/-- A run, if each of its moves can be made and is let happen. -/
def run (ok : Service → Action → Bool) : Service → List Action → Option Service
  | s, [] => some s
  | s, a :: rest => if ok s a then (s.step U c a).bind fun t => run ok t rest else none

/-! ## What is to hold when nothing is under way -/

/-- No save, no swap and no start of watching is in progress. -/
def Quiet (s : Service) : Prop := s.saves = [] ∧ s.swap = none ∧ s.starts = []

instance decidableQuiet (s : Service) : Decidable s.Quiet :=
  inferInstanceAs (Decidable (s.saves = [] ∧ s.swap = none ∧ s.starts = []))

/-- The rules in force, by the settings now held. -/
def now (s : Service) : ScanOptions := scanOptionsWith c s.held

/-- The engine in use and its watches go by the settings held, and these are what was held at first
with every edit made once. -/
def Follows (held : Saved) (s : Service) : Prop :=
  (∃ e, s.engines[s.inUse]? = some e ∧ e.scan = s.now c ∧
    ∀ h ∈ e.watches, h.rules = h.source.rules U (s.now c)) ∧
  ∃ order : List Edit, order.Perm s.requested ∧ s.held = order.foldl (fun held edit => edit.apply held) held

/-! ## When a move loses no rule -/

end Service

/-- Is it still to write these options to the engine? -/
def Save.writes (k : Nat) (now : ScanOptions) : Save → Bool
  | .computed l opts _ _ => l == k && opts == now
  | _ => false

/-- Is it still to hand these options to the watches of the engine? -/
def Save.retunes (k : Nat) (now : ScanOptions) : Save → Bool
  | .computed l opts _ _ => l == k && opts == now
  | .written l opts _ _ => l == k && opts == now
  | _ => false

namespace Service

variable (U : Unicode) (c : Config)

/-- Is this the engine in use, and no swap about to replace it? -/
def stays (s : Service) (k : Nat) : Bool := k == s.inUse && s.swap.isNone

def meetsSave (s : Service) (i : Nat) : Save → Bool
  -- a save that changes the rules holds the engine in use, or a swap is under way
  | .took k edit =>
      scanOptionsWith c (edit.apply s.held) == s.now c || k == s.inUse || s.swap.isSome
  -- what is written to the engine in use are the rules of the settings held, or another save is
  -- still to write them
  | .computed k now _ _ =>
      !s.stays k || now == s.now c || (s.saves.eraseIdx i).any (·.writes k (s.now c))
  -- and so for its watches
  | .written k now _ _ =>
      !s.stays k || now == s.now c || (s.saves.eraseIdx i).any (·.retunes k (s.now c))
  | _ => true

/-- When a move loses no rule, in the state before it. -/
def meets (s : Service) : Action → Bool
  | .save i => (s.saves[i]?).all (s.meetsSave c i)
  -- the engine installed has the rules of the settings held
  | .swap =>
      match s.swap with
      | some (.built _ scan) => scan == s.now c
      | _ => true
  -- and so have the watches made, or a save is still to hand them over
  | .start i _ =>
      match s.starts[i]? with
      | some (.read k scan) =>
          !s.stays k || scan == s.now c || s.saves.any (·.retunes k (s.now c))
      | _ => true
  | _ => true

/-! ## What a move does to what is still to come -/

theorem any_eraseIdx {α : Type} {l : List α} {i : Nat} {y : α} (h : l[i]? = some y)
    (p : α → Bool) : l.any p = (p y || (l.eraseIdx i).any p) := by
  obtain ⟨hi, rfl⟩ := List.getElem?_eq_some_iff.mp h
  conv_lhs => rw [← List.take_append_drop i l, List.drop_eq_getElem_cons hi]
  rw [List.eraseIdx_eq_take_drop_succ, List.any_append, List.any_append, List.any_cons,
    Bool.or_left_comm]

theorem any_set {α : Type} {l : List α} {i : Nat} {y : α} (h : l[i]? = some y) (x : α)
    (p : α → Bool) : (l.set i x).any p = (p x || (l.eraseIdx i).any p) := by
  obtain ⟨hi, -⟩ := List.getElem?_eq_some_iff.mp h
  rw [List.set_eq_take_append_cons_drop, if_pos hi, List.eraseIdx_eq_take_drop_succ,
    List.any_append, List.any_append, List.any_cons, Bool.or_left_comm]

theorem any_set_of_eraseIdx {α : Type} {l : List α} {i : Nat} {y : α} (h : l[i]? = some y) (x : α)
    {p : α → Bool} (hany : (l.eraseIdx i).any p = true) : (l.set i x).any p = true := by
  rw [any_set h, hany]
  exact Bool.or_true _

/-- A save that is not one of them goes on or leaves, and the others are still there. -/
theorem any_endSave {s : Service} {i : Nat} {save : Save} (h : s.saves[i]? = some save)
    (replan : Bool) {p : Save → Bool} (hp : p save = false) (hplan : p .planning = false) :
    (s.endSave i replan).saves.any p = s.saves.any p := by
  unfold endSave
  rw [any_eraseIdx h p, hp, Bool.false_or]
  cases replan with
  | true => rw [if_pos rfl, any_set h, hplan, Bool.false_or]
  | false => rw [if_neg Bool.false_ne_true]

/-! ## The rules of the engine in use -/

/-- The options are those of the settings held, or a save is still to write them. -/
def Written (s : Service) (scan : ScanOptions) : Prop :=
  scan = s.now c ∨ s.saves.any (·.writes s.inUse (s.now c)) = true

/-- The watches go by the settings held, or a save is still to hand the rules over. -/
def Retuned (s : Service) (watches : List WatchHandle) : Prop :=
  (∀ h ∈ watches, h.rules = h.source.rules U (s.now c)) ∨
    s.saves.any (·.retunes s.inUse (s.now c)) = true

/-- What holds of the engine in use, if no swap is about to replace it. -/
def Tuned (s : Service) : Prop :=
  ∃ e, s.engines[s.inUse]? = some e ∧
    (s.swap = none → s.Written c e.scan ∧ s.Retuned U c e.watches)

variable {U c} {s t : Service}

/-- A move that leaves the rules of the settings and of the engine in use alone. -/
theorem Tuned.mono (h : s.Tuned U c) (hnow : t.now c = s.now c) (huse : t.inUse = s.inUse)
    (hswap : t.swap = none → s.swap = none)
    (hengine : ∀ e, s.engines[s.inUse]? = some e →
      ∃ e', t.engines[s.inUse]? = some e' ∧ e'.scan = e.scan ∧ e'.watches = e.watches)
    (hwrites : s.saves.any (·.writes s.inUse (s.now c)) = true →
      t.saves.any (·.writes s.inUse (s.now c)) = true)
    (hretunes : s.saves.any (·.retunes s.inUse (s.now c)) = true →
      t.saves.any (·.retunes s.inUse (s.now c)) = true) : t.Tuned U c := by
  obtain ⟨e, he, hrules⟩ := h
  obtain ⟨e', he', hscan, hwatches⟩ := hengine e he
  refine ⟨e', by rw [huse, he'], fun hnone => ?_⟩
  obtain ⟨hw, hr⟩ := hrules (hswap hnone)
  unfold Written at hw
  unfold Retuned at hr
  unfold Written Retuned
  rw [hnow, huse, hscan, hwatches]
  exact ⟨hw.imp_right hwrites, hr.imp_right hretunes⟩

/-- Nothing an engine goes by is changed. -/
theorem onEngine_same {k : Nat} {f : Rig → Rig} (hscan : ∀ e, (f e).scan = e.scan)
    (hwatches : ∀ e, (f e).watches = e.watches) (e : Rig) (he : s.engines[s.inUse]? = some e) :
    ∃ e', (s.onEngine k f).engines[s.inUse]? = some e' ∧ e'.scan = e.scan ∧
      e'.watches = e.watches := by
  unfold onEngine
  by_cases hk : k = s.inUse
  · refine ⟨f e, ?_, hscan e, hwatches e⟩
    show (s.engines.modify k f)[s.inUse]? = some (f e)
    rw [hk, List.getElem?_modify_eq, he]
    rfl
  · refine ⟨e, ?_, rfl, rfl⟩
    show (s.engines.modify k f)[s.inUse]? = some e
    rw [List.getElem?_modify_ne _ _ hk, he]

theorem onEngine_other {k : Nat} (f : Rig → Rig) (hk : k ≠ s.inUse) (e : Rig)
    (he : s.engines[s.inUse]? = some e) :
    ∃ e', (s.onEngine k f).engines[s.inUse]? = some e' ∧ e'.scan = e.scan ∧
      e'.watches = e.watches := by
  refine ⟨e, ?_, rfl, rfl⟩
  show (s.engines.modify k f)[s.inUse]? = some e
  rw [List.getElem?_modify_ne _ _ hk, he]

theorem onEngine_inUse (f : Rig → Rig) {e : Rig} (he : s.engines[s.inUse]? = some e) :
    (s.onEngine s.inUse f).engines[s.inUse]? = some (f e) := by
  show (s.engines.modify s.inUse f)[s.inUse]? = some (f e)
  rw [List.getElem?_modify_eq, he]
  rfl

/-! ### A save -/

theorem tuned_fold {i k : Nat} {edit : Edit} {e : Rig} (h : s.Tuned U c)
    (hi : s.saves[i]? = some (.took k edit)) (hmeets : s.meetsSave c i (.took k edit) = true) :
    (s.fold c i e k edit).Tuned U c := by
  simp only [fold]
  split
  · rename_i hrules
    refine h.mono ?_ rfl id (fun e he => ⟨e, he, rfl, rfl⟩) ?_ ?_
    · exact scanOptionsWith_congr c hrules.symm
    · intro hany
      rw [← hany]
      exact any_endSave hi edit.replans rfl rfl
    · intro hany
      rw [← hany]
      exact any_endSave hi edit.replans rfl rfl
  · replace hmeets : (scanOptionsWith c (edit.apply s.held) == s.now c || k == s.inUse ||
      s.swap.isSome) = true := hmeets
    rw [Bool.or_eq_true, Bool.or_eq_true, beq_iff_eq, beq_iff_eq] at hmeets
    rcases hmeets with (hsame | hk) | hswap
    · refine h.mono hsame rfl id (fun e he => ⟨e, he, rfl, rfl⟩) ?_ ?_
      · intro hany
        rw [any_eraseIdx hi] at hany
        exact any_set_of_eraseIdx hi _ hany
      · intro hany
        rw [any_eraseIdx hi] at hany
        exact any_set_of_eraseIdx hi _ hany
    · obtain ⟨e', he', -⟩ := h
      refine ⟨e', he', fun _ => ⟨Or.inr ?_, Or.inr ?_⟩⟩
      · show (s.saves.set i _).any _ = true
        rw [any_set hi]
        simp [Save.writes, now, hk]
      · show (s.saves.set i _).any _ = true
        rw [any_set hi]
        simp [Save.retunes, now, hk]
    · obtain ⟨e', he', -⟩ := h
      refine ⟨e', he', fun hnone => ?_⟩
      rw [show s.swap = none from hnone] at hswap
      cases hswap

theorem tuned_write {i k : Nat} {scan : ScanOptions} {o : Opened} {replan : Bool}
    (h : s.Tuned U c) (hi : s.saves[i]? = some (.computed k scan o replan))
    (hmeets : s.meetsSave c i (.computed k scan o replan) = true) :
    Tuned U c { s.onEngine k fun e => { e with scan := scan } with
      saves := s.saves.set i (.written k scan o replan) } := by
  -- handing them to the watches is still to come
  have hretunes : s.saves.any (·.retunes s.inUse (s.now c)) = true →
      (s.saves.set i (.written k scan o replan)).any (·.retunes s.inUse (s.now c)) = true := by
    intro hany
    rw [any_eraseIdx hi] at hany
    rw [any_set hi]
    exact hany
  by_cases hk : k = s.inUse
  · subst hk
    obtain ⟨e, he, hrules⟩ := h
    refine ⟨{ e with scan := scan }, onEngine_inUse _ he, fun hnone => ?_⟩
    obtain ⟨-, hr⟩ := hrules hnone
    refine ⟨?_, hr.imp_right hretunes⟩
    have hstays : s.stays s.inUse = true := by
      unfold stays
      rw [show s.swap = none from hnone]
      simp
    replace hmeets : (!s.stays s.inUse || scan == s.now c ||
      (s.saves.eraseIdx i).any (·.writes s.inUse (s.now c))) = true := hmeets
    rw [hstays, Bool.not_true, Bool.false_or, Bool.or_eq_true, beq_iff_eq] at hmeets
    exact hmeets.imp_right fun hother => any_set_of_eraseIdx hi _ hother
  · refine h.mono rfl rfl id (onEngine_other _ hk) ?_ hretunes
    intro hany
    have hno : Save.writes s.inUse (s.now c) (.computed k scan o replan) = false := by
      simp [Save.writes, hk]
    rw [any_eraseIdx hi, hno, Bool.false_or] at hany
    exact any_set_of_eraseIdx hi _ hany

theorem tuned_retune {i k : Nat} {scan : ScanOptions} {o : Opened} {replan : Bool}
    (h : s.Tuned U c) (hi : s.saves[i]? = some (.written k scan o replan))
    (hmeets : s.meetsSave c i (.written k scan o replan) = true) :
    Tuned U c { s.onEngine k fun e => e.retune U scan with
      saves := s.saves.set i (.retuned k o replan) } := by
  have hwrites : s.saves.any (·.writes s.inUse (s.now c)) = true →
      (s.saves.set i (.retuned k o replan)).any (·.writes s.inUse (s.now c)) = true := by
    intro hany
    rw [any_eraseIdx hi] at hany
    rw [any_set hi]
    exact hany
  by_cases hk : k = s.inUse
  · subst hk
    obtain ⟨e, he, hrules⟩ := h
    refine ⟨e.retune U scan, onEngine_inUse _ he, fun hnone => ?_⟩
    obtain ⟨hw, -⟩ := hrules hnone
    refine ⟨hw.imp_right hwrites, ?_⟩
    have hstays : s.stays s.inUse = true := by
      unfold stays
      rw [show s.swap = none from hnone]
      simp
    replace hmeets : (!s.stays s.inUse || scan == s.now c ||
      (s.saves.eraseIdx i).any (·.retunes s.inUse (s.now c))) = true := hmeets
    rw [hstays, Bool.not_true, Bool.false_or, Bool.or_eq_true, beq_iff_eq] at hmeets
    rcases hmeets with hscan | hother
    · left
      intro w hw
      obtain ⟨v, -, rfl⟩ := List.mem_map.mp hw
      show v.source.rules U scan = v.source.rules U (s.now c)
      rw [hscan]
    · exact Or.inr (any_set_of_eraseIdx hi _ hother)
  · refine h.mono rfl rfl id (onEngine_other _ hk) hwrites ?_
    intro hany
    have hno : Save.retunes s.inUse (s.now c) (.written k scan o replan) = false := by
      simp [Save.retunes, hk]
    rw [any_eraseIdx hi, hno, Bool.false_or] at hany
    exact any_set_of_eraseIdx hi _ hany

/-- A save that neither writes nor hands over rules goes on. -/
theorem tuned_rest {i k : Nat} {f : Rig → Rig} {save : Save} (replan : Bool) (h : s.Tuned U c)
    (hi : s.saves[i]? = some save) (hscan : ∀ e, (f e).scan = e.scan)
    (hwatches : ∀ e, (f e).watches = e.watches)
    (hwrites : save.writes s.inUse (s.now c) = false)
    (hretunes : save.retunes s.inUse (s.now c) = false) :
    ((s.onEngine k f).endSave i replan).Tuned U c := by
  refine h.mono rfl rfl id (onEngine_same hscan hwatches) ?_ ?_
  · intro hany
    rw [← hany]
    exact any_endSave (s := s.onEngine k f) hi replan hwrites rfl
  · intro hany
    rw [← hany]
    exact any_endSave (s := s.onEngine k f) hi replan hretunes rfl

theorem tuned_stepSave {i : Nat} (h : s.Tuned U c) (hmeets : s.meets c (.save i) = true)
    (ht : s.stepSave U c i = some t) : t.Tuned U c := by
  unfold stepSave at ht
  simp only [meets] at hmeets
  cases hi : s.saves[i]? with
  | none =>
    rw [hi] at ht
    cases ht
  | some save =>
    rw [hi] at ht hmeets
    replace hmeets : s.meetsSave c i save = true := hmeets
    cases save with
    | took k edit =>
      obtain ⟨e, -, rfl⟩ := Option.map_eq_some_iff.mp ht
      exact tuned_fold h hi hmeets
    | computed k now opened replan =>
      cases ht
      exact tuned_write h hi hmeets
    | written k now opened replan =>
      cases ht
      exact tuned_retune h hi hmeets
    | retuned k opened replan =>
      cases ht
      refine h.mono rfl rfl id (onEngine_same (fun _ => rfl) fun _ => rfl) ?_ ?_
      · intro hany
        rw [any_eraseIdx hi] at hany
        exact any_set_of_eraseIdx hi _ hany
      · intro hany
        rw [any_eraseIdx hi] at hany
        exact any_set_of_eraseIdx hi _ hany
    | swept k opened replan =>
      cases ht
      exact tuned_rest replan h hi (fun _ => rfl) (fun _ => rfl) rfl rfl
    | planning => cases ht

/-! ### A start of watching, and a swap -/

theorem tuned_stepStart {i : Nat} {watched : List Nat} (h : s.Tuned U c)
    (hmeets : s.meets c (.start i watched) = true) (ht : s.stepStart U i watched = some t) :
    t.Tuned U c := by
  unfold stepStart at ht
  simp only [meets] at hmeets
  cases hi : s.starts[i]? with
  | none =>
    rw [hi] at ht
    cases ht
  | some start =>
    rw [hi] at ht hmeets
    cases start with
    | spawned k =>
      obtain ⟨e, -, rfl⟩ := Option.map_eq_some_iff.mp ht
      exact h.mono rfl rfl id (fun e he => ⟨e, he, rfl, rfl⟩) id id
    | read k scan =>
      cases ht
      by_cases hk : k = s.inUse
      · subst hk
        obtain ⟨e, he, hrules⟩ := h
        refine ⟨e.startWatching U scan watched, onEngine_inUse _ he, fun hnone => ?_⟩
        obtain ⟨hw, hr⟩ := hrules hnone
        refine ⟨hw, ?_⟩
        have hstays : s.stays s.inUse = true := by
          unfold stays
          rw [show s.swap = none from hnone]
          simp
        replace hmeets : (!s.stays s.inUse || scan == s.now c ||
          s.saves.any (·.retunes s.inUse (s.now c))) = true := hmeets
        rw [hstays, Bool.not_true, Bool.false_or, Bool.or_eq_true, beq_iff_eq] at hmeets
        rcases hr with hr | hany
        · rcases hmeets with hscan | hany
          · left
            intro w hw
            rcases List.mem_append.mp hw with hw | hw
            · exact hr w hw
            · obtain ⟨x, -, rfl⟩ := List.mem_map.mp hw
              show x.1.rules U scan = x.1.rules U (s.now c)
              rw [hscan]
          · exact Or.inr hany
        · exact Or.inr hany
      · exact h.mono rfl rfl id (onEngine_other _ hk) id id

theorem look_saves (volumes : List Volume) (later : List Str) :
    (s.look c volumes later).saves = s.saves := by
  unfold look
  dsimp only
  split
  · rfl
  · split <;> rfl

theorem tuned_look (h : s.Tuned U c) (volumes : List Volume) (later : List Str) :
    (s.look c volumes later).Tuned U c := by
  unfold look
  dsimp only
  split
  · exact h
  · split
    · exact h.mono rfl rfl id (fun e he => ⟨e, he, rfl, rfl⟩) id id
    · obtain ⟨e, he, -⟩ := h
      exact ⟨e, he, fun hnone => by cases hnone⟩

theorem tuned_stepReplan {save : Option Nat} {volumes : List Volume} {later : List Str}
    (h : s.Tuned U c) (ht : s.stepReplan c save volumes later = some t) : t.Tuned U c := by
  have hlook := tuned_look h volumes later
  unfold stepReplan at ht
  split at ht
  · cases ht
  · cases save with
    | none =>
      cases ht
      exact hlook
    | some i =>
      dsimp only at ht
      split at ht
      · rename_i hi
        cases ht
        refine hlook.mono rfl rfl id (fun e he => ⟨e, he, rfl, rfl⟩) ?_ ?_
        · intro hany
          rw [look_saves, any_eraseIdx hi] at hany
          exact hany
        · intro hany
          rw [look_saves, any_eraseIdx hi] at hany
          exact hany
      · cases ht

theorem tuned_stepSwap (h : s.Tuned U c) (hmeets : s.meets c .swap = true)
    (ht : s.stepSwap c = some t) : t.Tuned U c := by
  unfold stepSwap at ht
  simp only [meets] at hmeets
  obtain ⟨e, he, -⟩ := h
  cases hswap : s.swap with
  | none =>
    rw [hswap] at ht
    cases ht
  | some swap =>
    rw [hswap] at ht hmeets
    cases swap with
    | planned sources =>
      cases ht
      exact ⟨_, onEngine_inUse _ he, fun hnone => by cases hnone⟩
    | stopped sources =>
      cases ht
      exact ⟨e, he, fun hnone => by cases hnone⟩
    | built sources scan =>
      cases ht
      refine ⟨.fresh sources scan, List.getElem?_concat_length, fun _ => ⟨Or.inl ?_, Or.inl ?_⟩⟩
      · exact beq_iff_eq.mp hmeets
      · intro w hw
        cases hw

theorem tuned_step {a : Action} (h : s.Tuned U c) (hmeets : s.meets c a = true)
    (ht : s.step U c a = some t) : t.Tuned U c := by
  cases a with
  | request edit =>
    cases ht
    refine h.mono rfl rfl id (fun e he => ⟨e, he, rfl, rfl⟩) ?_ ?_
    · intro hany
      rw [List.any_append, hany, Bool.true_or]
    · intro hany
      rw [List.any_append, hany, Bool.true_or]
  | save i => exact tuned_stepSave h hmeets ht
  | replan save volumes later => exact tuned_stepReplan h ht
  | swap => exact tuned_stepSwap h hmeets ht
  | start i watched => exact tuned_stepStart h hmeets ht

/-! ## Every edit is made once -/

/-- The edit that waits for the lock on the settings. -/
def waiting : Save → Option Edit
  | .took _ edit => some edit
  | _ => none

/-- What is held was made by the edits applied, and those and the waiting ones were asked for. -/
structure Made (held : Saved) (s : Service) : Prop where
  made : s.held = s.applied.foldl (fun held edit => edit.apply held) held
  once : (s.applied ++ s.saves.filterMap waiting).Perm s.requested

theorem waiting_eraseIdx {l : List Save} {i : Nat} {save : Save} (h : l[i]? = some save) :
    (l.filterMap waiting).Perm ((waiting save).toList ++ (l.eraseIdx i).filterMap waiting) := by
  obtain ⟨hi, rfl⟩ := List.getElem?_eq_some_iff.mp h
  have hp := (List.getElem_cons_eraseIdx_perm hi).symm.filterMap waiting
  cases hw : waiting l[i] with
  | none => rwa [List.filterMap_cons_none hw] at hp
  | some edit => rwa [List.filterMap_cons_some hw] at hp

theorem waiting_set {l : List Save} {i : Nat} {save next : Save} (h : l[i]? = some save)
    (hnext : waiting next = none) :
    ((l.set i next).filterMap waiting).Perm ((l.eraseIdx i).filterMap waiting) := by
  obtain ⟨hi, -⟩ := List.getElem?_eq_some_iff.mp h
  have hp := (List.set_perm_cons_eraseIdx hi next).filterMap waiting
  rwa [List.filterMap_cons_none hnext] at hp

theorem waiting_endSave {i : Nat} {save : Save} (h : s.saves[i]? = some save) (replan : Bool) :
    ((s.endSave i replan).saves.filterMap waiting).Perm
      ((s.saves.eraseIdx i).filterMap waiting) := by
  unfold endSave
  cases replan with
  | true => exact waiting_set h rfl
  | false => exact List.Perm.refl _

variable {held : Saved}

/-- A move that makes no edit. -/
theorem Made.mono (h : Made held s) (hheld : t.held = s.held) (happlied : t.applied = s.applied)
    (hrequested : t.requested = s.requested)
    (hsaves : (t.saves.filterMap waiting).Perm (s.saves.filterMap waiting)) : Made held t where
  made := by rw [hheld, happlied, h.made]
  once := by
    rw [happlied, hrequested]
    exact (hsaves.append_left _).trans h.once

theorem made_fold {i k : Nat} {edit : Edit} {e : Rig} (h : Made held s)
    (hi : s.saves[i]? = some (.took k edit)) : Made held (s.fold c i e k edit) := by
  have hmade : edit.apply s.held =
      (s.applied ++ [edit]).foldl (fun held edit => edit.apply held) held := by
    rw [List.foldl_append, ← h.made]
    rfl
  -- the edit goes from those that wait to those made
  have honce : ∀ l : List Edit, l.Perm ((s.saves.eraseIdx i).filterMap waiting) →
      ((s.applied ++ [edit]) ++ l).Perm s.requested := by
    intro l hl
    refine List.Perm.trans ?_ h.once
    rw [List.append_assoc]
    apply List.Perm.append_left
    exact ((hl.append_left [edit]).trans (waiting_eraseIdx hi).symm)
  simp only [fold]
  split
  · exact ⟨hmade, honce _ (waiting_endSave hi _)⟩
  · exact ⟨hmade, honce _ (waiting_set hi rfl)⟩

theorem made_stepSave {i : Nat} (h : Made held s) (ht : s.stepSave U c i = some t) :
    Made held t := by
  unfold stepSave at ht
  cases hi : s.saves[i]? with
  | none =>
    rw [hi] at ht
    cases ht
  | some save =>
    rw [hi] at ht
    cases save with
    | took k edit =>
      obtain ⟨e, -, rfl⟩ := Option.map_eq_some_iff.mp ht
      exact made_fold h hi
    | computed k now opened replan =>
      cases ht
      exact h.mono rfl rfl rfl ((waiting_set hi rfl).trans (waiting_eraseIdx hi).symm)
    | written k now opened replan =>
      cases ht
      exact h.mono rfl rfl rfl ((waiting_set hi rfl).trans (waiting_eraseIdx hi).symm)
    | retuned k opened replan =>
      cases ht
      exact h.mono rfl rfl rfl ((waiting_set hi rfl).trans (waiting_eraseIdx hi).symm)
    | swept k opened replan =>
      cases ht
      exact h.mono rfl rfl rfl
        ((waiting_endSave (s := s.onEngine k _) hi replan).trans (waiting_eraseIdx hi).symm)
    | planning => cases ht

theorem made_look (h : Made held s) (volumes : List Volume) (later : List Str) :
    Made held (s.look c volumes later) := by
  unfold look
  dsimp only
  split
  · exact h
  · split <;> exact h.mono rfl rfl rfl (List.Perm.refl _)

theorem made_stepReplan {save : Option Nat} {volumes : List Volume} {later : List Str}
    (h : Made held s) (ht : s.stepReplan c save volumes later = some t) : Made held t := by
  have hlook := made_look (c := c) h volumes later
  unfold stepReplan at ht
  split at ht
  · cases ht
  · cases save with
    | none =>
      cases ht
      exact hlook
    | some i =>
      dsimp only at ht
      split at ht
      · rename_i hi
        cases ht
        refine hlook.mono rfl rfl rfl ?_
        rw [look_saves]
        exact (waiting_eraseIdx hi).symm
      · cases ht

theorem made_step {a : Action} (h : Made held s) (ht : s.step U c a = some t) : Made held t := by
  cases a with
  | request edit =>
    cases ht
    refine ⟨h.made, ?_⟩
    show (s.applied ++ (s.saves ++ [Save.took s.inUse edit]).filterMap waiting).Perm
      (s.requested ++ [edit])
    rw [List.filterMap_append, ← List.append_assoc]
    exact h.once.append_right _
  | save i => exact made_stepSave h ht
  | replan save volumes later => exact made_stepReplan h ht
  | swap =>
    replace ht : s.stepSwap c = some t := ht
    unfold stepSwap at ht
    split at ht
    · cases ht
    all_goals
      cases ht
      exact h.mono rfl rfl rfl (List.Perm.refl _)
  | start i watched =>
    replace ht : s.stepStart U i watched = some t := ht
    unfold stepStart at ht
    split at ht
    · cases ht
    · obtain ⟨e, -, rfl⟩ := Option.map_eq_some_iff.mp ht
      exact h.mono rfl rfl rfl (List.Perm.refl _)
    · cases ht
      exact h.mono rfl rfl rfl (List.Perm.refl _)

/-! ## Every run -/

theorem run_cons_iff {ok : Service → Action → Bool} {a : Action} {rest : List Action} :
    s.run U c ok (a :: rest) = some t ↔
      ok s a = true ∧ ∃ s', s.step U c a = some s' ∧ s'.run U c ok rest = some t := by
  rw [run]
  split
  · rename_i hok
    rw [Option.bind_eq_some_iff]
    exact ⟨fun h => ⟨hok, h⟩, fun h => h.2⟩
  · rename_i hok
    constructor
    · intro h
      cases h
    · intro h
      exact absurd h.1 hok

theorem run_tuned {actions : List Action} :
    ∀ {s : Service}, s.Tuned U c → Made held s → s.run U c (meets c) actions = some t →
      t.Tuned U c ∧ Made held t := by
  induction actions with
  | nil =>
    intro s h hm hrun
    cases hrun
    exact ⟨h, hm⟩
  | cons a rest ih =>
    intro s h hm hrun
    obtain ⟨hmeets, s', hs', hrest⟩ := run_cons_iff.mp hrun
    exact ih (tuned_step h hmeets hs') (made_step hm hs') hrest

theorem tuned_opened (U : Unicode) (c : Config) (held : Saved) (volumes : List Volume)
    (later : List Str) : (opened c held volumes later).Tuned U c := by
  refine ⟨_, rfl, fun _ => ⟨Or.inl rfl, Or.inl ?_⟩⟩
  intro h hh
  cases hh

theorem made_opened (c : Config) (held : Saved) (volumes : List Volume) (later : List Str) :
    Made held (opened c held volumes later) := ⟨rfl, List.Perm.refl _⟩

/-- In a run whose moves all meet `meets` the engine in use, its watches and the settings are what
the edits made them, whenever nothing is under way. -/
theorem run_follows (U : Unicode) (c : Config) (held : Saved) (volumes : List Volume)
    (later : List Str) (actions : List Action) (s : Service)
    (hrun : (opened c held volumes later).run U c (meets c) actions = some s) (hquiet : s.Quiet) :
    s.Follows U c held := by
  obtain ⟨⟨e, he, hrules⟩, hmade⟩ :=
    run_tuned (tuned_opened U c held volumes later) (made_opened c held volumes later) hrun
  obtain ⟨hsaves, hswap, -⟩ := hquiet
  obtain ⟨hw, hr⟩ := hrules hswap
  unfold Written at hw
  unfold Retuned at hr
  have honce := hmade.once
  rw [hsaves] at hw hr honce
  rw [List.filterMap_nil, List.append_nil] at honce
  refine ⟨⟨e, he, ?_, ?_⟩, s.applied, honce, hmade.made⟩
  · exact hw.resolve_right Bool.false_ne_true
  · exact hr.resolve_right Bool.false_ne_true

/-! ## Two saves -/

/-- A service of one watched source. -/
def oneSource : Config where
  excludePaths := []
  excludeDirs := []
  excludeFiles := []
  allow := []
  indexDir := str "/v/index"
  sources := [{ name := str "d", kind := .local, roots := [str "/d"], watch := true }]
  home := none
  uid := 0

/-- The watches are made, and a rule is saved. -/
def oneSave : List Action :=
  [.start 0 [], .start 0 [0], .request (.set { excludeDirs := some [str "a"] })] ++
    List.replicate 5 (.save 0)

theorem run_follows_oneSave : ∃ s, (opened oneSource .unset [] []).run .asciiOnly oneSource
    (meets oneSource) oneSave = some s ∧ s.Quiet ∧ s.Follows .asciiOnly oneSource .unset := by
  have hrun : ((opened oneSource .unset [] []).run .asciiOnly oneSource (meets oneSource)
    oneSave).any (fun s => decide s.Quiet) = true := by decide +kernel
  obtain ⟨s, hs, hquiet⟩ := (Option.any_eq_true _ _).mp hrun
  exact ⟨s, hs, of_decide_eq_true hquiet,
    run_follows _ _ _ _ _ _ s hs (of_decide_eq_true hquiet)⟩

/-- The first of two saves hands its rules over after the second. -/
def twoSaves : List Action :=
  [.start 0 [], .start 0 [0], .request (.set { excludeDirs := some [str "a"] }),
    .request (.set { excludeFiles := some [str "b"] }), .save 0] ++
    List.replicate 5 (.save 1) ++ List.replicate 4 (.save 0)

/-- The engine goes on without the rule that was saved last. -/
theorem not_run_follows : ¬ ∀ (U : Unicode) (c : Config) (held : Saved) (volumes : List Volume)
    (later : List Str) (actions : List Action) (s : Service),
    (opened c held volumes later).run U c (fun _ _ => true) actions = some s → s.Quiet →
      s.Follows U c held := by
  intro h
  have hrun : ((opened oneSource .unset [] []).run .asciiOnly oneSource (fun _ _ => true)
    twoSaves).any (fun s => decide s.Quiet && s.inUse == 0 &&
      !(s.engines[0]?).any (fun e => e.scan.excludeFiles.contains (str "b")) &&
        (s.now oneSource).excludeFiles.contains (str "b")) = true := by decide +kernel
  obtain ⟨s, hs, hlost⟩ := (Option.any_eq_true _ _).mp hrun
  simp only [Bool.and_eq_true, decide_eq_true_eq, beq_iff_eq, Bool.not_eq_true'] at hlost
  obtain ⟨⟨⟨hquiet, hinUse⟩, hlost⟩, hheld⟩ := hlost
  obtain ⟨⟨e, he, hscan, -⟩, -⟩ := h .asciiOnly oneSource .unset [] [] twoSaves s hs hquiet
  rw [hinUse] at he
  rw [he, Option.any_some, hscan, hheld] at hlost
  cases hlost

end Service

end Scour
