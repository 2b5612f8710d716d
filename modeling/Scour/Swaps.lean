import Scour.Disks
import Scour.Shutdown

/-!
# Swaps, and the walk a disk that joins is owed

A swap asks the engine in use whether it is walking and which sources it has, stops it, and puts one
over the new plan in its place, whose start thread covers the sources and then queues the walks the
swap decided on.  The engines are those of `Sys`; a move is one of a swap, of a start thread or of an
engine, and a run is any sequence of moves.

In a run whose moves all meet `meets` every source of the engine in use has had a whole walk begin
since a swap added it, whenever nothing is under way (`run_walked`).  Without it a disk that joins
while the start thread of the one before still covers leaves that one unwalked (`not_run_walked`).
-/

namespace Scour

/-- What an engine is told by `shutdown`. -/
def Action.stops : Action → Bool
  | .setStop | .stopWatches | .sendStop => true
  | _ => false

/-- What a swap asks. -/
def Action.sees : Action → Bool
  | .see => true
  | _ => false

namespace Sys

variable {c : EngineConfig} {s t : Sys} {i : Nat}

/-! ## A whole walk that is to begin -/

/-- `queue_whole`, at any time: an engine whose worker has left takes no job. -/
def sendWhole (s : Sys) (i : Nat) : Sys := if s.worker = .exited then s else s.queueWhole i

/-- A whole walk of the source is to begin: it is queued before the stop, or next. -/
def Due (s : Sys) (i : Nat) : Prop :=
  s.worker ≠ .exited ∧ (.scan i none ∈ s.jobs.takeWhile (· ≠ .stop) ∨ ⟨i, none⟩ ∈ s.todo)

/-- The source a whole walk of which begins with this move. -/
def begun (s : Sys) : Action → Option Nat
  | .begin =>
      match s.worker with
      | .walking none (⟨i, none⟩ :: _) _ => some i
      | _ => none
  | _ => none

/-- What holds of the flags and the queue, whatever happens. -/
structure Queue (s : Sys) : Prop where
  flags : ∀ i, s.queued.getD i false = true → .scan i none ∈ s.jobs
  unsent : s.sentStop = false → .stop ∉ s.jobs
  serving : s.stop = false → s.watching = true ∧ s.sentStop = false ∧ s.worker ≠ .exited

theorem mem_takeWhile_append {α : Type} {p : α → Bool} {l : List α} {x : α} (m : List α)
    (h : x ∈ l.takeWhile p) : x ∈ (l ++ m).takeWhile p := by
  rw [List.takeWhile_append]
  split
  · exact List.mem_append_left _ (List.takeWhile_subset _ h)
  · exact h

/-- More jobs do not hide a walk that is to begin. -/
theorem Due.mono (h : Due s i) (hworker : t.worker = s.worker)
    (hjobs : ∃ more, t.jobs = s.jobs ++ more) : Due t i := by
  obtain ⟨more, hmore⟩ := hjobs
  obtain ⟨hne, hdue⟩ := h
  have htodo : t.todo = s.todo := by
    unfold todo
    rw [hworker]
  refine ⟨hworker ▸ hne, ?_⟩
  rw [htodo, hmore]
  exact hdue.imp_left (mem_takeWhile_append more)

/-- Where the worker goes on without taking a job, and had no walk to begin. -/
theorem Due.turn (h : Due s i) (htodo : s.todo = []) (hworker : t.worker ≠ .exited)
    (hjobs : t.jobs = s.jobs) : Due t i := by
  obtain ⟨-, hdue⟩ := h
  refine ⟨hworker, Or.inl ?_⟩
  rw [htodo] at hdue
  rw [hjobs]
  exact hdue.resolve_right List.not_mem_nil

theorem queueWhole_jobs (s : Sys) (i : Nat) : ∃ more, (s.queueWhole i).jobs = s.jobs ++ more := by
  unfold queueWhole
  split
  · exact ⟨[], (List.append_nil _).symm⟩
  · exact ⟨_, rfl⟩

theorem queueWhole_worker (s : Sys) (i : Nat) : (s.queueWhole i).worker = s.worker := by
  unfold queueWhole
  split <;> rfl

theorem todo_of_waiting (h : s.worker = .waiting) : s.todo = [] := by
  unfold todo
  rw [h]

theorem Due.takeJob (h : Due s i) (ht : s.step c .takeJob = some t) : Due t i := by
  simp only [step] at ht
  split at ht
  · rename_i rest hw hj
    -- nothing is queued before the stop that is taken
    exfalso
    obtain ⟨-, hdue⟩ := h
    rw [todo_of_waiting hw, hj] at hdue
    simp at hdue
  · rename_i k subtree rest hw hj
    cases ht
    obtain ⟨-, hdue⟩ := h
    refine ⟨Worker.noConfusion, ?_⟩
    rw [todo_of_waiting hw, hj] at hdue
    have hmem := hdue.resolve_right List.not_mem_nil
    rw [List.takeWhile_cons_of_pos (by simp)] at hmem
    rcases List.mem_cons.mp hmem with heq | hmem
    · right
      injection heq with hi hsub
      subst hi hsub
      exact List.mem_singleton.mpr rfl
    · exact Or.inl hmem
  · rename_i rest hw hj
    cases ht
    obtain ⟨-, hdue⟩ := h
    refine ⟨Worker.noConfusion, Or.inl ?_⟩
    rw [todo_of_waiting hw, hj] at hdue
    have hmem := hdue.resolve_right List.not_mem_nil
    rw [List.takeWhile_cons_of_pos (by simp)] at hmem
    exact (List.mem_cons.mp hmem).resolve_left (by simp)
  · cases ht

/-- A walk that is to begin begins, or is still to. -/
theorem Due.step {a : Action} (h : Due s i) (ht : s.step c a = some t) :
    Due t i ∨ s.begun a = some i := by
  cases a with
  | emit change =>
    left
    simp only [Sys.step] at ht
    split at ht
    · cases ht
    · split at ht
      · rename_i hexited
        exact absurd hexited h.1
      · split at ht
        · cases ht
          exact h.mono rfl ⟨[], (List.append_nil _).symm⟩
        · cases ht
  | askWhole k =>
    left
    simp only [Sys.step] at ht
    split at ht
    · cases ht
      exact h.mono (queueWhole_worker s k) (queueWhole_jobs s k)
    · cases ht
  | askSubtree path =>
    left
    simp only [Sys.step] at ht
    split at ht
    · split at ht
      · cases ht
        exact h.mono rfl ⟨_, rfl⟩
      · cases ht
    · cases ht
  | askMaintain =>
    left
    simp only [Sys.step] at ht
    split at ht
    · cases ht
      exact h.mono rfl ⟨_, rfl⟩
    · cases ht
  | see =>
    left
    simp only [Sys.step] at ht
    split at ht
    · cases ht
      exact h.mono rfl ⟨[], (List.append_nil _).symm⟩
    · cases ht
  | setStop =>
    left
    simp only [Sys.step] at ht
    split at ht
    · cases ht
      exact h.mono rfl ⟨[], (List.append_nil _).symm⟩
    · cases ht
  | stopWatches =>
    left
    simp only [Sys.step] at ht
    split at ht
    · cases ht
      exact h.mono rfl ⟨[], (List.append_nil _).symm⟩
    · cases ht
  | sendStop =>
    left
    simp only [Sys.step] at ht
    split at ht
    · cases ht
      rw [if_neg h.1]
      exact h.mono rfl ⟨_, rfl⟩
    · cases ht
  | takeJob => exact Or.inl (h.takeJob ht)
  | takeChanges now =>
    left
    simp only [Sys.step] at ht
    split at ht
    · rename_i hw
      cases ht
      exact h.turn (todo_of_waiting hw.1) Worker.noConfusion rfl
    · cases ht
  | timeout =>
    left
    simp only [Sys.step] at ht
    split at ht
    · rename_i hw
      cases ht
      exact h.turn (todo_of_waiting hw) Worker.noConfusion rfl
    · cases ht
  | takeDue now =>
    left
    simp only [Sys.step] at ht
    split at ht
    · rename_i hw
      cases ht
      refine h.turn ?_ Worker.noConfusion rfl
      unfold todo
      rw [hw]
    · cases ht
  | ownWalk k =>
    left
    simp only [Sys.step] at ht
    split at ht
    · rename_i hw
      cases ht
      refine h.turn ?_ Worker.noConfusion rfl
      unfold todo
      rw [hw.1]
    · cases ht
  | begin =>
    simp only [Sys.step] at ht
    split at ht
    · rename_i w todo due hw
      cases ht
      obtain ⟨-, hjobs | htodo⟩ := h
      · exact Or.inl ⟨Worker.noConfusion, Or.inl hjobs⟩
      · rw [show s.todo = w :: todo by unfold Sys.todo; rw [hw]] at htodo
        rcases List.mem_cons.mp htodo with rfl | hmem
        · right
          unfold begun
          rw [hw]
        · exact Or.inl ⟨Worker.noConfusion, Or.inr hmem⟩
    · cases ht
  | finish cut =>
    left
    simp only [Sys.step] at ht
    split at ht
    · rename_i w made todo due hw
      split at ht
      · cases ht
      · cases ht
        obtain ⟨-, hdue⟩ := h
        rw [show s.todo = todo by unfold Sys.todo; rw [hw]] at hdue
        exact ⟨Worker.noConfusion, hdue⟩
    · cases ht
  | endTurn =>
    left
    simp only [Sys.step] at ht
    split at ht
    · rename_i hw
      have htodo : s.todo = [] := by
        unfold Sys.todo
        rw [hw]
      split at ht
      · rename_i hstop
        -- it leaves only with nothing queued
        exfalso
        obtain ⟨-, hdue⟩ := h
        rw [htodo, List.isEmpty_iff.mp hstop.2.1] at hdue
        simp at hdue
      · cases ht
        exact h.turn htodo Worker.noConfusion rfl
    · cases ht

/-! ## The flags and the stop -/

theorem queue_init (c : EngineConfig) : (init c).Queue where
  flags := by
    intro i hi
    rw [List.getD_eq_getElem?_getD] at hi
    simp only [init, List.getElem?_replicate] at hi
    split at hi <;> cases hi
  unsent := fun _ h => by cases h
  serving := fun _ => ⟨rfl, rfl, Worker.noConfusion⟩

/-- A move that neither stops nor takes a job. -/
theorem Queue.mono (h : s.Queue) (hqueued : t.queued = s.queued) (hstop : t.stop = s.stop)
    (hwatching : t.watching = s.watching) (hsent : t.sentStop = s.sentStop)
    (hjobs : ∃ more, t.jobs = s.jobs ++ more ∧ .stop ∉ more)
    (hworker : s.stop = false → t.worker ≠ .exited) : t.Queue := by
  obtain ⟨more, hmore, hnot⟩ := hjobs
  refine ⟨fun i hi => ?_, fun hs hm => ?_, fun hs => ?_⟩
  · rw [hmore]
    rw [hqueued] at hi
    exact List.mem_append_left _ (h.flags i hi)
  · rw [hmore] at hm
    rw [hsent] at hs
    rcases List.mem_append.mp hm with hm | hm
    · exact h.unsent hs hm
    · exact hnot hm
  · rw [hstop] at hs
    rw [hwatching, hsent]
    exact ⟨(h.serving hs).1, (h.serving hs).2.1, hworker hs⟩

theorem Queue.queueWhole (h : s.Queue) (i : Nat) : (s.queueWhole i).Queue := by
  unfold Sys.queueWhole
  split
  · exact h
  · refine ⟨fun k hk => ?_, fun hs hm => ?_, h.serving⟩
    · by_cases hik : i = k
      · rw [hik]
        exact List.mem_append_right _ (List.mem_singleton.mpr rfl)
      · replace hk : (s.queued.set i true).getD k false = true := hk
        rw [List.getD_eq_getElem?_getD, List.getElem?_set_ne hik, ← List.getD_eq_getElem?_getD] at hk
        exact List.mem_append_left _ (h.flags k hk)
    · rcases List.mem_append.mp hm with hm | hm
      · exact h.unsent hs hm
      · exact absurd (List.mem_singleton.mp hm) EngineJob.noConfusion

theorem Queue.sendWhole (h : s.Queue) (i : Nat) : (s.sendWhole i).Queue := by
  unfold Sys.sendWhole
  split
  · exact h
  · exact h.queueWhole i

/-- The worker takes a job that is no stop. -/
theorem Queue.take {job : EngineJob} {rest : List EngineJob} {q : List Bool} {l : List Walk}
    (h : s.Queue) (hj : s.jobs = job :: rest)
    (hq : ∀ i, q.getD i false = true → s.queued.getD i false = true ∧ job ≠ .scan i none) :
    Queue { s with jobs := rest, queued := q, worker := .walking none l true } := by
  refine ⟨fun i hi => ?_, fun hs hm => ?_, fun hs => ?_⟩
  · have hmem := h.flags i (hq i hi).1
    rw [hj] at hmem
    exact (List.mem_cons.mp hmem).resolve_left fun he => (hq i hi).2 he.symm
  · exact h.unsent hs (hj ▸ List.mem_cons_of_mem _ hm)
  · exact ⟨(h.serving hs).1, (h.serving hs).2.1, Worker.noConfusion⟩

theorem Queue.takeJob (h : s.Queue) (ht : s.step c .takeJob = some t) : t.Queue := by
  simp only [step] at ht
  split at ht
  · rename_i rest hw hj
    cases ht
    -- a stop is taken when one was sent, and one is sent after the flag is set
    have hsent : s.sentStop = true := by
      by_contra hs
      apply h.unsent (Bool.not_eq_true _ ▸ hs)
      rw [hj]
      exact List.mem_cons_self
    have hstop : s.stop ≠ false := by
      intro hs
      have := (h.serving hs).2.1
      rw [hsent] at this
      cases this
    refine ⟨fun i hi => ?_, fun hs => ?_, fun hs => absurd hs hstop⟩
    · have hmem := h.flags i hi
      rw [hj] at hmem
      exact (List.mem_cons.mp hmem).resolve_left EngineJob.noConfusion
    · rw [show s.sentStop = false from hs] at hsent
      cases hsent
  · rename_i k subtree rest hw hj
    cases ht
    refine h.take hj fun i hi => ?_
    split at hi
    · by_cases hik : k = i
      · subst hik
        rw [List.getD_eq_getElem?_getD, List.getElem?_set] at hi
        simp only [ite_true] at hi
        split at hi <;> cases hi
      · rw [List.getD_eq_getElem?_getD, List.getElem?_set_ne hik, ← List.getD_eq_getElem?_getD] at hi
        exact ⟨hi, fun he => hik (EngineJob.scan.inj he).1⟩
    · rename_i hsub
      exact ⟨hi, fun he => hsub (EngineJob.scan.inj he).2⟩
  · rename_i rest hw hj
    cases ht
    exact h.take hj fun i hi => ⟨hi, EngineJob.noConfusion⟩
  · cases ht

theorem Queue.step {a : Action} (h : s.Queue) (ht : s.step c a = some t) : t.Queue := by
  cases a with
  | emit change =>
    simp only [Sys.step] at ht
    split at ht
    · cases ht
    · split at ht
      · cases ht
        exact h.mono rfl rfl rfl rfl ⟨[], (List.append_nil _).symm, List.not_mem_nil⟩
          fun hs => (h.serving hs).2.2
      · split at ht
        · cases ht
          exact h.mono rfl rfl rfl rfl ⟨[], (List.append_nil _).symm, List.not_mem_nil⟩
            fun hs => (h.serving hs).2.2
        · cases ht
  | askWhole k =>
    simp only [Sys.step] at ht
    split at ht
    · cases ht
      have hq := h.queueWhole k
      exact ⟨hq.flags, hq.unsent, hq.serving⟩
    · cases ht
  | askSubtree path =>
    simp only [Sys.step] at ht
    split at ht
    · split at ht
      · cases ht
        exact h.mono rfl rfl rfl rfl ⟨_, rfl, by simp⟩ fun hs => (h.serving hs).2.2
      · cases ht
    · cases ht
  | askMaintain =>
    simp only [Sys.step] at ht
    split at ht
    · cases ht
      exact h.mono rfl rfl rfl rfl ⟨_, rfl, by simp⟩ fun hs => (h.serving hs).2.2
    · cases ht
  | see =>
    simp only [Sys.step] at ht
    split at ht
    · cases ht
      exact h.mono rfl rfl rfl rfl ⟨[], (List.append_nil _).symm, List.not_mem_nil⟩
        fun hs => (h.serving hs).2.2
    · cases ht
  | setStop =>
    simp only [Sys.step] at ht
    split at ht
    · cases ht
      exact ⟨h.flags, h.unsent, fun hs => by cases hs⟩
    · cases ht
  | stopWatches =>
    simp only [Sys.step] at ht
    split at ht
    · rename_i hc
      cases ht
      exact ⟨h.flags, h.unsent, fun hs => by rw [hc.1] at hs; cases hs⟩
    · cases ht
  | sendStop =>
    simp only [Sys.step] at ht
    split at ht
    · rename_i hc
      cases ht
      refine ⟨fun i hi => ?_, fun hs => (Bool.noConfusion hs), fun hs => ?_⟩
      · have hmem := h.flags i hi
        show EngineJob.scan i none ∈ if s.worker = .exited then s.jobs else s.jobs ++ [.stop]
        split
        · exact hmem
        · exact List.mem_append_left _ hmem
      · have := (h.serving hs).1
        rw [hc.1] at this
        cases this
    · cases ht
  | takeJob => exact h.takeJob ht
  | takeChanges now =>
    simp only [Sys.step] at ht
    split at ht
    · cases ht
      exact h.mono rfl rfl rfl rfl ⟨[], (List.append_nil _).symm, List.not_mem_nil⟩
        fun _ => Worker.noConfusion
    · cases ht
  | timeout =>
    simp only [Sys.step] at ht
    split at ht
    · cases ht
      exact h.mono rfl rfl rfl rfl ⟨[], (List.append_nil _).symm, List.not_mem_nil⟩
        fun _ => Worker.noConfusion
    · cases ht
  | takeDue now =>
    simp only [Sys.step] at ht
    split at ht
    · cases ht
      exact h.mono rfl rfl rfl rfl ⟨[], (List.append_nil _).symm, List.not_mem_nil⟩
        fun _ => Worker.noConfusion
    · cases ht
  | ownWalk k =>
    simp only [Sys.step] at ht
    split at ht
    · cases ht
      exact h.mono rfl rfl rfl rfl ⟨[], (List.append_nil _).symm, List.not_mem_nil⟩
        fun _ => Worker.noConfusion
    · cases ht
  | begin =>
    simp only [Sys.step] at ht
    split at ht
    · cases ht
      exact h.mono rfl rfl rfl rfl ⟨[], (List.append_nil _).symm, List.not_mem_nil⟩
        fun _ => Worker.noConfusion
    · cases ht
  | finish cut =>
    simp only [Sys.step] at ht
    split at ht
    · split at ht
      · cases ht
      · cases ht
        exact h.mono rfl rfl rfl rfl ⟨[], (List.append_nil _).symm, List.not_mem_nil⟩
          fun _ => Worker.noConfusion
    · cases ht
  | endTurn =>
    simp only [Sys.step] at ht
    split at ht
    · split at ht
      · rename_i hstop
        cases ht
        exact h.mono rfl rfl rfl rfl ⟨[], (List.append_nil _).symm, List.not_mem_nil⟩
          fun hs => by rw [hstop.1] at hs; cases hs
      · cases ht
        exact h.mono rfl rfl rfl rfl ⟨[], (List.append_nil _).symm, List.not_mem_nil⟩
          fun _ => Worker.noConfusion
    · cases ht

/-- Only `shutdown` sets the flag. -/
theorem step_stop {a : Action} (ha : a.stops = false) (ht : s.step c a = some t) :
    t.stop = s.stop := by
  cases a with
  | askWhole k =>
    simp only [Sys.step] at ht
    split at ht
    · cases ht
      show (s.queueWhole k).stop = s.stop
      unfold Sys.queueWhole
      split <;> rfl
    · cases ht
  | setStop => cases ha
  | stopWatches => cases ha
  | sendStop => cases ha
  | _ =>
    simp only [Sys.step] at ht
    repeat' split at ht
    all_goals cases ht
    all_goals rfl

/-- A whole walk asked of an engine that is not stopping is to begin. -/
theorem Queue.due_sendWhole (h : s.Queue) (hsent : s.sentStop = false) (hne : s.worker ≠ .exited)
    (i : Nat) : (s.sendWhole i).Due i := by
  have hall : ∀ l : List EngineJob, .stop ∉ l → l.takeWhile (· ≠ .stop) = l := by
    intro l hl
    rw [List.takeWhile_eq_self_iff]
    intro job hjob
    exact decide_eq_true fun he => hl (he ▸ hjob)
  unfold Sys.sendWhole
  rw [if_neg hne]
  refine ⟨(queueWhole_worker s i).symm ▸ hne, Or.inl ?_⟩
  rw [hall _ ((h.queueWhole i).unsent (by unfold Sys.queueWhole; split <;> exact hsent))]
  unfold Sys.queueWhole
  split
  · rename_i hq
    exact h.flags i hq
  · exact List.mem_append_right _ (List.mem_singleton.mpr rfl)

theorem Due.sendWhole {k : Nat} (h : Due s i) : (s.sendWhole k).Due i := by
  unfold Sys.sendWhole
  rw [if_neg h.1]
  exact h.mono (queueWhole_worker s k) (queueWhole_jobs s k)

end Sys

/-! ## Swaps and start threads -/

/-- An engine, and the sources it was built over. -/
structure Member where
  sources : List Planned
  sys : Sys

def Member.names (m : Member) : List Str := m.sources.map (·.source.name)

/-- Which sources a freshly started engine walks. -/
inductive StartWalk where
  | nothing
  | all
  | named (names : List Str)

/-- Where a start thread is: it covers the sources, or has these still to queue a walk of. -/
inductive StartStage where
  | covering (walk : StartWalk)
  | queueing (left : List Nat)

structure StartThread where
  engine : Nat
  stage : StartStage

/-- A swap in progress: what it is to put in use, and what is walked then, once it has asked. -/
structure SwapInHand where
  plan : List Planned
  walk : Option StartWalk

/-- The service, as far as its engines and their walks go. -/
structure Swaps where
  engines : List Member
  inUse : Nat
  swap : Option SwapInHand
  starts : List StartThread
  /-- The names a swap added to the plan, no whole walk of which has begun since. -/
  unwalked : List Str

inductive Swaps.Action where
  /-- The disks are looked at again, and this is the plan. -/
  | replan (plan : List Planned)
  | ask
  /-- A step of `shutdown`, of the engine in use. -/
  | stopOld (a : Scour.Action)
  /-- The engine in use has stopped: one over the new plan takes its place. -/
  | install
  /-- A start thread has covered the sources. -/
  | covered (j : Nat)
  /-- A start thread queues the walk of one of the sources it has left. -/
  | queue (j l : Nat)
  /-- Whatever else an engine does. -/
  | engine (k : Nat) (a : Scour.Action)

namespace StartWalk

/-- Does the start thread walk a source of this name? -/
def covers (name : Str) : StartWalk → Bool
  | .nothing => false
  | .all => true
  | .named names => names.contains name

/-- The sources of an engine it walks. -/
def sources (names : List Str) : StartWalk → List Nat
  | .nothing => []
  | .all => List.range names.length
  | .named wanted => (wanted.filter names.contains).map names.idxOf

end StartWalk

/-- Is a source of this name still to be walked by the start thread, on an engine of these names? -/
def StartStage.owes (names : List Str) (name : Str) : StartStage → Bool
  | .covering walk => walk.covers name && names.contains name
  | .queueing left => left.any fun i => names[i]? == some name

/-- Has the start thread queued its walks? -/
def StartStage.done : StartStage → Bool
  | .covering _ => false
  | .queueing left => left.isEmpty

/-- No walk is queued, next or running. -/
def Sys.idle (s : Sys) : Bool :=
  s.jobs.all (fun
    | .scan _ _ => false
    | _ => true) &&
    match s.worker with
    | .walking running todo _ => running.isNone && todo.isEmpty
    | _ => true

/-- The names of a plan. -/
def planNames (plan : List Planned) : List Str := plan.map (·.source.name)

namespace Swaps

-- the two debounce times of an engine
variable (debounce cap : Nat)

def config (sources : List Planned) : EngineConfig where
  roots := sources.map (·.source.roots)
  walkDebounce := debounce
  walkDebounceCap := cap

/-- An engine just built. -/
def build (sources : List Planned) : Member := ⟨sources, .init (config debounce cap sources)⟩

/-- The service as it comes up: everything is walked, or nothing. -/
def opened (plan : List Planned) (wantScan : Bool) : Swaps where
  engines := [build debounce cap plan]
  inUse := 0
  swap := none
  starts := [⟨0, .covering (if wantScan then .all else .nothing)⟩]
  unwalked := []

def setSys (s : Swaps) (k : Nat) (sys : Sys) : Swaps :=
  { s with engines := s.engines.modify k fun m => { m with sys := sys } }

/-- A swap begins where the sources are other ones. -/
def stepReplan (s : Swaps) (plan : List Planned) : Option Swaps :=
  match s.swap, s.engines[s.inUse]? with
  | none, some m =>
      if m.sources = plan then some s
      else
        some { s with
          swap := some ⟨plan, none⟩
          unwalked := s.unwalked ++ (planNames plan).filter (!m.names.contains ·) }
  | _, _ => none

/-- A walk cut short is started again, everywhere; otherwise only new sources walk. -/
def stepAsk (s : Swaps) : Option Swaps :=
  match s.swap, s.engines[s.inUse]? with
  | some ⟨plan, none⟩, some m =>
      let walk :=
        if m.sys.walkingNow then StartWalk.all
        else .named ((planNames plan).filter (!m.names.contains ·))
      (m.sys.step (config debounce cap m.sources) .see).map fun sys =>
        { s.setSys s.inUse sys with swap := some ⟨plan, some walk⟩ }
  | _, _ => none

def stepStopOld (s : Swaps) (a : Scour.Action) : Option Swaps :=
  match s.swap, s.engines[s.inUse]? with
  | some ⟨_, some _⟩, some m =>
      if a.stops then (m.sys.step (config debounce cap m.sources) a).map (s.setSys s.inUse) else none
  | _, _ => none

def stepInstall (s : Swaps) : Option Swaps :=
  match s.swap, s.engines[s.inUse]? with
  | some ⟨plan, some walk⟩, some m =>
      if m.sys.sentStop ∧ m.sys.worker = .exited then
        some { s with
          engines := s.engines ++ [build debounce cap plan]
          inUse := s.engines.length
          swap := none
          starts := s.starts ++ [⟨s.engines.length, .covering walk⟩] }
      else none
  | _, _ => none

def stepCovered (s : Swaps) (j : Nat) : Option Swaps :=
  match s.starts[j]? with
  | some ⟨k, .covering walk⟩ =>
      (s.engines[k]?).map fun m =>
        { s with starts := s.starts.set j ⟨k, .queueing (walk.sources m.names)⟩ }
  | _ => none

def stepQueue (s : Swaps) (j l : Nat) : Option Swaps :=
  match s.starts[j]? with
  | some ⟨k, .queueing left⟩ =>
      match left[l]?, s.engines[k]? with
      | some i, some m =>
          some { s.setSys k (m.sys.sendWhole i) with
            starts := s.starts.set j ⟨k, .queueing (left.eraseIdx l)⟩ }
      | _, _ => none
  | _ => none

/-- The name of the source a whole walk of which begins. -/
def begunName (m : Member) (a : Scour.Action) : Option Str := (m.sys.begun a).bind (m.names[·]?)

def stepEngine (s : Swaps) (k : Nat) (a : Scour.Action) : Option Swaps :=
  match s.engines[k]? with
  | some m =>
      if a.stops || a.sees then none
      else
        (m.sys.step (config debounce cap m.sources) a).map fun sys =>
          { s.setSys k sys with
            unwalked := s.unwalked.filter fun name => begunName m a != some name }
  | none => none

def step (s : Swaps) : Action → Option Swaps
  | .replan plan => s.stepReplan plan
  | .ask => s.stepAsk debounce cap
  | .stopOld a => s.stepStopOld debounce cap a
  | .install => s.stepInstall debounce cap
  | .covered j => s.stepCovered j
  | .queue j l => s.stepQueue j l
  | .engine k a => s.stepEngine debounce cap k a

/-- A run, if each of its moves can be made and is let happen. -/
def run (ok : Swaps → Action → Bool) : Swaps → List Action → Option Swaps
  | s, [] => some s
  | s, a :: rest => if ok s a then (s.step debounce cap a).bind fun t => run ok t rest else none

/-! ## What is to hold when nothing is under way -/

/-- No swap is in progress, the start thread of the engine in use has queued its walks, and the
engine has no walk queued or running. -/
def quiet (s : Swaps) : Bool :=
  s.swap.isNone && (s.starts.all fun thread => thread.engine != s.inUse || thread.stage.done) &&
    (s.engines[s.inUse]?).all fun m => m.sys.idle

/-- Every source of the engine in use has had a whole walk begin since a swap added it. -/
def Walked (s : Swaps) : Prop :=
  ∀ m, s.engines[s.inUse]? = some m → ∀ name ∈ m.names, name ∉ s.unwalked

/-! ## When a move drops no walk -/

/-- Is a walk of this name dropped if nobody is to make it on the engine in use?  The swap keeps the
source, and its own walk leaves it out. -/
def drops (s : Swaps) (name : Str) : Bool :=
  match s.swap with
  | some ⟨plan, some walk⟩ =>
      s.unwalked.contains name && (planNames plan).contains name && !walk.covers name
  | _ => false

/-- When a move drops no walk, in the state before it. -/
def meets (s : Swaps) : Action → Bool
  -- a start thread hands a walk to an engine that still takes jobs, or the walk is not needed there
  | .queue j l =>
      match s.starts[j]? with
      | some ⟨k, .queueing left⟩ =>
          k != s.inUse || (s.engines[k]?).all fun m =>
            (!m.sys.sentStop && m.sys.worker != .exited) ||
              ((left[l]?).bind (m.names[·]?)).all fun name => !s.drops name
      | _ => true
  -- no start thread still has to hand over a walk that is needed
  | .install =>
      (s.engines[s.inUse]?).all fun m =>
        s.starts.all fun thread => thread.engine != s.inUse ||
          m.names.all fun name => !(thread.stage.owes m.names name && s.drops name)
  | _ => true

/-! ## Who is to make a walk that is owed -/

/-- A whole walk of the source is to begin on the engine in use, or its start thread is to queue
one. -/
def Pending (s : Swaps) (m : Member) (name : Str) : Prop :=
  (∃ i, m.names[i]? = some name ∧ m.sys.Due i) ∨
    ∃ thread ∈ s.starts, thread.engine = s.inUse ∧ thread.stage.owes m.names name = true

/-- What the swap in progress decided to walk. -/
def decided (s : Swaps) : Option StartWalk := s.swap.bind (·.walk)

/-- Is the name among the sources that are to be in use? -/
def Keeps (s : Swaps) (name : Str) : Prop := ∀ sw, s.swap = some sw → name ∈ planNames sw.plan

def Covered (s : Swaps) (name : Str) : Prop := ∃ walk, s.decided = some walk ∧ walk.covers name = true

/-- Every walk owed is seen to. -/
def Owes (s : Swaps) (m : Member) : Prop :=
  ∀ name ∈ s.unwalked, s.Keeps name →
    s.Covered name ∨ ((s.decided = none → name ∈ m.names) → s.Pending m name)

structure Inv (s : Swaps) : Prop where
  queue : ∀ m ∈ s.engines, m.sys.Queue
  used : ∃ m, s.engines[s.inUse]? = some m ∧ (s.decided = none → m.sys.stop = false) ∧ s.Owes m

variable {debounce cap : Nat} {s t : Swaps}

theorem Owes.mono {m m' : Member} (h : s.Owes m) (hswap : t.swap = s.swap)
    (hnames : m'.names = m.names) (hunwalked : ∀ name ∈ t.unwalked, name ∈ s.unwalked)
    (hpending : ∀ name ∈ t.unwalked, s.Keeps name → s.Pending m name →
      s.Covered name ∨ t.Pending m' name) : t.Owes m' := by
  intro name hname hkeeps
  have hkeeps' : s.Keeps name := fun sw hsw => hkeeps sw (by rw [hswap, hsw])
  have hdecided : t.decided = s.decided := by
    unfold decided
    rw [hswap]
  have hcovered : t.Covered name ↔ s.Covered name := by
    unfold Covered
    rw [hdecided]
  rw [hcovered, hdecided, hnames]
  rcases h name (hunwalked name hname) hkeeps' with hc | hp
  · exact Or.inl hc
  · by_cases hn : s.decided = none → name ∈ m.names
    · exact (hpending name hname hkeeps' (hp hn)).imp_right fun hp _ => hp
    · exact Or.inr fun hn' => absurd hn' hn

/-! ## The engines -/

theorem setSys_inUse {m : Member} (hm : s.engines[s.inUse]? = some m) (sys : Sys) :
    (s.setSys s.inUse sys).engines[s.inUse]? = some { m with sys := sys } := by
  show (s.engines.modify s.inUse _)[s.inUse]? = _
  rw [List.getElem?_modify_eq, hm]
  rfl

theorem setSys_other {m : Member} {k : Nat} (hm : s.engines[s.inUse]? = some m)
    (hk : k ≠ s.inUse) (sys : Sys) : (s.setSys k sys).engines[s.inUse]? = some m := by
  show (s.engines.modify k _)[s.inUse]? = _
  rw [List.getElem?_modify_ne _ _ hk, hm]

theorem setSys_queue {k : Nat} {sys : Sys} (h : ∀ m ∈ s.engines, m.sys.Queue) (hsys : sys.Queue) :
    ∀ m ∈ (s.setSys k sys).engines, m.sys.Queue := by
  intro m hm
  obtain ⟨i, hi⟩ := List.mem_iff_getElem?.mp hm
  replace hi : (s.engines.modify k fun m => { m with sys := sys })[i]? = some m := hi
  rw [List.getElem?_modify] at hi
  obtain ⟨m', hm', hi⟩ := Option.map_eq_some_iff.mp hi
  split at hi
  · rw [← hi]
    exact hsys
  · rw [← hi]
    exact h m' (List.mem_of_getElem? hm')

/-- What a start thread has still to do does not depend on the engines. -/
theorem Pending.engine {m : Member} {name : Str} (sys : Sys) (hstarts : t.starts = s.starts)
    (hinUse : t.inUse = s.inUse) (h : s.Pending m name)
    (hdue : ∀ i, m.names[i]? = some name → m.sys.Due i → sys.Due i) :
    t.Pending { m with sys := sys } name := by
  unfold Pending
  rw [hstarts, hinUse]
  refine h.imp_left ?_
  rintro ⟨i, hi, hd⟩
  exact ⟨i, hi, hdue i hi hd⟩

/-! ## A swap -/

theorem inv_opened (debounce cap : Nat) (plan : List Planned) (wantScan : Bool) :
    (opened debounce cap plan wantScan).Inv where
  queue := by
    intro m hm
    rw [List.mem_singleton.mp hm]
    exact Sys.queue_init _
  used := ⟨_, rfl, fun _ => rfl, fun name hname => by cases hname⟩

theorem inv_stepReplan {plan : List Planned} (h : s.Inv) (ht : s.stepReplan plan = some t) :
    t.Inv := by
  unfold stepReplan at ht
  split at ht
  · rename_i m hswap hm
    split at ht
    · cases ht
      exact h
    · cases ht
      obtain ⟨m', hm', hstop, howes⟩ := h.used
      obtain rfl : m = m' := Option.some.inj (hm.symm.trans hm')
      have hnone : s.decided = none := by
        unfold decided
        rw [hswap]
        rfl
      refine ⟨h.queue, m, hm, fun _ => hstop hnone, fun name hname hkeeps => ?_⟩
      right
      intro hin
      replace hin : name ∈ m.names := hin rfl
      rcases List.mem_append.mp hname with hold | hnew
      · rcases howes name hold (fun sw hsw => by rw [hswap] at hsw; cases hsw) with hc | hp
        · obtain ⟨walk, hw, -⟩ := hc
          rw [hnone] at hw
          cases hw
        · exact hp fun _ => hin
      · have := (List.mem_filter.mp hnew).2
        simp [hin] at this
  · cases ht

theorem inv_stepAsk (h : s.Inv) (ht : s.stepAsk debounce cap = some t) : t.Inv := by
  unfold stepAsk at ht
  split at ht
  · rename_i plan m hswap hm
    obtain ⟨sys, hsys, rfl⟩ := Option.map_eq_some_iff.mp ht
    obtain ⟨m', hm', hstop, howes⟩ := h.used
    obtain rfl : m = m' := Option.some.inj (hm.symm.trans hm')
    have hnone : s.decided = none := by
      unfold decided
      rw [hswap]
      rfl
    have hqueue := (h.queue m (List.mem_of_getElem? hm)).step hsys
    refine ⟨setSys_queue h.queue hqueue, { m with sys := sys }, setSys_inUse hm sys, ?_, ?_⟩
    · intro hd
      cases hd
    intro name hname hkeeps
    have hplan : name ∈ planNames plan := hkeeps ⟨plan, some _⟩ rfl
    by_cases hin : name ∈ m.names
    · right
      intro _
      have hkeeps' : s.Keeps name := fun sw hsw => by
        rw [hswap] at hsw
        cases hsw
        exact hplan
      rcases howes name hname hkeeps' with hc | hp
      · obtain ⟨walk, hw, -⟩ := hc
        rw [hnone] at hw
        cases hw
      · refine (hp fun _ => hin).engine _ rfl rfl fun i _ hd => ?_
        exact (hd.step hsys).resolve_right fun hb => by cases hb
    · left
      refine ⟨_, rfl, ?_⟩
      split
      · rfl
      · show ((planNames plan).filter (!m.names.contains ·)).contains name = true
        rw [List.contains_iff_mem, List.mem_filter]
        exact ⟨hplan, by simpa using hin⟩
  · cases ht

theorem inv_stepStopOld {a : Scour.Action} (h : s.Inv) (ht : s.stepStopOld debounce cap a = some t) :
    t.Inv := by
  unfold stepStopOld at ht
  split at ht
  · rename_i plan walk m hswap hm
    split at ht
    · rename_i ha
      obtain ⟨sys, hsys, rfl⟩ := Option.map_eq_some_iff.mp ht
      obtain ⟨m', hm', hstop, howes⟩ := h.used
      obtain rfl : m = m' := Option.some.inj (hm.symm.trans hm')
      have hqueue := (h.queue m (List.mem_of_getElem? hm)).step hsys
      refine ⟨setSys_queue h.queue hqueue, _, setSys_inUse hm sys, fun hd => ?_, ?_⟩
      · unfold decided at hd
        rw [show (s.setSys s.inUse sys).swap = some ⟨plan, some walk⟩ from hswap] at hd
        cases hd
      · refine howes.mono rfl rfl (fun _ hn => hn) fun name _ _ hp => Or.inr ?_
        refine hp.engine _ rfl rfl fun i _ hd => ?_
        refine (hd.step hsys).resolve_right fun hb => ?_
        cases a <;> first | cases hb | cases ha
    · cases ht
  · cases ht

theorem mem_names_of_owes {names : List Str} {name : Str} {stage : StartStage}
    (h : stage.owes names name = true) : name ∈ names := by
  cases stage with
  | covering walk =>
    simp only [StartStage.owes, Bool.and_eq_true, List.contains_iff_mem] at h
    exact h.2
  | queueing left =>
    obtain ⟨i, -, hi⟩ := List.any_eq_true.mp h
    exact List.mem_of_getElem? (beq_iff_eq.mp hi)

theorem drops_iff {plan : List Planned} {walk : StartWalk} {name : Str}
    (hswap : s.swap = some ⟨plan, some walk⟩) : s.drops name = true ↔
      name ∈ s.unwalked ∧ name ∈ planNames plan ∧ walk.covers name = false := by
  unfold drops
  rw [hswap]
  simp [and_assoc]

/-- What the swap's own walk leaves out, nobody is owed a walk of when the engine is replaced. -/
theorem covers_of_install {plan : List Planned} {walk : StartWalk} {m : Member} {name : Str}
    (h : s.Owes m) (hm : s.engines[s.inUse]? = some m) (hswap : s.swap = some ⟨plan, some walk⟩)
    (hexited : m.sys.worker = .exited) (hmeets : s.meets .install = true)
    (hname : name ∈ s.unwalked) (hin : name ∈ planNames plan) : walk.covers name = true := by
  by_contra hno
  rw [Bool.not_eq_true] at hno
  have hdrops : s.drops name = true := (drops_iff hswap).mpr ⟨hname, hin, hno⟩
  have hkeeps : s.Keeps name := fun sw hsw => by
    rw [hswap] at hsw
    cases hsw
    exact hin
  have hdecided : s.decided = some walk := by
    unfold decided
    rw [hswap]
    rfl
  rcases h name hname hkeeps with ⟨walk', hw, hc⟩ | hp
  · rw [hdecided] at hw
    cases hw
    rw [hno] at hc
    cases hc
  · have hp := hp fun hd => by
      rw [hdecided] at hd
      cases hd
    rcases hp with ⟨i, -, hd⟩ | ⟨thread, hthread, hk, howes⟩
    · exact hd.1 hexited
    · simp only [meets, hm, Option.all_some, List.all_eq_true] at hmeets
      have hnone := hmeets thread hthread
      rw [hk] at hnone
      simp only [bne_self_eq_false, Bool.false_or, List.all_eq_true] at hnone
      have := hnone name (mem_names_of_owes howes)
      rw [howes, hdrops] at this
      cases this

theorem inv_stepInstall (h : s.Inv) (hmeets : s.meets .install = true)
    (ht : s.stepInstall debounce cap = some t) : t.Inv := by
  unfold stepInstall at ht
  split at ht
  · rename_i plan walk m hswap hm
    split at ht
    · rename_i hstopped
      cases ht
      obtain ⟨m', hm', hstop, howes⟩ := h.used
      obtain rfl : m = m' := Option.some.inj (hm.symm.trans hm')
      refine ⟨?_, build debounce cap plan, List.getElem?_concat_length, fun _ => rfl, ?_⟩
      · intro m' hm'
        rcases List.mem_append.mp hm' with hm' | hm'
        · exact h.queue m' hm'
        · rw [List.mem_singleton.mp hm']
          exact Sys.queue_init _
      · intro name hname _
        right
        intro hin
        replace hin : name ∈ planNames plan := hin rfl
        have hcovers := covers_of_install howes hm hswap hstopped.2 hmeets hname hin
        refine Or.inr ⟨_, List.mem_append_right _ (List.mem_singleton.mpr rfl), rfl, ?_⟩
        show (walk.covers name && (planNames plan).contains name) = true
        rw [hcovers, Bool.true_and, List.contains_iff_mem]
        exact hin
    · cases ht
  · cases ht

/-! ## A start thread -/

theorem set_getElem?_mem {α : Type} {l : List α} {j : Nat} {x y : α} (h : l[j]? = some x) :
    y ∈ l.set j y := by
  obtain ⟨hj, -⟩ := List.getElem?_eq_some_iff.mp h
  exact List.mem_iff_getElem.mpr ⟨j, by rwa [List.length_set], List.getElem_set_self _⟩

/-- The other threads have as much to do as before. -/
theorem Pending.start {m : Member} {j : Nat} {name : Str} {thread next : StartThread}
    {engines : List Member} (hj : s.starts[j]? = some thread) (h : s.Pending m name)
    (hnext : thread.engine = s.inUse → thread.stage.owes m.names name = true →
      next.engine = s.inUse ∧ next.stage.owes m.names name = true) :
    Pending { s with engines := engines, starts := s.starts.set j next } m name := by
  rcases h with hdue | ⟨th, hth, hk, howes⟩
  · exact Or.inl hdue
  · right
    obtain ⟨n, hn⟩ := List.mem_iff_getElem?.mp hth
    by_cases hjn : j = n
    · subst hjn
      obtain rfl : thread = th := Option.some.inj (hj.symm.trans hn)
      exact ⟨next, set_getElem?_mem hj, hnext hk howes⟩
    · refine ⟨th, ?_, hk, howes⟩
      apply List.mem_of_getElem? (i := n)
      show (s.starts.set j next)[n]? = some th
      rw [List.getElem?_set_ne hjn, hn]

theorem owes_sources {names : List Str} {name : Str} {walk : StartWalk}
    (h : (StartStage.covering walk).owes names name = true) :
    (StartStage.queueing (walk.sources names)).owes names name = true := by
  simp only [StartStage.owes, Bool.and_eq_true, List.contains_iff_mem] at h
  obtain ⟨hcovers, hin⟩ := h
  obtain ⟨i, hi⟩ := List.mem_iff_getElem?.mp hin
  obtain ⟨hlt, -⟩ := List.getElem?_eq_some_iff.mp hi
  cases walk with
  | nothing => cases hcovers
  | all =>
    exact List.any_eq_true.mpr ⟨i, List.mem_range.mpr hlt, beq_iff_eq.mpr hi⟩
  | named wanted =>
    have hwanted : name ∈ wanted := by
      rw [← List.contains_iff_mem]
      exact hcovers
    refine List.any_eq_true.mpr ⟨names.idxOf name, ?_, ?_⟩
    · refine List.mem_map_of_mem (List.mem_filter.mpr ⟨hwanted, ?_⟩)
      rw [List.contains_iff_mem]
      exact hin
    · rw [beq_iff_eq]
      exact List.getElem?_idxOf hin

theorem inv_stepCovered {j : Nat} (h : s.Inv) (ht : s.stepCovered j = some t) : t.Inv := by
  unfold stepCovered at ht
  split at ht
  · rename_i k walk hj
    obtain ⟨m', hm', rfl⟩ := Option.map_eq_some_iff.mp ht
    obtain ⟨m, hm, hstop, howes⟩ := h.used
    refine ⟨h.queue, m, hm, hstop, howes.mono rfl rfl (fun _ hn => hn) fun name _ _ hp => ?_⟩
    right
    refine hp.start hj fun hk ho => ⟨hk, ?_⟩
    obtain rfl : m' = m := by
      rw [show k = s.inUse from hk, hm] at hm'
      exact (Option.some.inj hm').symm
    exact owes_sources ho
  · cases ht

theorem any_eraseIdx_getElem {α : Type} {l : List α} {n : Nat} {x : α} {p : α → Bool}
    (hn : l[n]? = some x) (hx : p x = false) (h : l.any p = true) : (l.eraseIdx n).any p = true := by
  obtain ⟨y, hy, hp⟩ := List.any_eq_true.mp h
  obtain ⟨k, hk⟩ := List.mem_iff_getElem?.mp hy
  refine List.any_eq_true.mpr ⟨y, ?_, hp⟩
  rw [List.mem_eraseIdx_iff_getElem?]
  refine ⟨k, fun hkn => ?_, hk⟩
  subst hkn
  obtain rfl : x = y := Option.some.inj (hn.symm.trans hk)
  rw [hx] at hp
  cases hp

/-- A walk handed to an engine that takes no more jobs was not needed there. -/
theorem not_needed {m : Member} {j l i : Nat} {left : List Nat} {name : Str}
    (hm : s.engines[s.inUse]? = some m) (hstop : s.decided = none → m.sys.stop = false)
    (hqueue : m.sys.Queue) (hmeets : s.meets (.queue j l) = true)
    (hj : s.starts[j]? = some ⟨s.inUse, .queueing left⟩) (hl : left[l]? = some i)
    (hi : m.names[i]? = some name) (hname : name ∈ s.unwalked) (hkeeps : s.Keeps name)
    (htakes : ¬(m.sys.sentStop = false ∧ m.sys.worker ≠ .exited)) : s.Covered name := by
  simp only [meets, hj, hm, hl, hi, bne_self_eq_false, Bool.false_or, Option.all_some,
    Option.bind_some, Bool.or_eq_true, Bool.and_eq_true, Bool.not_eq_true', bne_iff_ne] at hmeets
  have hdrops := hmeets.resolve_left htakes
  cases hd : s.decided with
  | none =>
    have := hqueue.serving (hstop hd)
    exact absurd this.2 htakes
  | some walk =>
    refine ⟨walk, hd, ?_⟩
    obtain ⟨sw, hsw, hwalk⟩ := Option.bind_eq_some_iff.mp hd
    obtain ⟨plan, w⟩ := sw
    obtain rfl : w = some walk := hwalk
    by_contra hno
    rw [Bool.not_eq_true] at hno
    rw [(drops_iff hsw).mpr ⟨hname, hkeeps _ hsw, hno⟩] at hdrops
    cases hdrops

theorem inv_stepQueue {j l : Nat} (h : s.Inv) (hmeets : s.meets (.queue j l) = true)
    (ht : s.stepQueue j l = some t) : t.Inv := by
  unfold stepQueue at ht
  split at ht
  · rename_i k left hj
    split at ht
    · rename_i i m' hl hm'
      cases ht
      obtain ⟨m, hm, hstop, howes⟩ := h.used
      have hqueue := (h.queue m' (List.mem_of_getElem? hm')).sendWhole i
      by_cases hk : k = s.inUse
      · subst hk
        obtain rfl : m' = m := Option.some.inj (hm'.symm.trans hm)
        have hstop' : (m'.sys.sendWhole i).stop = m'.sys.stop := by
          unfold Sys.sendWhole Sys.queueWhole
          split
          · rfl
          · split <;> rfl
        refine ⟨setSys_queue h.queue hqueue, _, setSys_inUse hm _, fun hd => ?_, ?_⟩
        · rw [← hstop hd]
          exact hstop'
        · refine howes.mono rfl rfl (fun _ hn => hn) fun name hname hkeeps hp => ?_
          by_cases hi : m'.names[i]? = some name
          · by_cases htakes : m'.sys.sentStop = false ∧ m'.sys.worker ≠ .exited
            · right
              exact Or.inl ⟨i, hi, (h.queue m' (List.mem_of_getElem? hm)).due_sendWhole htakes.1
                htakes.2 i⟩
            · left
              exact not_needed hm hstop (h.queue m' (List.mem_of_getElem? hm)) hmeets hj hl hi hname
                hkeeps htakes
          · right
            have hp' := hp.engine (t := s) (m'.sys.sendWhole i) rfl rfl
              fun _ _ hd => hd.sendWhole
            refine hp'.start hj fun _ ho => ⟨rfl, ?_⟩
            refine any_eraseIdx_getElem hl ?_ ho
            exact beq_eq_false_iff_ne.mpr hi
      · refine ⟨setSys_queue h.queue hqueue, m, setSys_other hm hk _, hstop, ?_⟩
        refine howes.mono rfl rfl (fun _ hn => hn) fun name _ _ hp => Or.inr ?_
        exact hp.start hj fun he _ => absurd he hk
    · cases ht
  · cases ht

/-! ## An engine -/

theorem inv_stepEngine {k : Nat} {a : Scour.Action} (h : s.Inv)
    (ht : s.stepEngine debounce cap k a = some t) : t.Inv := by
  unfold stepEngine at ht
  split at ht
  · rename_i m' hm'
    split at ht
    · cases ht
    · rename_i ha
      rw [Bool.or_eq_true, not_or, Bool.not_eq_true] at ha
      obtain ⟨sys, hsys, rfl⟩ := Option.map_eq_some_iff.mp ht
      obtain ⟨m, hm, hstop, howes⟩ := h.used
      have hqueue := (h.queue m' (List.mem_of_getElem? hm')).step hsys
      by_cases hk : k = s.inUse
      · subst hk
        obtain rfl : m' = m := Option.some.inj (hm'.symm.trans hm)
        refine ⟨setSys_queue h.queue hqueue, _, setSys_inUse hm _, fun hd => ?_, ?_⟩
        · rw [← hstop hd]
          exact Sys.step_stop ha.1 hsys
        · refine howes.mono rfl rfl (fun _ hn => (List.mem_filter.mp hn).1) fun name hname _ hp => ?_
          right
          refine hp.engine _ rfl rfl fun i hi hd => (hd.step hsys).resolve_right fun hb => ?_
          -- a walk of the name has begun
          have := (List.mem_filter.mp hname).2
          unfold begunName at this
          rw [hb] at this
          simp [hi] at this
      · refine ⟨setSys_queue h.queue hqueue, m, setSys_other hm hk _, hstop, ?_⟩
        refine howes.mono rfl rfl (fun _ hn => (List.mem_filter.mp hn).1) fun name _ _ hp => Or.inr ?_
        exact hp.engine _ rfl rfl fun _ _ hd => hd
  · cases ht

/-! ## Every run -/

theorem inv_step {a : Action} (h : s.Inv) (hmeets : s.meets a = true)
    (ht : s.step debounce cap a = some t) : t.Inv := by
  cases a with
  | replan plan => exact inv_stepReplan h ht
  | ask => exact inv_stepAsk h ht
  | stopOld a => exact inv_stepStopOld h ht
  | install => exact inv_stepInstall h hmeets ht
  | covered j => exact inv_stepCovered h ht
  | queue j l => exact inv_stepQueue h hmeets ht
  | engine k a => exact inv_stepEngine h ht

theorem inv_run {actions : List Action} :
    ∀ {s : Swaps}, s.Inv → s.run debounce cap meets actions = some t → t.Inv := by
  induction actions with
  | nil =>
    intro s h hrun
    cases hrun
    exact h
  | cons a rest ih =>
    intro s h hrun
    rw [run] at hrun
    split at hrun
    · rename_i hmeets
      obtain ⟨s', hs', hrest⟩ := Option.bind_eq_some_iff.mp hrun
      exact ih (inv_step h hmeets hs') hrest
    · cases hrun

theorem not_due_of_idle {sys : Sys} {i : Nat} (h : sys.idle = true) : ¬sys.Due i := by
  unfold Sys.idle at h
  rw [Bool.and_eq_true, List.all_eq_true] at h
  rintro ⟨-, hjob | htodo⟩
  · have := h.1 _ (List.takeWhile_subset _ hjob)
    cases this
  · unfold Sys.todo at htodo
    split at htodo
    · rename_i running todo due hw
      have := h.2
      rw [hw, Bool.and_eq_true, List.isEmpty_iff] at this
      rw [this.2] at htodo
      cases htodo
    · cases htodo

theorem not_owes_of_done {names : List Str} {name : Str} {stage : StartStage}
    (h : stage.done = true) : stage.owes names name = false := by
  cases stage with
  | covering walk => cases h
  | queueing left =>
    rw [List.isEmpty_iff.mp (show left.isEmpty = true from h)]
    rfl

/-- In a run whose moves all meet `meets` every source of the engine in use has had a whole walk
begin since a swap added it, whenever nothing is under way. -/
theorem run_walked (debounce cap : Nat) (plan : List Planned) (wantScan : Bool)
    (actions : List Action) (s : Swaps)
    (hrun : (opened debounce cap plan wantScan).run debounce cap meets actions = some s)
    (hquiet : s.quiet = true) : s.Walked := by
  obtain ⟨-, m, hm, -, howes⟩ := inv_run (inv_opened debounce cap plan wantScan) hrun
  unfold quiet at hquiet
  rw [hm, Option.all_some, Bool.and_eq_true, Bool.and_eq_true, Option.isNone_iff_eq_none,
    List.all_eq_true] at hquiet
  obtain ⟨⟨hswap, hstarts⟩, hidle⟩ := hquiet
  intro m' hm' name hname hun
  obtain rfl : m = m' := Option.some.inj (hm.symm.trans hm')
  have hdecided : s.decided = none := by
    unfold decided
    rw [hswap]
    rfl
  have hkeeps : s.Keeps name := fun sw hsw => by
    rw [hswap] at hsw
    cases hsw
  rcases howes name hun hkeeps with ⟨walk, hw, -⟩ | hp
  · rw [hdecided] at hw
    cases hw
  · rcases hp (fun _ => hname) with ⟨i, -, hd⟩ | ⟨thread, hthread, hk, ho⟩
    · exact not_due_of_idle hidle hd
    · have hdone := hstarts thread hthread
      rw [hk, bne_self_eq_false, Bool.false_or] at hdone
      rw [not_owes_of_done hdone] at ho
      cases ho

/-! ## A disk that joins while another is covered -/

/-- A source of one root. -/
def sourceAt (name : String) : Planned where
  source := { name := str name, kind := .removable, roots := [str ("/" ++ name)], watch := true }
  skip := []
  system := false

/-- What a swap does to the engine in use, whose number this is, once it has asked. -/
def stopping (k : Nat) : List Action :=
  [.stopOld .setStop, .stopOld .stopWatches, .stopOld .sendStop, .engine k .takeJob, .install]

/-- An engine begins a walk that is queued, and makes it. -/
def walking (k : Nat) : List Action :=
  [.engine k .takeJob, .engine k .begin, .engine k (.finish false), .engine k (.takeDue 0),
    .engine k .endTurn]

/-- A disk joins, and is walked. -/
def joins : List Action :=
  [.covered 0, .replan [sourceAt "a", sourceAt "b"], .ask] ++ stopping 0 ++
    [.covered 1, .queue 1 0] ++ walking 1

theorem run_walked_joins : ∃ s, (opened 1 1 [sourceAt "a"] false).run 1 1 meets joins = some s ∧
    s.quiet = true ∧ s.Walked := by
  have hrun : ((opened 1 1 [sourceAt "a"] false).run 1 1 meets joins).any quiet = true := by
    decide +kernel
  obtain ⟨s, hs, hquiet⟩ := (Option.any_eq_true _ _).mp hrun
  exact ⟨s, hs, hquiet, run_walked _ _ _ _ _ s hs hquiet⟩

/-- A third joins before the start thread has covered the second. -/
def joinsSoon : List Action :=
  [.covered 0, .replan [sourceAt "a", sourceAt "b"], .ask] ++ stopping 0 ++
    [.replan [sourceAt "a", sourceAt "b", sourceAt "c"], .ask] ++ stopping 1 ++
      [.covered 1, .queue 1 0, .covered 2, .queue 2 0] ++ walking 2

/-- No whole walk of the second disk has begun. -/
theorem not_run_walked : ¬ ∀ (debounce cap : Nat) (plan : List Planned) (wantScan : Bool)
    (actions : List Action) (s : Swaps),
    (opened debounce cap plan wantScan).run debounce cap (fun _ _ => true) actions = some s →
      s.quiet = true → s.Walked := by
  intro h
  have hrun : ((opened 1 1 [sourceAt "a"] false).run 1 1 (fun _ _ => true) joinsSoon).any
      (fun s => s.quiet && s.unwalked.contains (str "b") &&
        (s.engines[s.inUse]?).any fun m => m.names.contains (str "b")) = true := by
    decide +kernel
  obtain ⟨s, hs, hlost⟩ := (Option.any_eq_true _ _).mp hrun
  rw [Bool.and_eq_true, Bool.and_eq_true, List.contains_iff_mem, Option.any_eq_true] at hlost
  obtain ⟨⟨hquiet, hun⟩, m, hm, hin⟩ := hlost
  exact h 1 1 [sourceAt "a"] false joinsSoon s hs hquiet m hm _ (List.contains_iff_mem.mp hin) hun

end Swaps

end Scour
