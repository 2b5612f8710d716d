import Scour.Entry
import Scour.PendingWalks

/-!
# The engine's worker, and how it is stopped

One thread takes jobs from one queue and changes from another, in any order; what a watcher asks to
have walked waits in `PendingWalks`.  `step` is one move of the worker, of a watcher, of a caller or
of the thread that shuts the engine down (`Live::swap`, `Engine::shutdown`), and a run is any
sequence of moves.  A request the worker can no longer receive is an error, and no move here.  What
the index does is not modelled: `applied` is what was handed to it.  The worker's clocks and counters
are left out, and with them the commits: a walk a clock starts is `ownWalk`.

`emitted` and `owed` are what a run is judged by: the changes the watchers emitted, and the walks
asked for and not yet made.
-/

namespace Scour

/-- The roots of each source, and the two debounce times. -/
structure EngineConfig where
  roots : List (List Str)
  walkDebounce : Nat
  walkDebounceCap : Nat

namespace EngineConfig

/-- The longest root of a source that `path` is at or below. -/
def rootLen (path : Str) (roots : List Str) : Option Nat :=
  (((roots.map trimEnd).filter fun r =>
    path == r || (r.isPrefixOf path && path[r.length]? == some slash)).map List.length).max?

/-- `owner_of`: the last of the sources with the longest such root. -/
def ownerOf (c : EngineConfig) (path : Str) : Option Nat :=
  (c.roots.zipIdx.foldl (fun best s =>
    match rootLen path s.1, best with
    | none, best => best
    | some len, none => some (s.2, len)
    | some len, some (i, l) => if l ≤ len then some (s.2, len) else some (i, l)) none).map (·.1)

end EngineConfig

/-- Work the background thread does. -/
inductive EngineJob where
  /-- Walk a source, or one subtree of it. -/
  | scan (source : Nat) (subtree : Option Str)
  | maintain
  | stop
deriving DecidableEq

/-- A walk: of a whole source, or of one subtree of it. -/
structure Walk where
  source : Nat
  subtree : Option Str
deriving DecidableEq

/-- Does making the one walk make the other? -/
def Walk.answers (w r : Walk) : Bool :=
  w.source == r.source &&
    match w.subtree, r.subtree with
    | none, _ => true
    | some q, some p => under p q
    | some _, none => false

/-- The walks a pending path stands for.  An empty one means "I lost track and cannot say where". -/
def EngineConfig.walksOf (c : EngineConfig) (path : Str) : List Walk :=
  if path.isEmpty then (List.range c.roots.length).map fun i => ⟨i, none⟩
  else
    match c.ownerOf path with
    | some i => [⟨i, some path⟩]
    | none => []

/-- Where the worker is in its loop. -/
inductive Worker where
  /-- At the `select!`. -/
  | waiting
  /-- Making walks, the ones still to begin behind the one that runs, if one does.  Beside it the
  walks owed that it will have made. -/
  | walking (running : Option (Walk × List Walk)) (todo : List Walk) (due : Bool)
  /-- Out of the loop, its last commit made. -/
  | exited
deriving DecidableEq

structure Sys where
  jobs : List EngineJob
  changes : List Change
  /-- Per source: a whole-source walk is already waiting to run. -/
  queued : List Bool
  scanning : Bool
  stop : Bool
  /-- Have the watch handles not been stopped? -/
  watching : Bool
  sentStop : Bool
  pending : PendingWalks
  worker : Worker
  /-- What `Engine::walking` said when the swap asked. -/
  seen : Option Bool
  /-- What was handed to the index. -/
  applied : List Change
  emitted : List Change
  owed : List Walk
deriving DecidableEq

inductive Action where
  /-- A watcher hands over a change. -/
  | emit (change : Change)
  /-- `queue_whole`. -/
  | askWhole (source : Nat)
  /-- `rescan(Some(path))`. -/
  | askSubtree (path : Str)
  | askMaintain
  /-- The swap asks whether the engine is walking. -/
  | see
  /-- The three steps of `shutdown` before it joins the worker. -/
  | setStop
  | stopWatches
  | sendStop
  /-- The arms of the worker's `select!`. -/
  | takeJob
  | takeChanges (now : Nat)
  | timeout
  /-- The rest of its turn. -/
  | takeDue (now : Nat)
  | ownWalk (source : Nat)
  | begin
  | finish (cut : Bool)
  | endTurn

namespace Sys

/-- What the bounded channel holds. -/
def CHANNEL : Nat := 65536

def BATCH : Nat := 4096

def init (c : EngineConfig) : Sys where
  jobs := []
  changes := []
  queued := List.replicate c.roots.length false
  scanning := false
  stop := false
  watching := true
  sentStop := false
  pending := .empty
  worker := .waiting
  seen := none
  applied := []
  emitted := []
  owed := []

/-- `Engine::walking`: a walk running, or one asked for that has not started. -/
def walkingNow (s : Sys) : Bool := s.scanning || s.queued.any id

/-- Is this a change to be indexed, and no request for a walk? -/
def isData : Change → Bool
  | .rescan _ => false
  | _ => true

/-- The paths a batch asks to have walked. -/
def rescans (batch : List Change) : List Str :=
  batch.filterMap fun
    | .rescan path => some path
    | _ => none

/-- The walks a change asks for. -/
def asks (c : EngineConfig) : Change → List Walk
  | .rescan path => c.walksOf (trimEnd path)
  | _ => []

/-- Queue a whole walk, unless one is queued already. -/
def queueWhole (s : Sys) (i : Nat) : Sys :=
  if s.queued.getD i false then s
  else { s with queued := s.queued.set i true, jobs := s.jobs ++ [.scan i none] }

/-- One move. -/
def step (c : EngineConfig) (s : Sys) : Action → Option Sys
  | .emit change =>
      if s.watching = false then none
      -- nobody receives it
      else if s.worker = .exited then
        some { s with emitted := s.emitted ++ [change], owed := s.owed ++ asks c change }
      -- a full channel slows the watcher
      else if s.changes.length < CHANNEL then
        some { s with
          changes := s.changes ++ [change]
          emitted := s.emitted ++ [change]
          owed := s.owed ++ asks c change }
      else none
  | .askWhole i =>
      if s.watching ∧ s.worker ≠ .exited ∧ i < c.roots.length then
        some { s.queueWhole i with owed := s.owed ++ [⟨i, none⟩] }
      else none
  | .askSubtree path =>
      match c.ownerOf path with
      | some i =>
          if s.watching ∧ s.worker ≠ .exited then
            some { s with
              jobs := s.jobs ++ [.scan i (some path)]
              owed := s.owed ++ [⟨i, some path⟩] }
          else none
      -- not found: nothing is asked
      | none => none
  | .askMaintain =>
      if s.watching ∧ s.worker ≠ .exited then some { s with jobs := s.jobs ++ [.maintain] }
      else none
  | .see =>
      if s.seen = none ∧ s.stop = false then some { s with seen := some s.walkingNow } else none
  | .setStop => if s.seen ≠ none ∧ s.stop = false then some { s with stop := true } else none
  | .stopWatches => if s.stop ∧ s.watching then some { s with watching := false } else none
  | .sendStop =>
      if s.watching = false ∧ s.sentStop = false then
        some { s with
          jobs := if s.worker = .exited then s.jobs else s.jobs ++ [.stop]
          sentStop := true }
      else none
  | .takeJob =>
      match s.worker, s.jobs with
      | .waiting, .stop :: rest => some { s with jobs := rest, worker := .exited }
      | .waiting, .scan i subtree :: rest =>
          some { s with
            jobs := rest
            -- from here a fresh request is about what this walk has passed
            queued := if subtree = none then s.queued.set i false else s.queued
            worker := .walking none [⟨i, subtree⟩] true }
      | .waiting, .maintain :: rest => some { s with jobs := rest, worker := .walking none [] true }
      | _, _ => none
  | .takeChanges now =>
      if s.worker = .waiting ∧ s.changes ≠ [] then
        let batch := s.changes.take BATCH
        some { s with
          changes := s.changes.drop BATCH
          applied := s.applied ++ batch.filter isData
          pending := (coalesce (rescans batch)).foldl (fun w p => w.add p now) s.pending
          worker := .walking none [] true }
      else none
  | .timeout => if s.worker = .waiting then some { s with worker := .walking none [] true } else none
  | .takeDue now =>
      if s.worker = .walking none [] true then
        let (paths, pending) := s.pending.takeDue c.walkDebounce c.walkDebounceCap now
        some { s with pending := pending, worker := .walking none (paths.flatMap c.walksOf) false }
      else none
  | .ownWalk i =>
      if s.worker = .walking none [] false ∧ i < c.roots.length then
        some { s with worker := .walking none [⟨i, none⟩] false }
      else none
  | .begin =>
      match s.worker with
      | .walking none (w :: todo) due =>
          some { s with
            scanning := true
            worker := .walking (some (w, s.owed.filter w.answers)) todo due }
      | _ => none
  | .finish cut =>
      match s.worker with
      | .walking (some (_, made)) todo due =>
          -- a walk is cut short by the flag alone
          if cut = true ∧ s.stop = false then none
          else
            some { s with
              scanning := false
              owed := if cut then s.owed else s.owed.diff made
              worker := .walking none todo due }
      | _ => none
  | .endTurn =>
      if s.worker = .walking none [] false then
        if s.stop ∧ s.jobs.isEmpty ∧ s.changes.isEmpty then some { s with worker := .exited }
        else some { s with worker := .waiting }
      else none

/-- Has `shutdown` got past joining the worker? -/
def returned (s : Sys) : Prop := s.sentStop = true ∧ s.worker = .exited

/-- Every change emitted has been handed to the index, and every walk asked for has been made or was
announced by `walking`. -/
def NothingLost (s : Sys) : Prop :=
  s.applied = s.emitted.filter isData ∧ (s.owed = [] ∨ s.seen = some true)

/-- A run: each move is made in the state the one before it left. -/
inductive Run (c : EngineConfig) : Sys → Sys → Prop where
  | nil (s : Sys) : Run c s s
  | cons {s t u : Sys} (a : Action) : Run c s t → t.step c a = some u → Run c s u

end Sys

end Scour
