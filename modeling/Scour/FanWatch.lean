import Scour.DirDisk
import Scour.Rules

/-!
# The watcher of one source

`FanWatch` hears of directories made anywhere on the disk, by the inode of the one they are in and a
name.  The reader takes a window of events: it names every one by the map, drops what the map does
not know, and only then teaches the map what was made.  Whatever it learned is covered later: a walk
of its subtree, under no lock, finds what its events were dropped for.  A retune walks the roots
with stricter rules and replaces the map.

Covers and retunes are made under the lock of the engine's watches, so there is one `Job` at a time.
A step that panics, for a map that is full or a rule with no components, is `none`.
-/

namespace Scour

open Search

namespace FanWatch

/-- A directory was made, under this name in that. -/
structure Event where
  parent : DirKey
  name : Text
deriving DecidableEq

/-- A walk that prunes by some rules: what it has to read yet, and what it found. -/
structure DirWalk where
  rules : Rules
  todo : List (DirKey × Text)
  found : List InsertCall

/-- Who holds the lock of the watches. -/
inductive Job where
  | cover (w : DirWalk)
  | retune (w : DirWalk)

structure State where
  disk : DirDisk
  queue : List Event
  roots : List Text
  rules : Rules
  map : DirMap
  /-- The subtrees to be covered. -/
  owed : List Text
  job : Option Job

variable (U : Unicode) (K : Kernel)

/-! ## Walks -/

/-- What the rules do not exclude. -/
def admitted (r : Rules) : List (DirKey × Text) → Option (List (DirKey × Text))
  | [] => some []
  | dir :: dirs =>
      (r.excludesPath U (utf8 dir.2)).bind fun excluded =>
        (admitted r dirs).map fun l => if excluded then l else dir :: l

/-- The directories a walk begins with. -/
def DirWalk.start (x : DirDisk) (r : Rules) (tops : List Text) : Option DirWalk :=
  (admitted U r (tops.filterMap fun top => (x.stat top).map fun k => (k, top))).map fun dirs =>
    ⟨r, dirs, dirs.map fun dir => x.callAt dir.1 dir.2⟩

/-- One directory is read. -/
def DirWalk.read (x : DirDisk) (i : Nat) (w : DirWalk) : Option DirWalk :=
  (w.todo[i]?).bind fun dir =>
    (admitted U w.rules
      ((x.made.filter (·.parent == dir.1)).map fun e => (e.key, joinText dir.2 e.name))).map
      fun dirs =>
        { w with
          todo := w.todo.eraseIdx i ++ dirs
          found := w.found ++ dirs.map fun d => ⟨d.1, some dir.1, d.2⟩ }

def insertCalls (x : DirDisk) (m : DirMap) (calls : List InsertCall) : Option DirMap :=
  calls.foldlM (fun m c => m.insertKey (x.tagOf K) c.key c.parent c.path) m

/-! ## Events -/

/-- The path an event is about.  The name `.` is the directory itself, and a root has no row. -/
def eventPath (dir name : Text) (roots : List Text) : Option Text :=
  if name = ['.'] then
    let own := if 1 < (utf8 dir).length then dir.rdropWhile (· = '/') else dir
    if roots.any fun r => r.rdropWhile (· = '/') == own then none else some own
  else some (if dir.getLast? = some '/' then dir ++ name else dir ++ '/' :: name)

/-- What a window's events are about: what the map does not know is dropped. -/
def looks (s : State) : List Event → Option (List Text)
  | [] => some []
  | e :: es =>
      match (s.map.pathOf e.parent.ino (K.event e.parent.dev)).bind (eventPath · e.name s.roots) with
      | none => looks s es
      | some full =>
          (s.rules.excludesPath U (utf8 full)).bind fun excluded =>
            (looks s es).map fun l => if excluded then l else full :: l

/-- What `learn` inserts for a path: the directory that is there. -/
def learned (x : DirDisk) (full : Text) : Option InsertCall :=
  (x.stat full).map fun k => x.callAt k full

/-! ## Steps -/

inductive Act where
  /-- Anybody makes a directory, and its event is queued. -/
  | mkdir (e : Made)
  /-- The reader takes so many events, and learns what they are about in this order. -/
  | window (n : Nat) (order : List Text)
  /-- The cover of a subtree begins. -/
  | cover (i : Nat)
  | coverRead
  | coverInsert
  /-- A retune begins, with these rules. -/
  | retune (rules : Rules)
  | retuneRead (i : Nat)
  /-- The rules and the map are replaced: the walk's threads found it in this order. -/
  | replace (order : List InsertCall)

def step (s : State) : Act → Option State
  | .mkdir e =>
      some { s with disk := s.disk.grow e, queue := s.queue ++ [⟨e.parent, e.name⟩] }
  | .window n order =>
      (looks U K s (s.queue.take n)).bind fun l =>
        if order.isPerm l.dedup then
          (insertCalls K s.disk s.map (order.filterMap (learned s.disk))).map fun m =>
            { s with map := m, queue := s.queue.drop n, owed := s.owed ++ order }
        else none
  | .cover i =>
      match s.job, s.owed[i]? with
      | none, some top =>
          (DirWalk.start U s.disk s.rules [top]).map fun w =>
            { s with owed := s.owed.eraseIdx i, job := some (.cover w) }
      | _, _ => none
  | .coverRead =>
      match s.job with
      | some (.cover w) =>
          (w.read U s.disk (w.todo.length - 1)).map fun w => { s with job := some (.cover w) }
      | _ => none
  | .coverInsert =>
      match s.job with
      | some (.cover w) =>
          if w.todo.isEmpty then
            (insertCalls K s.disk s.map w.found).map fun m => { s with map := m, job := none }
          else none
      | _ => none
  | .retune rules =>
      match s.job with
      | none =>
          (DirWalk.start U s.disk rules s.roots).map fun w => { s with job := some (.retune w) }
      | _ => none
  | .retuneRead i =>
      match s.job with
      | some (.retune w) => (w.read U s.disk i).map fun w => { s with job := some (.retune w) }
      | _ => none
  | .replace order =>
      match s.job with
      | some (.retune w) =>
          if w.todo.isEmpty && order.isPerm w.found then
            (insertCalls K s.disk .empty order).map fun m =>
              { s with rules := w.rules, map := m, job := none }
          else none
      | _ => none

/-! ## What a run is, and what it should come to -/

/-- A path the rules do not exclude. -/
def Admits (r : Rules) (path : Text) : Prop := r.excludesPath U (utf8 path) = some false

/-- A directory at a root, or below one. -/
def Within (x : DirDisk) (roots : List Text) (k : DirKey) : Prop :=
  ∃ root ∈ roots, ∃ a, x.At a root ∧ x.hung.Under a k

/-- A directory is made where one can be, and rules get no weaker. -/
def Legal (s : State) : Act → Prop
  | .mkdir e => s.disk.Free e
  | .retune rules => ∀ path, Admits U rules path → Admits U s.rules path
  | _ => True

/-- The watcher has started, with a map of what its rules admit below the roots. -/
structure Started (s : State) (calls : List InsertCall) : Prop where
  disk : s.disk.Ok
  roots : ∀ root ∈ s.roots, ∃ a, s.disk.At a root
  queue : s.queue = []
  owed : s.owed = []
  job : s.job = none
  map : insertCalls K s.disk .empty calls = some s.map
  whole : ∀ c, c ∈ calls ↔ ∃ k path, s.disk.At k path ∧ Within s.disk s.roots k ∧
    Admits U s.rules path ∧ c = s.disk.callAt k path

/-- Nothing is queued, owed or running. -/
def Quiet (s : State) : Prop := s.queue = [] ∧ s.owed = [] ∧ s.job = none

/-- Every directory below the roots that the rules do not exclude is known by its path. -/
def Resolves (s : State) : Prop :=
  ∀ k path, s.disk.At k path → Within s.disk s.roots k → Admits U s.rules path →
    s.map.pathOf k.ino (K.event k.dev) = some path

/-- The states that steps lead to from one. -/
inductive Run (ok : State → Act → Prop) (s₀ : State) : State → Prop where
  | start : Run ok s₀ s₀
  | step {s s' : State} (a : Act) : Run ok s₀ s → ok s a → step U K s a = some s' → Run ok s₀ s'

end FanWatch

end Scour
