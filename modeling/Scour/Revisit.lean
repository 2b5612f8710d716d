import Scour.Entry

/-!
# Two threads that look at one path

The event reader looks at a path for every operation on it, and the revisit thread whenever it finds
that the size or the time it remembers has moved, or that the path is gone.  A look is a `stat` and
then an emit, and both threads emit into one sink.  `Sys` is one path on disk, both threads at their
next step, what is remembered of the path, and what has been emitted; `step` is one step of one of
them, or an operation on the file.

Nothing keeps a look of the revisit thread from being emitted after a newer one of the reader:
`not_looks_converge` is a run that leaves the row of a file that is gone.  The row comes out right in
exactly those runs that never get there (`looks_converge`).
-/

namespace Scour

/-- `std::fs::Metadata`, as far as it is read. -/
structure Metadata where
  isDir : Bool
  size : UInt64
  mtime : Int64
  birth : Option Int64
  ctime : Int64
  atime : Int64
  mode : UInt32
  uid : UInt32
  gid : UInt32
  blocks : UInt64
  nlink : UInt64
deriving DecidableEq

theorem Metadata.one_le_links (md : Metadata) : (1 : ℤ) ≤ max md.nlink.toInt64.toInt 1 :=
  le_max_right _ _

/-- `Meta::from_std` -/
def Meta.fromStd (md : Metadata) : Meta where
  size := if md.isDir then 0 else md.size.toInt64.toInt
  mtime := md.mtime.toInt
  ctime := (md.birth.getD md.ctime).toInt
  atime := md.atime.toInt
  mode := md.mode.toNat
  uid := md.uid.toNat
  gid := md.gid.toNat
  disk := md.blocks.toInt64.toInt * 512
  items := -1
  links := max md.nlink.toInt64.toInt 1
  named := md.one_le_links

/-- `entry_of`, of a path that was looked at. -/
def entryOf (source : SourceId) (path : Path) (md : Metadata) (realModes : Bool) : Entry :=
  let info := Meta.fromStd md
  { source, path, isDir := md.isDir
    -- a mode the mount invented is not a mode
    info := if realModes = false ∧ info ≠ .UNKNOWN then
        { info with mode := if md.isDir then 0o040755 else 0o100644 }
      else info }

namespace Revisit

/-- What a `symlink_metadata` gives. -/
inductive Stat where
  | found (md : Metadata)
  | notFound
  | failed
deriving DecidableEq

/-- The file on disk, looked at by a call that works or does not. -/
def statOf (disk : Option Metadata) (works : Bool) : Stat :=
  if works then disk.elim .notFound .found else .failed

/-- The path that is looked at, and whose it is. -/
structure Watched where
  source : SourceId
  path : Path
  realModes : Bool

/-- The row that is right. -/
def Watched.rowOf (w : Watched) (disk : Option Metadata) : Option Entry :=
  disk.map fun md => entryOf w.source w.path md w.realModes

/-- `look`: what it emits, and what it gives back. -/
def look (w : Watched) (fresh : Bool) : Stat → List Change × Option Metadata
  | .found md =>
    (.upsert (entryOf w.source w.path md w.realModes) ::
      if fresh ∧ md.isDir then [.rescan w.path.bytes] else [], some md)
  -- gone between the event and the look
  | .notFound => ([.removeSubtree w.path], none)
  | .failed => ([.rescan w.path.bytes], none)

/-- The two fields a mapped write can move. -/
def shape (md : Metadata) : UInt64 × Int64 := (md.size, md.mtime)

/-- `note`, of the one path: a directory is not remembered. -/
def note (seen : Option (UInt64 × Int64)) : Option Metadata → Option (UInt64 × Int64)
  | none => seen
  | some md => if md.isDir then seen else some (shape md)

/-! ## The system -/

/-- The event reader: after the `stat` of a look it has changes left to emit, then it notes or
forgets the path, or neither. -/
inductive Reader where
  | idle
  | emitting (rest : List Change) (md : Option Metadata) (settled : Option Bool)
deriving DecidableEq

/-- What it will still emit of the look it is at. -/
def Reader.left : Reader → List Change
  | .idle => []
  | .emitting rest _ _ => rest

/-- The revisit thread: its own `stat` of a path that was due, what it makes of it under the lock,
the look it has decided on. -/
inductive Revisiting where
  | idle
  | checked (found : Stat)
  | looking
  | emitting (rest : List Change)
deriving DecidableEq

structure Sys where
  disk : Option Metadata
  /-- An operation has no look after it yet. -/
  owed : Bool
  reader : Reader
  revisit : Revisiting
  /-- What the revisit thread remembers of the path. -/
  seen : Option (UInt64 × Int64)
  /-- Whether it has started. -/
  live : Bool
  sent : List Change

/-- A step of one of the threads, or an operation on the file. -/
inductive Act where
  | operate (disk : Option Metadata)
  | readerStat (works fresh : Bool) (settled : Option Bool)
  | readerEmit
  | readerNote
  | start
  /-- Another path is noted, and this one was the oldest. -/
  | evict
  | check (works : Bool)
  | decide
  | revisitStat (works : Bool)
  | revisitEmit
deriving DecidableEq

/-- `run`, under the lock: what it remembers now, and whether it looks. -/
def decideOf (seen : Option (UInt64 × Int64)) (found : Stat) : Option (UInt64 × Int64) × Bool :=
  match seen with
  | none => (none, false)
  | some old =>
    match found with
    | .found md => if shape md = old then (some old, false) else (some (shape md), true)
    | .notFound => (none, true)
    | .failed => (some old, false)

/-- What is remembered after a look of the reader. -/
def Sys.settle (s : Sys) (md : Option Metadata) : Option Bool → Option (UInt64 × Int64)
  -- `forget`, which does nothing before the thread has started
  | some true => if s.live then none else s.seen
  | some false => note s.seen md
  | none => s.seen

/-- One step, where it can be taken. -/
def step (w : Watched) (s : Sys) : Act → Option Sys
  | .operate disk => some { s with disk, owed := true }
  | .readerStat works fresh settled =>
    match s.reader with
    | .idle =>
      let (changes, md) := look w fresh (statOf s.disk works)
      some { s with reader := .emitting changes md settled, owed := false }
    | .emitting _ _ _ => none
  | .readerEmit =>
    match s.reader with
    | .emitting (c :: rest) md settled =>
      some { s with reader := .emitting rest md settled, sent := s.sent ++ [c] }
    | _ => none
  | .readerNote =>
    match s.reader with
    | .emitting [] md settled =>
      some { s with reader := .idle, seen := s.settle md settled }
    | _ => none
  | .start => some { s with live := true }
  | .evict => some { s with seen := none }
  | .check works =>
    -- the list of what is due may be older than what is remembered
    if s.live = true ∧ s.revisit = .idle then
      some { s with revisit := .checked (statOf s.disk works) }
    else none
  | .decide =>
    match s.revisit with
    | .checked found =>
      let (seen, looks) := decideOf s.seen found
      some { s with seen, revisit := if looks then .looking else .idle }
    | _ => none
  | .revisitStat works =>
    match s.revisit with
    | .looking => some { s with revisit := .emitting (look w false (statOf s.disk works)).1 }
    | _ => none
  | .revisitEmit =>
    match s.revisit with
    | .emitting (c :: rest) =>
      some { s with
        revisit := if rest = [] then .idle else .emitting rest
        sent := s.sent ++ [c] }
    | _ => none

/-- Steps one after another. -/
def run (w : Watched) : Sys → List Act → Option Sys
  | s, [] => some s
  | s, a :: acts => (step w s a).bind fun s => run w s acts

/-- Before anything happens to the path. -/
def init (disk : Option Metadata) : Sys :=
  { disk, owed := false, reader := .idle, revisit := .idle, seen := none, live := false, sent := [] }

/-- Every operation has been looked at, and all looks have finished. -/
def Sys.Finished (s : Sys) : Prop := s.owed = false ∧ s.reader = .idle ∧ s.revisit = .idle

/-- What a change makes of the row: a walk finds what is on disk. -/
def told (w : Watched) (disk : Option Metadata) : Change → Option Entry
  | .upsert e => some e
  | .removeSubtree _ => none
  | .rescan _ => w.rowOf disk

/-- The row after the changes that were emitted, applied in that order. -/
def Sys.row (w : Watched) (first : Option Entry) (s : Sys) : Option Entry :=
  s.sent.foldl (fun _ c => told w s.disk c) first

/-! ## What a step keeps -/

/-- Whatever a look emits is right as long as the file stays as it was at the `stat`. -/
theorem told_look (w : Watched) (fresh works : Bool) (disk : Option Metadata) :
    ∀ c ∈ (look w fresh (statOf disk works)).1, told w disk c = w.rowOf disk := by
  intro c hc
  unfold statOf at hc
  cases works with
  | false =>
    rw [if_neg Bool.false_ne_true, look, List.mem_singleton] at hc
    rw [hc, told]
  | true =>
    cases disk with
    | none =>
      rw [if_pos rfl, Option.elim_none, look, List.mem_singleton] at hc
      rw [hc, told]
      rfl
    | some md =>
      rw [if_pos rfl, Option.elim_some, look] at hc
      rcases List.mem_cons.mp hc with rfl | hc
      · rfl
      · split at hc
        · rw [List.mem_singleton.mp hc, told]
        · cases hc

theorem look_ne_nil (w : Watched) (fresh : Bool) (found : Stat) : (look w fresh found).1 ≠ [] := by
  cases found with
  | found md => exact List.cons_ne_nil _ _
  | notFound => exact List.cons_ne_nil _ _
  | failed => exact List.cons_ne_nil _ _

/-- The revisit thread's look is of no fresh path: it has one change to emit. -/
theorem length_look (w : Watched) (found : Stat) : (look w false found).1.length = 1 := by
  cases found with
  | found md => rw [look, if_neg (fun h => Bool.false_ne_true h.1)]; rfl
  | notFound => rfl
  | failed => rfl

/-- What a step can do. -/
theorem step_cases {w : Watched} {s s' : Sys} {a : Act} (h : step w s a = some s') :
    (∃ disk, s' = { s with disk, owed := true }) ∨
    (∃ works fresh settled, s.reader = .idle ∧
      s' = { s with
        reader := .emitting (look w fresh (statOf s.disk works)).1
          (look w fresh (statOf s.disk works)).2 settled
        owed := false }) ∨
    (∃ c rest md settled, s.reader = .emitting (c :: rest) md settled ∧
      s' = { s with reader := .emitting rest md settled, sent := s.sent ++ [c] }) ∨
    (∃ md settled seen, s.reader = .emitting [] md settled ∧
      s' = { s with reader := .idle, seen }) ∨
    (∃ seen live revisit,
      (revisit = s.revisit ∨ ∀ rest, revisit = .emitting rest → rest.length = 1) ∧
      s' = { s with seen, live, revisit }) ∨
    (∃ c rest, a = .revisitEmit ∧ s.revisit = .emitting (c :: rest) ∧
      s' = { s with
        revisit := if rest = [] then .idle else .emitting rest
        sent := s.sent ++ [c] }) := by
  have hquiet : ∀ seen live revisit,
      (revisit = s.revisit ∨ ∀ rest, revisit = .emitting rest → rest.length = 1) →
      some { s with seen, live, revisit } = some s' →
      ∃ seen live revisit,
        (revisit = s.revisit ∨ ∀ rest, revisit = .emitting rest → rest.length = 1) ∧
        s' = { s with seen, live, revisit } :=
    fun seen live revisit hr hs => ⟨seen, live, revisit, hr, (Option.some.inj hs).symm⟩
  cases a with
  | operate disk => exact Or.inl ⟨disk, (Option.some.inj h).symm⟩
  | readerStat works fresh settled =>
    simp only [step] at h
    split at h
    · rename_i hreader
      exact Or.inr (Or.inl ⟨works, fresh, settled, hreader, (Option.some.inj h).symm⟩)
    · cases h
  | readerEmit =>
    simp only [step] at h
    split at h
    · rename_i c rest md settled hreader
      exact Or.inr (Or.inr (Or.inl ⟨c, rest, md, settled, hreader, (Option.some.inj h).symm⟩))
    · cases h
  | readerNote =>
    simp only [step] at h
    split at h
    · rename_i md settled hreader
      exact Or.inr (Or.inr (Or.inr (Or.inl ⟨md, settled, _, hreader, (Option.some.inj h).symm⟩)))
    · cases h
  | start =>
    exact Or.inr (Or.inr (Or.inr (Or.inr (Or.inl (hquiet _ _ _ (Or.inl rfl) h)))))
  | evict =>
    exact Or.inr (Or.inr (Or.inr (Or.inr (Or.inl (hquiet _ _ _ (Or.inl rfl) h)))))
  | check works =>
    simp only [step] at h
    split at h
    · refine Or.inr (Or.inr (Or.inr (Or.inr (Or.inl (hquiet _ _ _ (Or.inr ?_) h)))))
      intro rest hrest
      cases hrest
    · cases h
  | decide =>
    simp only [step] at h
    split at h
    · refine Or.inr (Or.inr (Or.inr (Or.inr (Or.inl (hquiet _ _ _ (Or.inr ?_) h)))))
      intro rest hrest
      split at hrest <;> cases hrest
    · cases h
  | revisitStat works =>
    simp only [step] at h
    split at h
    · refine Or.inr (Or.inr (Or.inr (Or.inr (Or.inl (hquiet _ _ _ (Or.inr ?_) h)))))
      intro rest hrest
      cases hrest
      exact length_look w _
    · cases h
  | revisitEmit =>
    simp only [step] at h
    split at h
    · rename_i c rest hrevisit
      exact Or.inr (Or.inr (Or.inr (Or.inr (Or.inr ⟨c, rest, rfl, hrevisit, (Option.some.inj h).symm⟩))))
    · cases h

/-- The last change that is applied decides. -/
theorem foldl_told (w : Watched) (disk : Option Metadata) (first : Option Entry) (sent : List Change)
    (c : Change) : (sent ++ [c]).foldl (fun _ c => told w disk c) first = told w disk c := by
  rw [List.foldl_append]
  rfl

/-- With every operation looked at, the reader has the right changes left to emit, and where it has
none left the row is right. -/
structure Right (w : Watched) (first : Option Entry) (s : Sys) : Prop where
  left : s.owed = false → ∀ c ∈ s.reader.left, told w s.disk c = w.rowOf s.disk
  row : s.owed = false → s.reader.left = [] → s.row w first = w.rowOf s.disk

/-- Before the revisit thread emits: what it saw is still so, or the reader has a look to make or a
change to emit after it. -/
def Timely (w : Watched) (s : Sys) (a : Act) : Prop :=
  ∀ c rest, a = .revisitEmit → s.revisit = .emitting (c :: rest) →
    s.owed = true ∨ s.reader.left ≠ [] ∨ told w s.disk c = w.rowOf s.disk

/-- A step that leaves the file, the reader and what was emitted alone. -/
theorem Right.of_eq {w : Watched} {first : Option Entry} {s s' : Sys} (h : Right w first s)
    (hdisk : s'.disk = s.disk) (howed : s'.owed = s.owed) (hleft : s'.reader.left = s.reader.left)
    (hsent : s'.sent = s.sent) : Right w first s' := by
  refine ⟨fun h0 => ?_, fun h0 h1 => ?_⟩
  · rw [hleft, hdisk]
    exact h.left (howed ▸ h0)
  · have hrow := h.row (howed ▸ h0) (hleft ▸ h1)
    unfold Sys.row at hrow ⊢
    rwa [hsent, hdisk]

theorem right_step {w : Watched} {first : Option Entry} {s s' : Sys} {a : Act} (h : Right w first s)
    (ht : Timely w s a) (hs : step w s a = some s') : Right w first s' := by
  rcases step_cases hs with ⟨disk, rfl⟩ | ⟨works, fresh, settled, -, rfl⟩ |
    ⟨c, rest, md, settled, hreader, rfl⟩ | ⟨md, settled, seen, hreader, rfl⟩ | ⟨seen, live, revisit, -, rfl⟩ |
    ⟨c, rest, ha, hrevisit, rfl⟩
  · exact ⟨fun h0 => absurd h0.symm Bool.false_ne_true, fun h0 => absurd h0.symm Bool.false_ne_true⟩
  · refine ⟨fun _ => told_look w fresh works s.disk, fun _ hnil => ?_⟩
    exact absurd hnil (look_ne_nil w fresh _)
  · have hleft : s.reader.left = c :: rest := by rw [hreader]; rfl
    refine ⟨fun h0 x hx => ?_, fun h0 _ => ?_⟩
    · exact h.left h0 x (by rw [hleft]; exact List.mem_cons_of_mem c hx)
    · unfold Sys.row
      simp only
      rw [foldl_told]
      exact h.left h0 c (by rw [hleft]; exact List.mem_cons_self)
  · exact h.of_eq rfl rfl (by rw [hreader]; rfl) rfl
  · exact h.of_eq rfl rfl rfl rfl
  · refine ⟨h.left, fun h0 hnil => ?_⟩
    unfold Sys.row
    simp only
    rw [foldl_told]
    rcases ht c rest ha hrevisit with howed | hleft | htold
    · exact absurd (h0.symm.trans howed) Bool.false_ne_true
    · exact absurd hnil hleft
    · exact htold

/-- At every step of a run. -/
def TimelyRun (w : Watched) : Sys → List Act → Prop
  | _, [] => True
  | s, a :: acts => Timely w s a ∧ ∀ s', step w s a = some s' → TimelyRun w s' acts

theorem right_run {w : Watched} {first : Option Entry} (acts : List Act) : ∀ {s s' : Sys},
    Right w first s → TimelyRun w s acts → run w s acts = some s' → Right w first s' := by
  induction acts with
  | nil =>
    intro s s' h _ hrun
    obtain rfl := Option.some.inj hrun
    exact h
  | cons a acts ih =>
    intro s s' h ht hrun
    obtain ⟨t, hstep, hrest⟩ := Option.bind_eq_some_iff.mp hrun
    exact ih (right_step h ht.1 hstep) (ht.2 t hstep) hrest

theorem right_init (w : Watched) (disk : Option Metadata) : Right w (w.rowOf disk) (init disk) :=
  ⟨fun _ _ hc => absurd hc List.not_mem_nil, fun _ _ => rfl⟩

/-! ## An emit that comes too late -/

/-- The revisit thread has one change to emit, or none. -/
def OneLeft (s : Sys) : Prop := ∀ rest, s.revisit = .emitting rest → rest.length = 1

theorem oneLeft_step {w : Watched} {s s' : Sys} {a : Act} (h : OneLeft s)
    (hs : step w s a = some s') : OneLeft s' := by
  rcases step_cases hs with ⟨_, rfl⟩ | ⟨_, _, _, -, rfl⟩ | ⟨_, _, _, _, -, rfl⟩ | ⟨_, _, _, -, rfl⟩ |
    ⟨_, _, _, hr, rfl⟩ | ⟨c, more, -, hrevisit, rfl⟩
  · exact h
  · exact h
  · exact h
  · exact h
  · rcases hr with rfl | hone
    · exact h
    · exact hone
  · have hnil : more = [] := List.length_eq_zero_iff.mp (Nat.succ.inj (h _ hrevisit))
    intro rest hrest
    simp only [hnil, if_true] at hrest
    cases hrest

theorem oneLeft_run {w : Watched} (acts : List Act) : ∀ {s s' : Sys}, OneLeft s →
    run w s acts = some s' → OneLeft s' := by
  induction acts with
  | nil =>
    intro s s' h hrun
    obtain rfl := Option.some.inj hrun
    exact h
  | cons a acts ih =>
    intro s s' h hrun
    obtain ⟨t, hstep, hrest⟩ := Option.bind_eq_some_iff.mp hrun
    exact ih (oneLeft_step h hstep) hrest

/-- From an emit that is not timely there is a way to an end where the row is wrong. -/
theorem wrong_after {w : Watched} {first : Option Entry} {s : Sys} (hone : OneLeft s)
    (h : ¬ Timely w s .revisitEmit) :
    ∃ more s', run w s (.revisitEmit :: more) = some s' ∧ s'.Finished ∧
      s'.row w first ≠ w.rowOf s'.disk := by
  unfold Timely at h
  push Not at h
  obtain ⟨c, rest, -, hrevisit, howed, hleft, htold⟩ := h
  have hnil : rest = [] := List.length_eq_zero_iff.mp (Nat.succ.inj (hone _ hrevisit))
  subst hnil
  have hfalse : s.owed = false := Bool.not_eq_true _ ▸ howed
  have hstep : step w s .revisitEmit =
      some { s with revisit := .idle, sent := s.sent ++ [c] } := by
    unfold step
    rw [hrevisit]
    rfl
  have hrow : ∀ t : Sys, t.disk = s.disk → t.sent = s.sent ++ [c] →
      t.row w first ≠ w.rowOf t.disk := by
    intro t hdisk hsent
    unfold Sys.row
    rw [hsent, hdisk, foldl_told]
    exact htold
  cases hreader : s.reader with
  | idle =>
    refine ⟨[], { s with revisit := .idle, sent := s.sent ++ [c] }, ?_, ⟨hfalse, hreader, rfl⟩,
      hrow _ rfl rfl⟩
    unfold run
    rw [hstep]
    rfl
  | emitting more md settled =>
    -- only the note is left of the reader's look
    rw [hreader] at hleft
    have hdone : more = [] := hleft
    subst hdone
    refine ⟨[.readerNote],
      { s with
        revisit := .idle
        reader := .idle
        sent := s.sent ++ [c]
        seen := s.settle md settled },
      ?_, ⟨hfalse, rfl, rfl⟩, hrow _ rfl rfl⟩
    unfold run
    rw [hstep, Option.bind_some]
    unfold run step
    simp only [hreader]
    rfl

/-- The row comes out right in every run whose emits are timely; where one is not, the run can end
with the row wrong. -/
theorem looks_converge (w : Watched) (disk : Option Metadata) (acts : List Act) (s : Sys)
    (h : run w (init disk) acts = some s) :
    (TimelyRun w (init disk) acts → s.Finished → s.row w (w.rowOf disk) = w.rowOf s.disk) ∧
      (¬ Timely w s .revisitEmit → ∃ more s', run w s (.revisitEmit :: more) = some s' ∧ s'.Finished ∧
        s'.row w (w.rowOf disk) ≠ w.rowOf s'.disk) := by
  constructor
  · rintro ht ⟨howed, hreader, -⟩
    exact (right_run acts (right_init w disk) ht h).row howed (by rw [hreader]; rfl)
  · have hone : OneLeft (init disk) := by
      intro rest hrest
      cases hrest
    exact wrong_after (oneLeft_run acts hone h)

/-- A file of so many bytes. -/
def sampleFile (size : UInt64) : Metadata :=
  { isDir := false, size, mtime := 7, birth := none, ctime := 7, atime := 7, mode := 0o100644
    uid := 0, gid := 0, blocks := 8, nlink := 1 }

def sample : Watched := ⟨0, .of "/a", true⟩

/-- A write that is looked at and noted, another the revisit thread finds, and the removal. -/
def lateActs : List Act :=
  [.operate (some (sampleFile 1)), .readerStat true false (some false), .readerEmit, .readerNote, .start,
   .operate (some (sampleFile 2)), .check true, .decide, .revisitStat true,
   .operate none, .readerStat true false (some true), .readerEmit, .readerNote, .revisitEmit]

theorem looks_converge_one : ∃ s, run sample (init none)
    [.operate (some (sampleFile 1)), .readerStat true false (some false), .readerEmit, .readerNote] =
      some s ∧
    s.row sample none = sample.rowOf s.disk := by
  refine ⟨_, rfl, ?_⟩
  refine (looks_converge sample none [.operate (some (sampleFile 1)),
    .readerStat true false (some false), .readerEmit, .readerNote] _ rfl).1 ?_ ⟨rfl, rfl, rfl⟩
  have htimely : ∀ (s : Sys) (a : Act), a ≠ .revisitEmit → Timely sample s a :=
    fun s a ha c rest hc => absurd hc ha
  refine ⟨htimely _ _ (by decide), fun _ _ => ⟨htimely _ _ (by decide), fun _ _ =>
    ⟨htimely _ _ (by decide), fun _ _ => ⟨htimely _ _ (by decide), fun _ _ => trivial⟩⟩⟩⟩

/-- The file is gone and the path forgotten, and its row is there. -/
theorem not_looks_converge : ¬ ∀ (w : Watched) (disk : Option Metadata) (acts : List Act) (s : Sys),
    run w (init disk) acts = some s → s.Finished → s.row w (w.rowOf disk) = w.rowOf s.disk := by
  intro h
  have hrow := h sample none lateActs _ rfl ⟨rfl, rfl, rfl⟩
  cases hrow

end Revisit

end Scour
