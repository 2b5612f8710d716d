import Mathlib.Data.List.Basic

/-!
# Waiters, and what wakes them

`State` is what the callers of `touched`, `touched_now`, `announce`, `wake_due`, `await_change` and
`shutdown` share, and the callers themselves, each at its next lock-protected step.  `Reach` is a
state that some interleaving of them comes to.

A bump is followed by an announcement: its caller notifies all waiters or records the wake-up as
owed, and whoever clears what is owed notifies after it.  So while a waiter is asleep on an old
revision a wake-up is owed or about to be announced (`no_waiter_sleeps_past`).  About to be
announced is not about to be notified: `not_still_to_notify`.
-/

namespace Scour

namespace Wakes

/-- A call in progress, at its next step. -/
inductive Caller where
  -- `touched`, and `touched_now` (by name)
  | bumping (byName : Bool)
  | bumped (byName : Bool)
  | resetting (now : Nat)
  | clearing
  -- `announce`
  | announcing (now : Nat)
  | notifying
  -- the worker asks `wake_due` and announces
  | looking
  | loading (now : Nat)
  | comparing (now : Nat)
  -- `shutdown`, up to its notification
  | stopping
  -- `await_change`
  | arriving (since : UInt64) (timeout : Nat)
  | resting (till : Nat)
  | counting (since : UInt64) (deadline : Nat)
  | checking (since : UInt64) (deadline : Nat)
  | asleep (since : UInt64) (deadline : Nat)
  | leaving
  | reporting
  | answered (revision : UInt64)
  | done
deriving DecidableEq

/-- What the callers share, and where they stand.  An `Instant` is a number of nanoseconds. -/
structure State where
  clock : Nat
  revision : UInt64
  stop : Bool
  wakeAt : Nat
  wakeOwed : Bool
  watchers : UInt32
  callers : List Caller
deriving DecidableEq

/-- An engine as it starts: the waiters were last woken a hold ago, where the clock reaches back so
far. -/
def init (hold clock : Nat) (firstRevision : UInt64) : State :=
  { clock, revision := firstRevision, stop := false, wakeOwed := false, watchers := 0, callers := []
    wakeAt := if hold ≤ clock then clock - hold else clock }

/-- A second in nanoseconds. -/
def SECOND : Nat := 1000000000

namespace State

def put (s : State) (i : Nat) (c : Caller) : State := { s with callers := s.callers.set i c }

/-- A waiter that is notified looks again. -/
def woken : Caller → Caller
  | .asleep since deadline => .checking since deadline
  | c => c

/-- `Condvar::notify_all`. -/
def notifyAll (s : State) : State := { s with callers := s.callers.map woken }

/-- The next lock-protected step of the caller `i`, which stands at `c`.  A sleeper has none. -/
def next (hold : Nat) (s : State) (i : Nat) : Caller → Option State
  | .bumping byName => some ({ s with revision := s.revision + 1 }.put i (.bumped byName))
  | .bumped byName => some (s.put i (if byName then .resetting s.clock else .announcing s.clock))
  | .resetting now => some ({ s with wakeAt := now }.put i .clearing)
  | .clearing => some ({ s with wakeOwed := false }.put i .notifying)
  | .announcing now =>
    if hold = 0 ∨ hold ≤ now - s.wakeAt then
      some ({ s with wakeAt := now, wakeOwed := false }.put i .notifying)
    else some ({ s with wakeOwed := true }.put i .done)
  | .notifying => some (s.notifyAll.put i .done)
  | .looking => some (s.put i (.loading s.clock))
  | .loading now => some (s.put i (if s.wakeOwed then .comparing now else .done))
  | .comparing now => some (s.put i (if s.wakeAt + hold ≤ now then .announcing now else .done))
  | .stopping => some ({ s with stop := true }.put i (if s.stop then .done else .notifying))
  | .arriving since timeout =>
    some (s.put i (if s.stop then .resting (min (s.clock + timeout) (s.clock + SECOND))
      else .counting since (s.clock + timeout)))
  | .resting till => if till ≤ s.clock then some (s.put i .reporting) else none
  | .counting since deadline =>
    some ({ s with watchers := s.watchers + 1 }.put i (.checking since deadline))
  | .checking since deadline =>
    some (s.put i (if s.revision = since ∧ s.stop = false ∧ s.clock < deadline then
      .asleep since deadline else .leaving))
  | .leaving => some ({ s with watchers := s.watchers - 1 }.put i .reporting)
  | .reporting => some (s.put i (.answered s.revision))
  | .asleep _ _ | .answered _ | .done => none

end State

/-- What happens next: a call begins, time passes, a caller takes a step, a sleeper's time is up. -/
inductive Act where
  | enter (c : Caller)
  | tick (d : Nat)
  | run (i : Nat)
  | timeOut (i : Nat)

/-- Where a call begins. -/
def Caller.enters : Caller → Bool
  | .bumping _ | .looking | .stopping | .arriving _ _ => true
  | _ => false

def step (hold : Nat) (s : State) : Act → Option State
  | .enter c => if c.enters then some { s with callers := s.callers ++ [c] } else none
  | .tick d => some { s with clock := s.clock + d }
  | .run i => s.callers[i]?.bind (s.next hold i)
  | .timeOut i =>
    match s.callers[i]? with
    | some (.asleep _ deadline) => if deadline ≤ s.clock then some (s.put i .leaving) else none
    | _ => none

/-- Some interleaving of some callers comes to this state. -/
inductive Reach (hold : Nat) : State → Prop where
  | start (clock : Nat) (firstRevision : UInt64) : Reach hold (init hold clock firstRevision)
  | step {s s' : State} (a : Act) : Reach hold s → step hold s a = some s' → Reach hold s'

/-- The steps a caller has yet to take until it has announced: notified all waiters, or recorded
the wake-up as owed. -/
def Caller.ahead : Caller → Nat
  | .bumped _ => 4
  | .resetting _ => 3
  | .clearing | .announcing _ => 2
  | .notifying => 1
  | _ => 0

/-- The caller sleeps on a revision that is not the current one, or on an engine that stopped. -/
def Stale (s : State) (c : Caller) : Prop :=
  ∃ since deadline, c = .asleep since deadline ∧ (since ≠ s.revision ∨ s.stop = true)

/-- A wake-up is owed, or a caller that has not finished has yet to announce. -/
def Promised (s : State) : Prop := s.wakeOwed = true ∨ ∃ c ∈ s.callers, 0 < c.ahead

/-- What holds of the waiters of a state: one asleep on an old revision is promised a wake-up, and
a caller that has yet to announce comes nearer to it with its own next step, until it has recorded
the wake-up or left nobody asleep. -/
structure WaitersKept (hold : Nat) (s : State) : Prop where
  promised : ∀ c ∈ s.callers, Stale s c → Promised s
  announced : ∀ (i : Nat) (c : Caller), s.callers[i]? = some c → 0 < c.ahead →
    ∃ s' c', step hold s (.run i) = some s' ∧ s'.callers[i]? = some c' ∧ c'.ahead < c.ahead ∧
      (0 < c'.ahead ∨ s'.wakeOwed = true ∨ ∀ since deadline, .asleep since deadline ∉ s'.callers)

variable {hold i : Nat} {s s' : State} {c c' : Caller}

/-! ## Steps -/

theorem mem_put (hc : s.callers[i]? = some c) : c' ∈ (s.put i c').callers := by
  obtain ⟨hi, -⟩ := List.getElem?_eq_some_iff.mp hc
  show c' ∈ s.callers.set i c'
  exact List.mem_iff_getElem.mpr ⟨i, by simpa using hi, by simp⟩

theorem getElem?_put (hc : s.callers[i]? = some c) : (s.put i c').callers[i]? = some c' := by
  obtain ⟨hi, -⟩ := List.getElem?_eq_some_iff.mp hc
  show (s.callers.set i c')[i]? = some c'
  rw [List.getElem?_set_self hi]

/-- A caller that has yet to announce is a promise. -/
theorem promised_put (hc : s.callers[i]? = some c) (h : 0 < c'.ahead) : Promised (s.put i c') :=
  Or.inr ⟨c', mem_put hc, h⟩

/-- Where sleepers are promised a wake-up they still are after a step of a caller that neither
bumps nor announces, and does not go to sleep too late. -/
theorem promised_quiet (h : ∀ d ∈ s.callers, Stale s d → Promised s)
    (hc : s.callers[i]? = some c) (hcallers : s'.callers = s.callers.set i c')
    (hrevision : s'.revision = s.revision) (hstop : s'.stop = s.stop)
    (howed : s'.wakeOwed = s.wakeOwed) (hahead : c.ahead = 0) (hfresh : ¬ Stale s c') :
    ∀ d ∈ s'.callers, Stale s' d → Promised s' := by
  intro d hd hstale
  have hstale' : Stale s d := by
    unfold Stale at hstale ⊢
    rwa [hrevision, hstop] at hstale
  rw [hcallers] at hd
  have hold : d ∈ s.callers := by
    rcases List.mem_or_eq_of_mem_set hd with hd | rfl
    · exact hd
    · exact absurd hstale' hfresh
  rcases h d hold hstale' with ho | ⟨e, he, hpos⟩
  · exact Or.inl (howed.trans ho)
  · -- whoever has yet to announce is another caller
    obtain ⟨j, hj⟩ := List.mem_iff_getElem?.mp he
    have hij : i ≠ j := by
      rintro rfl
      rw [hc, Option.some.injEq] at hj
      subst hj
      omega
    refine Or.inr ⟨e, ?_, hpos⟩
    rw [hcallers]
    exact List.mem_iff_getElem?.mpr ⟨j, by rw [List.getElem?_set_ne hij, hj]⟩

theorem not_asleep_notifyAll (since : UInt64) (deadline : Nat) :
    .asleep since deadline ∉ (s.notifyAll.put i .done).callers := by
  intro h
  rcases List.mem_or_eq_of_mem_set h with h | h
  · obtain ⟨d, -, hd⟩ := List.mem_map.mp h
    cases d <;> cases hd
  · cases h

/-- **The step lemma**: a sleeper on an old revision is promised a wake-up after any step. -/
theorem promised_next (h : ∀ d ∈ s.callers, Stale s d → Promised s)
    (hc : s.callers[i]? = some c) (hnext : s.next hold i c = some s') :
    ∀ d ∈ s'.callers, Stale s' d → Promised s' := by
  have quiet := @promised_quiet i s
  cases c with
  | bumping byName =>
    cases hnext
    exact fun d _ _ =>
      promised_put (s := { s with revision := s.revision + 1 }) hc (by simp [Caller.ahead])
  | bumped byName =>
    cases hnext
    refine fun d _ _ => promised_put hc ?_
    cases byName <;> simp [Caller.ahead]
  | resetting now =>
    cases hnext
    exact fun d _ _ => promised_put (s := { s with wakeAt := now }) hc (by simp [Caller.ahead])
  | clearing =>
    cases hnext
    exact fun d _ _ => promised_put (s := { s with wakeOwed := false }) hc (by simp [Caller.ahead])
  | announcing now =>
    simp only [State.next] at hnext
    split at hnext
    · cases hnext
      exact fun d _ _ =>
        promised_put (s := { s with wakeAt := now, wakeOwed := false }) hc (by simp [Caller.ahead])
    · cases hnext
      exact fun d _ _ => Or.inl rfl
  | notifying =>
    cases hnext
    rintro d hd ⟨since, deadline, rfl, -⟩
    exact absurd hd (not_asleep_notifyAll since deadline)
  | looking =>
    cases hnext
    exact quiet h hc rfl rfl rfl rfl rfl nofun
  | loading now =>
    cases hnext
    refine quiet h hc rfl rfl rfl rfl rfl ?_
    split <;> exact nofun
  | comparing now =>
    cases hnext
    refine quiet h hc rfl rfl rfl rfl rfl ?_
    split <;> exact nofun
  | stopping =>
    cases hnext
    cases hstop : s.stop with
    | true =>
      refine quiet h hc rfl rfl hstop.symm rfl rfl ?_
      rw [if_pos rfl]
      exact nofun
    | false =>
      exact fun d _ _ => promised_put (s := { s with stop := true }) hc (by simp [Caller.ahead])
  | arriving since timeout =>
    cases hnext
    refine quiet h hc rfl rfl rfl rfl rfl ?_
    split <;> exact nofun
  | resting till =>
    simp only [State.next] at hnext
    split at hnext
    · cases hnext
      exact quiet h hc rfl rfl rfl rfl rfl nofun
    · cases hnext
  | counting since deadline =>
    cases hnext
    exact quiet h hc rfl rfl rfl rfl rfl nofun
  | checking since deadline =>
    cases hnext
    refine quiet h hc rfl rfl rfl rfl rfl ?_
    split
    · -- it goes to sleep on the current revision of an engine that runs
      rename_i hcheck
      rintro ⟨since', deadline', heq, hne | hstop⟩
      · cases heq
        exact hne hcheck.1.symm
      · rw [hcheck.2.1] at hstop
        cases hstop
    · exact nofun
  | asleep since deadline => cases hnext
  | leaving =>
    cases hnext
    exact quiet h hc rfl rfl rfl rfl rfl nofun
  | reporting =>
    cases hnext
    exact quiet h hc rfl rfl rfl rfl rfl nofun
  | answered revision => cases hnext
  | done => cases hnext

/-! ## Runs -/

theorem promised_of_reach (h : Reach hold s) : ∀ c ∈ s.callers, Stale s c → Promised s := by
  induction h with
  | start clock firstRevision => exact nofun
  | @step s s' a _ hstep ih =>
    cases a with
    | enter c =>
      simp only [step] at hstep
      split at hstep
      · rename_i henter
        cases hstep
        intro d hd hstale
        rcases List.mem_append.mp hd with hd | hd
        · rcases ih d hd hstale with ho | ⟨e, he, hpos⟩
          · exact Or.inl ho
          · exact Or.inr ⟨e, List.mem_append_left _ he, hpos⟩
        · -- nobody begins asleep
          obtain rfl := List.mem_singleton.mp hd
          obtain ⟨since, deadline, rfl, -⟩ := hstale
          cases henter
      · cases hstep
    | tick d =>
      cases hstep
      exact ih
    | run i =>
      obtain ⟨c, hc, hnext⟩ := Option.bind_eq_some_iff.mp hstep
      exact promised_next ih hc hnext
    | timeOut i =>
      simp only [step] at hstep
      split at hstep
      · rename_i hc
        split at hstep
        · cases hstep
          exact promised_quiet ih hc rfl rfl rfl rfl rfl nofun
        · cases hstep
      · cases hstep

/-- A caller that has yet to announce comes nearer to it with its own next step. -/
theorem announced_next (hc : s.callers[i]? = some c) (hpos : 0 < c.ahead) :
    ∃ s' c', step hold s (.run i) = some s' ∧ s'.callers[i]? = some c' ∧ c'.ahead < c.ahead ∧
      (0 < c'.ahead ∨ s'.wakeOwed = true ∨
        ∀ since deadline, .asleep since deadline ∉ s'.callers) := by
  have hrun : step hold s (.run i) = s.next hold i c := by
    simp only [step, hc, Option.bind_some]
  rw [hrun]
  cases c with
  | bumped byName =>
    refine ⟨_, _, rfl, getElem?_put hc, ?_, Or.inl ?_⟩ <;> cases byName <;> simp [Caller.ahead]
  | resetting now =>
    exact ⟨_, _, rfl, getElem?_put (s := { s with wakeAt := now }) hc, by simp [Caller.ahead],
      Or.inl (by simp [Caller.ahead])⟩
  | clearing =>
    exact ⟨_, _, rfl, getElem?_put (s := { s with wakeOwed := false }) hc, by simp [Caller.ahead],
      Or.inl (by simp [Caller.ahead])⟩
  | announcing now =>
    simp only [State.next]
    split
    · exact ⟨_, _, rfl,
        getElem?_put (s := { s with wakeAt := now, wakeOwed := false }) hc, by simp [Caller.ahead],
        Or.inl (by simp [Caller.ahead])⟩
    · exact ⟨_, _, rfl, getElem?_put (s := { s with wakeOwed := true }) hc, by simp [Caller.ahead],
        Or.inr (Or.inl rfl)⟩
  | notifying =>
    refine ⟨_, .done, rfl, ?_, by simp [Caller.ahead], Or.inr (Or.inr not_asleep_notifyAll)⟩
    refine getElem?_put (s := s.notifyAll) (c := State.woken .notifying) ?_
    show (s.callers.map State.woken)[i]? = _
    rw [List.getElem?_map, hc]
    rfl
  | _ => cases hpos

/-- **No waiter sleeps past a change** in any state some interleaving comes to: a wake-up is owed
to it, or a caller that has not finished has yet to announce. -/
theorem no_waiter_sleeps_past (hold : Nat) (s : State) (h : Reach hold s) : WaitersKept hold s :=
  ⟨promised_of_reach h, fun _ _ hc hpos => announced_next hc hpos⟩

/-- Some acts, one after another. -/
def runActs (hold : Nat) (s : State) (acts : List Act) : Option State :=
  acts.foldlM (step hold) s

theorem reach_runActs (acts : List Act) (hs : Reach hold s) (h : runActs hold s acts = some s') :
    Reach hold s' := by
  induction acts generalizing s with
  | nil =>
    cases h
    exact hs
  | cons a acts ih =>
    obtain ⟨s₁, hstep, hrest⟩ := Option.bind_eq_some_iff.mp h
    exact ih (hs.step a hstep) hrest

/-- A change by name wakes the waiters; one client goes to sleep on what it then reads, and the next
change bumps the revision within a hold of it. -/
def heldRun : List Act :=
  [.enter (.bumping true), .run 0, .run 0, .run 0, .run 0, .run 0,
    .enter (.arriving 1 1000), .run 1, .run 1, .run 1, .enter (.bumping false), .run 2, .run 2]

def heldState : State :=
  { clock := 100, revision := 2, stop := false, wakeAt := 100, wakeOwed := false, watchers := 1
    callers := [.done, .asleep 1 1100, .announcing 100] }

theorem runActs_heldRun : runActs 10 (init 10 100 0) heldRun = some heldState := by decide

theorem waitersKept_heldState :
    Reach 10 heldState ∧ Stale heldState (.asleep 1 1100) ∧ WaitersKept 10 heldState :=
  have hreach : Reach 10 heldState := reach_runActs heldRun (.start 100 0) runActs_heldRun
  ⟨hreach, ⟨1, 1100, rfl, Or.inl (by decide)⟩, no_waiter_sleeps_past 10 heldState hreach⟩

/-- The waiter of `heldState` sleeps on the revision before, nothing is owed, and the one caller
that has not finished but for it does not notify: its next step is its last, and withholds. -/
theorem not_still_to_notify :
    Reach 10 heldState ∧ Stale heldState (.asleep 1 1100) ∧ heldState.wakeOwed = false ∧
      heldState.callers = [.done, .asleep 1 1100, .announcing 100] ∧
      step 10 heldState (.run 2) =
        some { heldState with
          wakeOwed := true, callers := [.done, .asleep 1 1100, .done] } :=
  ⟨reach_runActs heldRun (.start 100 0) runActs_heldRun, ⟨1, 1100, rfl, Or.inl (by decide)⟩, rfl,
    rfl, by decide⟩

end Wakes

end Scour
