import Mathlib.Data.List.Basic
import Mathlib.Data.List.Induction
import Mathlib.Data.Nat.Bitwise

/-!
# When an incomplete feed is walked again

`Pulses` holds one reading for each source and the deadlines that turn it into work: `decide` is the
tick, with the readings taken, and `scanned` records a completed full pass.  Times and durations are
numbers on one clock, and each turn of the loop reads that clock for itself.

A moved pulse of a source nobody watches is acted on at once or stays pending until it is
(`stays_pending`), exactly where no unreadable reading that met a deadline came between
(`moved_kept_iff`): such a reading takes the place of the last one, and the next is compared with
nothing.
-/

namespace Scour

/-- What the tick decided a source needs. -/
inductive Nudge where
  /-- Nobody is watching it and it moved. -/
  | reconcile
  /-- Somebody is watching it, it keeps moving, and nothing is arriving. -/
  | blind
  /-- Somebody is watching it and nothing is wrong. -/
  | check
deriving DecidableEq

namespace Pulses

/-- The least time between two walks of the same unwatched source. -/
abbrev FLOOR : Nat := 15

/-- How many consecutive moved readings with nothing arriving before a watched source is called
blind. -/
abbrev PATIENCE : Nat := 150

end Pulses

/-- One source's place in `Pulses`. -/
structure Pulse where
  last : Option Nat
  /-- The pulse moved and nothing has been done about it yet. -/
  pending : Bool
  walked : Nat
  pulseFloor : Nat
  scanRest : Nat
  patience : Nat
  movedSinceEvent : Nat
  fallback : Nat
  safety : Nat
  wholeAt : Nat
deriving DecidableEq

/-- How long the deadlines wait. -/
structure Waits where
  poll : Nat
  reconcile : Nat
  watchedReconcile : Nat

structure Pulses where
  waits : Waits
  sources : List Pulse

/-- What one turn of the loop reads of the clock: at its top, where a floor is asked about, and where
a walk is noted. -/
structure Clock where
  now : Nat
  asked : Nat
  noted : Nat

namespace Pulse

def defer (w : Waits) (now : Nat) (s : Pulse) : Pulse :=
  { s with
    walked := now
    wholeAt := now
    pending := false
    pulseFloor := max (max Pulses.FLOOR s.scanRest) s.patience
    fallback := now + max w.poll s.scanRest
    safety := now + max w.reconcile s.scanRest }

/-- A walk on a deadline: the reading, whatever it is, is the one to compare with. -/
def walk (w : Waits) (now : Nat) (reading : Option Nat) (s : Pulse) : Pulse :=
  { s.defer w now with last := reading, movedSinceEvent := 0 }

/-- One turn of the loop of `decide`. -/
def turn (w : Waits) (watched quiet : Bool) (clock : Clock) (reading : Option Nat) (s : Pulse) :
    Pulse × Option Nudge :=
  let due := s.wholeAt + w.watchedReconcile
  if watched ∧ due ≤ clock.now ∧ (due + w.watchedReconcile ≤ clock.now ∨ quiet) then
    (s.walk w clock.noted reading, some .check)
  else
    let safetyDue := !watched ∧ s.safety ≤ clock.now
    let pollingDue := !watched ∧ s.fallback ≤ clock.now
    if safetyDue ∨ reading = none ∧ pollingDue then
      (s.walk w clock.noted reading, some .reconcile)
    else
      match reading with
      | none => (s, none)
      | some now =>
        let moved := s.last.any (· ≠ now)
        let s := { s with last := some now, pending := s.pending || moved }
        if watched then
          let s := { s with movedSinceEvent :=
            if moved then min (s.movedSinceEvent + 1) (2 ^ 32 - 1) else s.movedSinceEvent }
          if Pulses.PATIENCE ≤ s.movedSinceEvent ∧ s.pulseFloor ≤ clock.asked - s.walked then
            ({ s with movedSinceEvent := 0, pending := false, walked := clock.noted }, some .blind)
          else (s, none)
        else if s.pending ∧ s.pulseFloor ≤ clock.asked - s.walked then
          ({ s with pending := false, walked := clock.noted }, some .reconcile)
        else (s, none)

end Pulse

/-- What is asked of the pulses. -/
inductive PulseCall where
  | decide (readings : List (Option Nat)) (watched : List Nat) (quiet : Nat → Bool)
      (clock : Nat → Clock)
  | scanned (source cost now : Nat)
  | sawEvent (source : Nat)
  | bePatient (source least : Nat)

namespace Pulses

def new (n : Nat) (w : Waits) (now : Nat) : Pulses where
  waits := w
  sources := List.replicate n
    { last := none
      pending := false
      walked := now - FLOOR
      pulseFloor := FLOOR
      scanRest := 0
      patience := 0
      movedSinceEvent := 0
      fallback := now + w.poll
      safety := now + w.reconcile
      wholeAt := now }

/-- The turn of the source at `i`, where there is a reading for it. -/
def turnAt (p : Pulses) (readings : List (Option Nat)) (watched : List Nat) (quiet : Nat → Bool)
    (clock : Nat → Clock) (i : Nat) (s : Pulse) : Pulse × Option Nudge :=
  match readings[i]? with
  | none => (s, none)
  | some reading => s.turn p.waits (watched.contains i) (quiet i) (clock i) reading

/-- What a call changes, and the nudges `decide` answers with. -/
def call (p : Pulses) : PulseCall → Pulses × List (Nat × Nudge)
  | .decide readings watched quiet clock =>
    let turns := p.sources.mapIdx fun i s => (i, p.turnAt readings watched quiet clock i s)
    ({ p with sources := turns.map (·.2.1) },
      turns.filterMap fun t => t.2.2.map fun nudge => (t.1, nudge))
  | .scanned source cost now =>
    ({ p with sources := p.sources.modify source fun s =>
      Pulse.defer p.waits now { s with scanRest := cost * 20 } }, [])
  | .sawEvent source =>
    ({ p with sources := p.sources.modify source fun s => { s with movedSinceEvent := 0 } }, [])
  | .bePatient source least =>
    ({ p with sources := p.sources.modify source fun s =>
      { s with patience := least, pulseFloor := max s.pulseFloor least } }, [])

def after (p : Pulses) (calls : List PulseCall) : Pulses := calls.foldl (fun p c => (p.call c).1) p

/-! ## One source's turns -/

theorem getElem?_decide (p : Pulses) (readings : List (Option Nat)) (watched : List Nat)
    (quiet : Nat → Bool) (clock : Nat → Clock) (i : Nat) :
    (p.call (.decide readings watched quiet clock)).1.sources[i]? =
      p.sources[i]?.map fun s => (p.turnAt readings watched quiet clock i s).1 := by
  simp only [call, List.getElem?_map, List.getElem?_mapIdx, Option.map_map, Function.comp_def]

theorem mem_nudges {p : Pulses} {readings : List (Option Nat)} {watched : List Nat}
    {quiet : Nat → Bool} {clock : Nat → Clock} {i : Nat} {s : Pulse} {nudge : Nudge}
    (hs : p.sources[i]? = some s) :
    (i, nudge) ∈ (p.call (.decide readings watched quiet clock)).2 ↔
      (p.turnAt readings watched quiet clock i s).2 = some nudge := by
  obtain ⟨hi, rfl⟩ := List.getElem?_eq_some_iff.mp hs
  unfold call
  rw [List.mem_filterMap]
  constructor
  · rintro ⟨t, ht, hn⟩
    obtain ⟨j, hj, rfl⟩ := List.mem_mapIdx.mp ht
    obtain ⟨nudge', hturn, he⟩ := Option.map_eq_some_iff.mp hn
    obtain ⟨rfl, rfl⟩ := Prod.mk.inj he
    exact hturn
  · intro h
    exact ⟨_, List.mem_mapIdx.mpr ⟨i, hi, rfl⟩, by rw [h]; rfl⟩

/-- Has the polling deadline or the safety deadline come for the source? -/
def Due (p : Pulses) (i : Nat) (clock : Nat → Clock) : Prop :=
  ∃ s, p.sources[i]? = some s ∧ (s.safety ≤ (clock i).now ∨ s.fallback ≤ (clock i).now)

def SafetyDue (p : Pulses) (i : Nat) (clock : Nat → Clock) : Prop :=
  ∃ s, p.sources[i]? = some s ∧ s.safety ≤ (clock i).now

def Pending (p : Pulses) (i : Nat) : Prop := ∃ s, p.sources[i]? = some s ∧ s.pending = true

/-- Has the source been left alone for as long as its floor says? -/
def FloorPassed (p : Pulses) (i : Nat) (clock : Nat → Clock) : Prop :=
  ∃ s, p.sources[i]? = some s ∧ s.pulseFloor ≤ (clock i).asked - s.walked

end Pulses

namespace Pulse

variable {w : Waits} {quiet : Bool} {clock : Clock} {s : Pulse}

/-- What a readable reading does to a source nobody watches. -/
theorem turn_some (now : Nat) :
    s.turn w false quiet clock (some now) =
      if s.safety ≤ clock.now then (s.walk w clock.noted (some now), some .reconcile)
      else
        let t := { s with last := some now, pending := s.pending || s.last.any (· ≠ now) }
        if t.pending ∧ s.pulseFloor ≤ clock.asked - s.walked then
          ({ t with pending := false, walked := clock.noted }, some .reconcile)
        else (t, none) := by
  simp [turn]

/-- And an unreadable one. -/
theorem turn_none :
    s.turn w false quiet clock none =
      if s.safety ≤ clock.now ∨ s.fallback ≤ clock.now then
        (s.walk w clock.noted none, some .reconcile)
      else (s, none) := by
  simp [turn]

end Pulse

namespace Pulses

/-! ## What was read -/

/-- A readable reading of the source. -/
def reads (i : Nat) : PulseCall → Option Nat
  | .decide readings _ _ _ => readings[i]?.join
  | _ => none

/-- The last readable reading of the source. -/
def lastReadable (i : Nat) (calls : List PulseCall) : Option Nat :=
  calls.foldl (fun last c => (reads i c).or last) none

/-- Nobody watches the source in a call. -/
def Unwatched (i : Nat) : PulseCall → Prop
  | .decide _ watched _ _ => i ∉ watched
  | _ => True

theorem contains_of_unwatched {i : Nat} {readings : List (Option Nat)} {watched : List Nat}
    {quiet : Nat → Bool} {clock : Nat → Clock}
    (h : Unwatched i (.decide readings watched quiet clock)) : watched.contains i = false := by
  have hi : i ∉ watched := h
  simpa using hi

/-- In this call an unreadable reading meets a deadline. -/
def Blank (p : Pulses) (i : Nat) : PulseCall → Prop
  | .decide readings _ _ clock => readings[i]? = some none ∧ p.Due i clock
  | _ => False

/-- Since the last readable reading an unreadable one met a deadline. -/
def Overlooked (p : Pulses) (i : Nat) (calls : List PulseCall) : Prop :=
  ∃ before c later, calls = before ++ c :: later ∧ (p.after before).Blank i c ∧
    ∀ d ∈ later, reads i d = none

theorem after_concat (p : Pulses) (calls : List PulseCall) (c : PulseCall) :
    p.after (calls ++ [c]) = ((p.after calls).call c).1 := by
  unfold after
  rw [List.foldl_append]
  rfl

theorem lastReadable_concat (i : Nat) (calls : List PulseCall) (c : PulseCall) :
    lastReadable i (calls ++ [c]) = (reads i c).or (lastReadable i calls) := by
  unfold lastReadable
  rw [List.foldl_append]
  rfl

theorem overlooked_concat {p : Pulses} {i : Nat} {calls : List PulseCall} {c : PulseCall} :
    p.Overlooked i (calls ++ [c]) ↔
      (p.after calls).Blank i c ∨ p.Overlooked i calls ∧ reads i c = none := by
  constructor
  · rintro ⟨before, d, later, hsplit, hblank, hlater⟩
    rcases List.eq_nil_or_concat' later with rfl | ⟨later, e, rfl⟩
    · left
      obtain ⟨rfl, he⟩ := List.append_inj' hsplit rfl
      rw [List.singleton_inj.mp he]
      exact hblank
    · right
      have hsplit' : calls ++ [c] = (before ++ d :: later) ++ [e] := by
        rw [hsplit]
        simp
      obtain ⟨rfl, he⟩ := List.append_inj' hsplit' rfl
      rw [List.singleton_inj.mp he]
      exact ⟨⟨before, d, later, rfl, hblank,
        fun x hx => hlater x (List.mem_append_left _ hx)⟩, hlater e (by simp)⟩
  · rintro (hblank | ⟨⟨before, d, later, rfl, hblank, hlater⟩, hc⟩)
    · exact ⟨calls, c, [], rfl, hblank, nofun⟩
    · refine ⟨before, d, later ++ [c], by simp, hblank, fun x hx => ?_⟩
      rcases List.mem_append.mp hx with hx | hx
      · exact hlater x hx
      · rw [List.mem_singleton.mp hx]
        exact hc

/-- What a source remembers: its last readable reading, or nothing and nothing pending where that
was overlooked. -/
structure Knows (p₀ : Pulses) (i : Nat) (calls : List PulseCall) (s : Pulse) : Prop where
  kept : ¬ p₀.Overlooked i calls → s.last = lastReadable i calls
  lost : p₀.Overlooked i calls → s.last = none ∧ s.pending = false

theorem Knows.of_same {p₀ : Pulses} {i : Nat} {calls : List PulseCall} {c : PulseCall}
    {s s' : Pulse} (h : p₀.Knows i calls s) (hlast : s'.last = s.last)
    (hpending : s.pending = false → s'.pending = false) (hreads : reads i c = none)
    (hblank : ¬ (p₀.after calls).Blank i c) : p₀.Knows i (calls ++ [c]) s' := by
  refine ⟨fun hnot => ?_, fun hover => ?_⟩
  · rw [lastReadable_concat, hreads, Option.none_or, hlast]
    exact h.kept fun hover => hnot (overlooked_concat.mpr (Or.inr ⟨hover, hreads⟩))
  · rcases overlooked_concat.mp hover with hb | ⟨hover, -⟩
    · exact absurd hb hblank
    · rw [hlast]
      exact ⟨(h.lost hover).1, hpending (h.lost hover).2⟩

theorem getElem?_modify_cases {α : Type*} {l : List α} {j i : Nat} {f : α → α} {b : α}
    (h : (l.modify j f)[i]? = some b) : ∃ a, l[i]? = some a ∧ (b = a ∨ j = i ∧ b = f a) := by
  rw [List.getElem?_modify] at h
  obtain ⟨a, ha, rfl⟩ := Option.map_eq_some_iff.mp h
  refine ⟨a, ha, ?_⟩
  split
  · rename_i hj
    exact Or.inr ⟨hj, rfl⟩
  · exact Or.inl rfl

/-- The source is there, and knows what it read. -/
theorem knows_after (n : Nat) (w : Waits) (t i : Nat) (calls : List PulseCall)
    (hw : ∀ c ∈ calls, Unwatched i c) : ∀ s, ((new n w t).after calls).sources[i]? = some s →
      (new n w t).Knows i calls s := by
  induction calls using List.reverseRecOn with
  | nil =>
    intro s hs
    have hmem := List.eq_of_mem_replicate (List.mem_of_getElem? hs)
    subst hmem
    refine ⟨fun _ => rfl, ?_⟩
    rintro ⟨before, c, later, hsplit, -⟩
    simp at hsplit
  | append_singleton calls c ih =>
    intro s' hs'
    have ih := ih fun d hd => hw d (List.mem_append_left _ hd)
    have hwc := hw c (List.mem_append_right _ (List.mem_singleton.mpr rfl))
    rw [after_concat] at hs'
    generalize hp : (new n w t).after calls = p at ih hs'
    cases c with
    | scanned source cost now =>
      obtain ⟨s, hs, rfl | ⟨-, rfl⟩⟩ := getElem?_modify_cases hs'
      · exact (ih _ hs).of_same rfl id rfl id
      · exact (ih _ hs).of_same rfl (fun _ => rfl) rfl id
    | sawEvent source =>
      obtain ⟨s, hs, rfl | ⟨-, rfl⟩⟩ := getElem?_modify_cases hs'
      · exact (ih _ hs).of_same rfl id rfl id
      · exact (ih _ hs).of_same rfl id rfl id
    | bePatient source least =>
      obtain ⟨s, hs, rfl | ⟨-, rfl⟩⟩ := getElem?_modify_cases hs'
      · exact (ih _ hs).of_same rfl id rfl id
      · exact (ih _ hs).of_same rfl id rfl id
    | decide readings watched quiet clock =>
      rw [getElem?_decide] at hs'
      obtain ⟨s, hs, rfl⟩ := Option.map_eq_some_iff.mp hs'
      have hknows := ih s hs
      have hwatched : watched.contains i = false := contains_of_unwatched hwc
      unfold turnAt
      rw [hwatched]
      cases hr : readings[i]? with
      | none =>
        refine hknows.of_same rfl id (by simp [reads, hr]) ?_
        rintro ⟨hblank, -⟩
        rw [hr] at hblank
        cases hblank
      | some reading =>
        cases reading with
        | none =>
          have hreads : reads i (.decide readings watched quiet clock) = none := by simp [reads, hr]
          simp only [Pulse.turn_none]
          split
          · rename_i hdue
            have hblank : ((new n w t).after calls).Blank i (.decide readings watched quiet clock) := by
              rw [hp]
              exact ⟨hr, s, hs, hdue⟩
            exact ⟨fun hnot => absurd (overlooked_concat.mpr (Or.inl hblank)) hnot,
              fun _ => ⟨rfl, rfl⟩⟩
          · rename_i hdue
            refine hknows.of_same rfl id hreads ?_
            rw [hp]
            rintro ⟨-, s₁, hs₁, hdue₁⟩
            rw [hs] at hs₁
            rw [← Option.some.inj hs₁] at hdue₁
            exact hdue hdue₁
        | some r =>
          have hreads : reads i (.decide readings watched quiet clock) = some r := by
            simp [reads, hr]
          have hlast : (s.turn p.waits false (quiet i) (clock i) (some r)).1.last = some r := by
            rw [Pulse.turn_some]
            split
            · rfl
            · simp only
              split
              · rfl
              · rfl
          refine ⟨fun _ => ?_, fun hover => ?_⟩
          · rw [lastReadable_concat, hreads]
            exact hlast
          · rcases overlooked_concat.mp hover with ⟨hblank, -⟩ | ⟨-, hnone⟩
            · rw [hr] at hblank
              cases hblank
            · rw [hreads] at hnone
              cases hnone

/-! ## What stays pending -/

/-- A nudge for the source is issued in these calls. -/
def Nudged (p : Pulses) (i : Nat) (calls : List PulseCall) : Prop :=
  ∃ before c later, calls = before ++ c :: later ∧
    (i, .reconcile) ∈ ((p.after before).call c).2

/-- A completed full pass of the source is recorded in these calls. -/
def Passed (i : Nat) (calls : List PulseCall) : Prop := ∃ cost now, .scanned i cost now ∈ calls

/-- One call leaves a source pending, nudges it or records a pass of it. -/
theorem pending_call {p : Pulses} {i : Nat} (h : p.Pending i) {c : PulseCall}
    (hw : Unwatched i c) :
    (p.call c).1.Pending i ∨ (i, .reconcile) ∈ (p.call c).2 ∨ Passed i [c] := by
  obtain ⟨s, hs, hpending⟩ := h
  have hmodify : ∀ (j : Nat) (f : Pulse → Pulse), (∀ s, (f s).pending = s.pending) →
      ∃ s', (p.sources.modify j f)[i]? = some s' ∧ s'.pending = true := by
    intro j f hf
    rw [List.getElem?_modify, hs]
    refine ⟨_, rfl, ?_⟩
    split
    · rw [hf, hpending]
    · exact hpending
  cases c with
  | scanned source cost now =>
    by_cases hsource : source = i
    · subst hsource
      exact Or.inr (Or.inr ⟨cost, now, List.mem_singleton.mpr rfl⟩)
    · left
      refine ⟨s, ?_, hpending⟩
      simp only [call, List.getElem?_modify, hs, if_neg hsource, Option.map_eq_map,
        Option.map_some]
  | sawEvent source => exact Or.inl (hmodify source _ fun _ => rfl)
  | bePatient source least => exact Or.inl (hmodify source _ fun _ => rfl)
  | decide readings watched quiet clock =>
    have hwatched := contains_of_unwatched hw
    have hkeep : (p.turnAt readings watched quiet clock i s).1.pending = true ∨
        (p.turnAt readings watched quiet clock i s).2 = some .reconcile := by
      unfold turnAt
      rw [hwatched]
      cases readings[i]? with
      | none => exact Or.inl hpending
      | some reading =>
        cases reading with
        | none =>
          simp only [Pulse.turn_none]
          split
          · exact Or.inr rfl
          · exact Or.inl hpending
        | some r =>
          simp only [Pulse.turn_some, hpending, Bool.true_or]
          split
          · exact Or.inr rfl
          · split
            · exact Or.inr rfl
            · exact Or.inl rfl
    rcases hkeep with hkeep | hnudge
    · refine Or.inl ⟨_, ?_, hkeep⟩
      rw [getElem?_decide, hs]
      rfl
    · exact Or.inr (Or.inl ((mem_nudges hs).mpr hnudge))

/-- What is pending stays so until a nudge is issued or a full pass is recorded. -/
theorem stays_pending {i : Nat} (later : List PulseCall) : ∀ p : Pulses, p.Pending i →
    (∀ c ∈ later, Unwatched i c) →
    (p.after later).Pending i ∨ p.Nudged i later ∨ Passed i later := by
  induction later with
  | nil => exact fun p h _ => Or.inl h
  | cons c later ih =>
    intro p h hw
    rcases pending_call h (hw c List.mem_cons_self) with hstill | hnudge | ⟨cost, now, hpass⟩
    · rcases ih (p.call c).1 hstill fun d hd => hw d (List.mem_cons_of_mem _ hd) with
        hstill | ⟨before, d, rest, rfl, hnudge⟩ | ⟨cost, now, hpass⟩
      · exact Or.inl hstill
      · exact Or.inr (Or.inl ⟨c :: before, d, rest, rfl, hnudge⟩)
      · exact Or.inr (Or.inr ⟨cost, now, List.mem_cons_of_mem _ hpass⟩)
    · exact Or.inr (Or.inl ⟨[], c, later, rfl, hnudge⟩)
    · rw [List.mem_singleton] at hpass
      exact Or.inr (Or.inr ⟨cost, now, hpass ▸ List.mem_cons_self⟩)

/-- Once its floor has passed, a readable reading nudges what is pending. -/
theorem nudge_of_pending {p : Pulses} {i : Nat} (h : p.Pending i) {readings : List (Option Nat)}
    {watched : List Nat} {quiet : Nat → Bool} {clock : Nat → Clock}
    (hw : Unwatched i (.decide readings watched quiet clock)) {r : Nat}
    (hr : reads i (.decide readings watched quiet clock) = some r) (hfloor : p.FloorPassed i clock) :
    (i, .reconcile) ∈ (p.call (.decide readings watched quiet clock)).2 := by
  obtain ⟨s, hs, hpending⟩ := h
  obtain ⟨s', hs', hfloor⟩ := hfloor
  rw [hs] at hs'
  obtain rfl := Option.some.inj hs'
  have hr : readings[i]? = some (some r) := Option.join_eq_some_iff.mp hr
  rw [mem_nudges hs]
  unfold turnAt
  rw [contains_of_unwatched hw, hr]
  simp only [Pulse.turn_some, hpending, Bool.true_or]
  split
  · rfl
  · rw [if_pos ⟨trivial, hfloor⟩]

theorem length_call (p : Pulses) (c : PulseCall) :
    (p.call c).1.sources.length = p.sources.length := by
  cases c with
  | decide readings watched quiet clock => simp [call]
  | scanned source cost now => simp [call]
  | sawEvent source => simp [call]
  | bePatient source least => simp [call]

theorem length_after (p : Pulses) (calls : List PulseCall) :
    (p.after calls).sources.length = p.sources.length := by
  induction calls using List.reverseRecOn with
  | nil => rfl
  | append_singleton calls c ih => rw [after_concat, length_call, ih]

/-- **A moved pulse is kept**: where a readable reading differs from the last one before it, a nudge
is issued at once, or the source stays pending until one is or a full pass is recorded, exactly
where the last reading was not overlooked or the safety deadline has come; and what is pending is
nudged by a readable reading once the floor has passed. -/
theorem moved_kept_iff {n : Nat} {w : Waits} {t i : Nat} {before : List PulseCall}
    {readings : List (Option Nat)} {watched : List Nat} {quiet : Nat → Bool} {clock : Nat → Clock}
    (hi : i < n) (hbefore : ∀ c ∈ before, Unwatched i c) (hwatched : i ∉ watched) {was now : Nat}
    (hwas : lastReadable i before = some was) (hnow : readings[i]? = some (some now))
    (hmoved : was ≠ now) :
    let p := (new n w t).after before
    let tick := PulseCall.decide readings watched quiet clock
    (((i, .reconcile) ∈ (p.call tick).2 ∨
        ∀ later, (∀ c ∈ later, Unwatched i c) → ((p.call tick).1.after later).Pending i ∨
          (p.call tick).1.Nudged i later ∨ Passed i later) ↔
      ¬ (new n w t).Overlooked i before ∨ p.SafetyDue i clock) ∧
    ∀ q : Pulses, q.Pending i → q.FloorPassed i clock → (i, .reconcile) ∈ (q.call tick).2 := by
  intro p tick
  have hread : reads i tick = some now := by simp [tick, reads, hnow]
  have htick : Unwatched i tick := hwatched
  refine ⟨?_, fun q hq hfloor => nudge_of_pending hq htick hread hfloor⟩
  have hlen : i < p.sources.length := by
    rw [length_after]
    simpa [new] using hi
  obtain ⟨s, hs⟩ : ∃ s, p.sources[i]? = some s := ⟨_, List.getElem?_eq_getElem hlen⟩
  have hknows := knows_after n w t i before hbefore s hs
  have hturn : p.turnAt readings watched quiet clock i s =
      s.turn p.waits false (quiet i) (clock i) (some now) := by
    unfold turnAt
    rw [contains_of_unwatched htick, hnow]
  rw [Pulse.turn_some] at hturn
  have hsafety : p.SafetyDue i clock ↔ s.safety ≤ (clock i).now := by
    constructor
    · rintro ⟨s', hs', hdue⟩
      rw [hs] at hs'
      rwa [Option.some.inj hs']
    · exact fun hdue => ⟨s, hs, hdue⟩
  rw [mem_nudges hs, hsafety]
  by_cases hdue : s.safety ≤ (clock i).now
  · rw [if_pos hdue] at hturn
    rw [hturn]
    exact ⟨fun _ => Or.inr hdue, fun _ => Or.inl rfl⟩
  rw [if_neg hdue] at hturn
  have hafter : (p.call tick).1.sources[i]? =
      some (p.turnAt readings watched quiet clock i s).1 := by
    rw [getElem?_decide, hs]
    rfl
  constructor
  · intro h
    by_contra hnot
    have hover : (new n w t).Overlooked i before := by
      by_contra hno
      exact hnot (Or.inl hno)
    obtain ⟨hlast, hpending⟩ := hknows.lost hover
    have hturn' : p.turnAt readings watched quiet clock i s =
        ({ s with last := some now, pending := false }, none) := by
      rw [hturn]
      simp [hlast, hpending]
    rcases h with h | h
    · rw [hturn'] at h
      cases h
    · rcases h [] nofun with ⟨s', hs', hp⟩ | ⟨l, c, l', hsplit, -⟩ | ⟨cost, at_, hpass⟩
      · have hs' : (p.call tick).1.sources[i]? = some s' := hs'
        rw [hafter, hturn'] at hs'
        rw [← Option.some.inj hs'] at hp
        cases hp
      · simp at hsplit
      · cases hpass
  · rintro (hno | hdue')
    · have hlast := hknows.kept hno
      rw [hwas] at hlast
      have hmoves : (s.pending || s.last.any (· ≠ now)) = true := by
        rw [hlast]
        simp [hmoved]
      simp only [hmoves] at hturn
      split at hturn
      · left
        rw [hturn]
      · right
        intro later hlater
        refine stays_pending later _ ⟨_, hafter, ?_⟩ hlater
        rw [hturn]
    · exact absurd hdue' hdue

/-- A minute of polling, and a clock that stands still. -/
theorem moved_kept_next :
    (0, .reconcile) ∈ (((new 1 ⟨60, 1800, 86400⟩ 100).after
        [.decide [some 1] [] (fun _ => true) fun _ => ⟨102, 102, 102⟩]).call
      (.decide [some 2] [] (fun _ => true) fun _ => ⟨104, 104, 104⟩)).2 ∨
    ∀ later, (∀ c ∈ later, Unwatched 0 c) →
      ((((new 1 ⟨60, 1800, 86400⟩ 100).after
          [.decide [some 1] [] (fun _ => true) fun _ => ⟨102, 102, 102⟩]).call
        (.decide [some 2] [] (fun _ => true) fun _ => ⟨104, 104, 104⟩)).1.after later).Pending 0 ∨
      (((new 1 ⟨60, 1800, 86400⟩ 100).after
          [.decide [some 1] [] (fun _ => true) fun _ => ⟨102, 102, 102⟩]).call
        (.decide [some 2] [] (fun _ => true) fun _ => ⟨104, 104, 104⟩)).1.Nudged 0 later ∨
      Passed 0 later := by
  refine (moved_kept_iff (n := 1) (i := 0) (by decide) ?_ List.not_mem_nil rfl rfl (by decide)).1.mpr
    (Or.inl ?_)
  · intro c hc
    rw [List.mem_singleton.mp hc]
    exact List.not_mem_nil
  · rintro ⟨before, c, later, hsplit, hblank, -⟩
    cases before with
    | nil =>
      obtain ⟨rfl, -⟩ := List.cons.inj hsplit
      cases hblank.1
    | cons d before => simp at hsplit

/-- An unreadable reading on the polling deadline comes between. -/
theorem not_moved_kept :
    ¬ ∀ (n : Nat) (w : Waits) (t i : Nat) (before : List PulseCall) (readings : List (Option Nat))
      (watched : List Nat) (quiet : Nat → Bool) (clock : Nat → Clock) (was now : Nat),
      i < n → (∀ c ∈ before, Unwatched i c) → i ∉ watched →
      lastReadable i before = some was → readings[i]? = some (some now) → was ≠ now →
      (i, .reconcile) ∈ (((new n w t).after before).call (.decide readings watched quiet clock)).2 ∨
        ∀ later, (∀ c ∈ later, Unwatched i c) →
          ((((new n w t).after before).call (.decide readings watched quiet clock)).1.after
              later).Pending i ∨
          (((new n w t).after before).call (.decide readings watched quiet clock)).1.Nudged i
            later ∨ Passed i later := by
  intro h
  have hcase := h 1 ⟨60, 1800, 86400⟩ 100 0
    [.decide [some 1] [] (fun _ => true) fun _ => ⟨102, 102, 102⟩,
      .decide [none] [] (fun _ => true) fun _ => ⟨160, 160, 160⟩]
    [some 2] [] (fun _ => true) (fun _ => ⟨176, 176, 176⟩) 1 2 (by decide)
    (by
      intro c hc
      rcases List.mem_cons.mp hc with rfl | hc
      · exact List.not_mem_nil
      · rw [List.mem_singleton.mp hc]
        exact List.not_mem_nil)
    nofun rfl rfl (by decide)
  rcases hcase with hnudge | hlater
  · revert hnudge
    decide
  · rcases hlater [] nofun with ⟨s, hs, hpending⟩ | ⟨l, c, l', hsplit, -⟩ | ⟨cost, at_, hpass⟩
    · obtain rfl := Option.some.inj hs
      revert hpending
      decide
    · simp at hsplit
    · cases hpass

end Pulses

end Scour
