import Mathlib.Data.List.Basic
import Scour.Worker

/-!
# What a shutdown loses

`run_nothingLost`: in a run whose moves all meet `Meets`, a shutdown loses no change and no walk
asked for.  The invariant is that a walk owed is held somewhere, by a job, a change, a pending path
or a walk about to begin (`Holds`), and what a move does to the holders is all there is to prove.

Without the condition the worker takes the stop while changes are queued (`not_nothingLost`).
-/

namespace Scour

namespace Sys

/-- The walks that wait in the channel and among the pending paths. -/
def waitingWalks (c : EngineConfig) (s : Sys) : List Walk :=
  s.changes.flatMap (asks c) ++ s.pending.paths.flatMap c.walksOf

/-! ## Who holds a walk owed -/

/-- Does making the walks of this path make the walk? -/
def Stands (c : EngineConfig) (q : Str) (r : Walk) : Prop := ∃ w ∈ c.walksOf q, w.answers r = true

/-- The walks of this turn that have not begun. -/
def todo (s : Sys) : List Walk :=
  match s.worker with
  | .walking _ todo _ => todo
  | _ => []

/-- The walks owed, but for those the running one will have made. -/
def rest (s : Sys) : List Walk :=
  match s.worker with
  | .walking (some (_, made)) _ _ => s.owed.diff made
  | _ => s.owed

/-- Somebody will see to the walk: a job, a change, a waiting path, or this turn. -/
def Holds (c : EngineConfig) (s : Sys) (r : Walk) : Prop :=
  (∃ w : Walk, .scan w.source w.subtree ∈ s.jobs ∧ w.answers r = true) ∨
    (∃ change ∈ s.changes, r ∈ asks c change) ∨
    (∃ q ∈ s.pending.paths, Stands c q r) ∨
    ∃ w ∈ s.todo, w.answers r = true

/-! ## When a move loses nothing -/

/-- The path is covered by no other of the list. -/
def Topmost (l : List Str) (q : Str) : Prop := q ∈ l ∧ ∀ k ∈ l, under q k = true → q = k

/-- The paths that wait or are about to. -/
def waitingPaths (s : Sys) : List Str :=
  s.pending.paths ++ (rescans (s.changes.take BATCH)).map trimEnd

/-- When a move loses nothing, in the state before it. -/
def Meets (c : EngineConfig) (s : Sys) : Action → Prop
  -- nothing arrives after the worker has left
  | .emit change => s.worker ≠ .exited ∨
      (isData change = false ∧ (asks c change = [] ∨ s.seen = some true))
  -- the worker leaves with no change queued and no walk owed still waiting
  | .takeJob => s.worker = .waiting → s.jobs.head? = some .stop →
      s.changes.filter isData = [] ∧
        (s.seen = some true ∨ ∀ r ∈ s.owed, ∀ w ∈ waitingWalks c s, w.answers r = false)
  | .endTurn => s.stop = true → s.jobs = [] → s.changes = [] →
      s.seen = some true ∨ ∀ r ∈ s.owed, ∀ w ∈ waitingWalks c s, w.answers r = false
  -- no walk owed is cut short, but one that somebody else will make
  | .finish cut => ∀ w made todo due, s.worker = .walking (some (w, made)) todo due → cut = true →
      s.seen = some true ∨ ∀ r ∈ made, Holds c s r
  -- a walk owed is not given up for a path of another source
  | .takeChanges _ => s.seen = some true ∨
      ∀ r ∈ s.owed, ∀ p ∈ s.waitingPaths, Stands c p r →
        (∃ q, Topmost s.waitingPaths q ∧ Stands c q r) ∨
          (∃ w : Walk, .scan w.source w.subtree ∈ s.jobs ∧ w.answers r = true) ∨
          ∃ change ∈ s.changes.drop BATCH, r ∈ asks c change
  | _ => True

/-! ## The invariant -/

structure Inv (c : EngineConfig) (s : Sys) : Prop where
  data : s.applied ++ s.changes.filter isData = s.emitted.filter isData
  /-- The stop is the last job. -/
  unsent : s.sentStop = false → .stop ∉ s.jobs
  sent : s.sentStop = true → s.watching = false ∧
    (s.worker ≠ .exited → ∃ l, s.jobs = l ++ [.stop] ∧ .stop ∉ l)
  flags : ∀ i, s.queued.getD i false = true → .scan i none ∈ s.jobs
  apart : s.pending.Apart
  drained : s.worker = .exited → s.changes.filter isData = []
  held : s.seen = some true ∨ (s.worker = .exited → s.owed = []) ∧
    (s.worker ≠ .exited → ∀ r ∈ s.rest, Holds c s r)

end Sys

/-! ## Walks and the paths they are of -/

theorem Walk.answers_self (w : Walk) : w.answers w = true := by
  obtain ⟨i, sub⟩ := w
  unfold Walk.answers
  cases sub with
  | none => simp
  | some p => simp [under_refl]

namespace Sys

/-! ## What a move does to the holders -/

theorem mem_diff_iff (l m : List Walk) (r : Walk) : r ∈ l.diff m ↔ m.count r < l.count r := by
  rw [← List.count_pos_iff, List.count_diff]
  omega

theorem Holds.mono {c : EngineConfig} {s t : Sys} {r : Walk} (h : Holds c s r)
    (hjobs : ∀ w : Walk, .scan w.source w.subtree ∈ s.jobs → .scan w.source w.subtree ∈ t.jobs)
    (hchanges : ∀ change ∈ s.changes, change ∈ t.changes)
    (hpending : ∀ q ∈ s.pending.paths, q ∈ t.pending.paths)
    (htodo : ∀ w ∈ s.todo, w ∈ t.todo) : Holds c t r := by
  rcases h with ⟨w, hw, ha⟩ | ⟨change, hc, hr⟩ | ⟨q, hq, hst⟩ | ⟨w, hw, ha⟩
  · exact Or.inl ⟨w, hjobs w hw, ha⟩
  · exact Or.inr (Or.inl ⟨change, hchanges change hc, hr⟩)
  · exact Or.inr (Or.inr (Or.inl ⟨q, hpending q hq, hst⟩))
  · exact Or.inr (Or.inr (Or.inr ⟨w, htodo w hw, ha⟩))

/-- A walk asked for just now is owed beside the others. -/
theorem mem_rest_append {s t : Sys} (new : List Walk) {r : Walk} (h : r ∈ t.rest)
    (hw : t.worker = s.worker) (ho : t.owed = s.owed ++ new) : r ∈ s.rest ∨ r ∈ new := by
  unfold rest at h ⊢
  rw [hw, ho] at h
  split at h
  · rw [mem_diff_iff, List.count_append] at h
    by_cases hr : r ∈ new
    · exact Or.inr hr
    · left
      rw [mem_diff_iff]
      rw [List.count_eq_zero_of_not_mem hr] at h
      omega
  · exact List.mem_append.mp h

theorem rest_of_waiting {s : Sys} (h : s.worker = .waiting) : s.rest = s.owed := by
  unfold rest
  rw [h]

theorem rest_of_walking {s : Sys} {todo : List Walk} {due : Bool}
    (h : s.worker = .walking none todo due) : s.rest = s.owed := by
  unfold rest
  rw [h]

/-- What waits after a path is added waited before, or is that path. -/
theorem mem_add_paths {w : PendingWalks} {path q : Str} {now : Nat}
    (h : q ∈ (w.add path now).paths) : q ∈ w.paths ∨ q = trimEnd path := by
  rcases w.add_paths path now with ⟨ht, he⟩ | ⟨-, -, he⟩ | ⟨-, -, he⟩
  · rw [he, List.mem_singleton] at h
    exact Or.inr (h.trans ht.symm)
  · exact Or.inl (he ▸ h)
  · rw [he, List.mem_append, List.mem_filter, List.mem_singleton] at h
    exact h.imp And.left id

/-- A path no other covers goes on waiting, or waits from now on. -/
theorem topmost_mem_add {l : List Str} {w : PendingWalks} {path q : Str} (now : Nat)
    (hpath : trimEnd path ∈ l) (hw : ∀ k ∈ w.paths, k ∈ l) (ht : Topmost l q)
    (h : q ∈ w.paths ∨ q = trimEnd path) : q ∈ (w.add path now).paths := by
  rcases h with h | rfl
  · rcases w.add_keeps path now q h with h | ⟨h, hu⟩
    · exact h
    · rwa [ht.2 _ hpath hu]
  · rcases w.add_covers path now with h | ⟨k, hk, hk', hu⟩
    · exact h
    · rwa [ht.2 k (hw k hk) hu]

theorem topmost_mem_addAll {l : List Str} {q : Str} (now : Nat) (ht : Topmost l q) (ps : List Str) :
    ∀ {w : PendingWalks}, (∀ p ∈ ps, trimEnd p ∈ l) → (∀ k ∈ w.paths, k ∈ l) →
    (q ∈ w.paths ∨ ∃ p ∈ ps, q = trimEnd p) →
    q ∈ (ps.foldl (fun w p => w.add p now) w).paths := by
  induction ps with
  | nil =>
    rintro w - - (h | ⟨p, hp, -⟩)
    · exact h
    · cases hp
  | cons p ps ih =>
    intro w hps hw h
    have hp := hps p List.mem_cons_self
    refine ih (fun k hk => hps k (List.mem_cons_of_mem _ hk)) (fun k hk => ?_) ?_
    · rcases mem_add_paths hk with h | rfl
      · exact hw k h
      · exact hp
    · rcases h with h | ⟨k, hk, rfl⟩
      · exact Or.inl (topmost_mem_add now hp hw ht (Or.inl h))
      · rcases List.mem_cons.mp hk with rfl | hk
        · exact Or.inl (topmost_mem_add now hp hw ht (Or.inr rfl))
        · exact Or.inr ⟨k, hk, rfl⟩

theorem addAll_apart (now : Nat) (l : List Str) : ∀ {w : PendingWalks}, w.Apart →
    (l.foldl (fun w p => w.add p now) w).Apart := by
  induction l with
  | nil => exact fun h => h
  | cons p l ih => exact fun h => ih (h.add p now)

/-- After a batch is taken the topmost of the paths wait. -/
theorem topmost_mem_taken {s : Sys} (now : Nat) {q : Str} (ht : Topmost s.waitingPaths q) :
    q ∈ ((coalesce (rescans (s.changes.take BATCH))).foldl
      (fun w p => w.add p now) s.pending).paths := by
  obtain ⟨hsub, hcov⟩ := reduce_spec (rescans (s.changes.take BATCH))
  have hin : ∀ k ∈ coalesce (rescans (s.changes.take BATCH)), trimEnd k ∈ s.waitingPaths := by
    intro k hk
    obtain ⟨p, hp, rfl⟩ := hsub k hk
    rw [trimEnd_trimEnd]
    exact List.mem_append_right _ (List.mem_map_of_mem hp)
  refine topmost_mem_addAll now ht _ hin (fun k hk => List.mem_append_left _ hk) ?_
  rcases List.mem_append.mp ht.1 with h | h
  · exact Or.inl h
  · obtain ⟨p, hp, rfl⟩ := List.mem_map.mp h
    obtain ⟨k, hk, hu⟩ := hcov p hp
    have hkt : trimEnd k = k := by
      obtain ⟨p', -, rfl⟩ := hsub k hk
      exact trimEnd_trimEnd p'
    exact Or.inr ⟨k, hk, ht.2 _ (hin k hk) (by rwa [hkt])⟩

theorem inv_init (c : EngineConfig) : Inv c (init c) where
  data := rfl
  unsent := by simp [init]
  sent := by simp [init]
  flags := by
    intro i hi
    rw [List.getD_eq_getElem?_getD] at hi
    simp only [init, List.getElem?_replicate] at hi
    split at hi <;> cases hi
  apart := PendingWalks.apart_empty
  drained := by simp [init]
  held := Or.inr ⟨fun _ => rfl, fun _ r hr => by simp [init, rest] at hr⟩

/-- The held part, from what is held before the move. -/
theorem Inv.held_of {c : EngineConfig} {s t : Sys} (h : Inv c s)
    (hseen : s.seen = some true → t.seen = some true)
    (hin : s.worker ≠ .exited → (∀ r ∈ s.rest, Holds c s r) →
      t.seen = some true ∨ (t.worker = .exited → t.owed = []) ∧
        (t.worker ≠ .exited → ∀ r ∈ t.rest, Holds c t r))
    (hout : s.worker = .exited → s.owed = [] → t.seen = some true ∨
      t.worker = .exited ∧ t.owed = []) :
    t.seen = some true ∨ (t.worker = .exited → t.owed = []) ∧
      (t.worker ≠ .exited → ∀ r ∈ t.rest, Holds c t r) := by
  rcases h.held with hs | ⟨h1, h2⟩
  · exact Or.inl (hseen hs)
  · by_cases hx : s.worker = .exited
    · rcases hout hx (h1 hx) with hs | ⟨hw, ho⟩
      · exact Or.inl hs
      · exact Or.inr ⟨fun _ => ho, fun hne => absurd hw hne⟩
    · exact hin hx (h2 hx)

theorem Inv.emit {c : EngineConfig} {s t : Sys} (h : Inv c s) (change : Change)
    (hm : Meets c s (.emit change)) (hstep : s.step c (.emit change) = some t) : Inv c t := by
  simp only [step] at hstep
  split at hstep
  · cases hstep
  · rename_i hwatch
    split at hstep
    · rename_i hexited
      obtain rfl := Option.some.inj hstep
      obtain ⟨hdata, hasks⟩ := hm.resolve_left (not_not_intro hexited)
      refine ⟨?_, h.unsent, h.sent, h.flags, h.apart, h.drained, ?_⟩
      · show s.applied ++ s.changes.filter isData = (s.emitted ++ [change]).filter isData
        rw [List.filter_append, ← h.data]
        simp [hdata]
      · refine h.held_of id (fun hne => absurd hexited hne) fun _ ho => ?_
        rcases hasks with hasks | hseen
        · exact Or.inr ⟨hexited, by show s.owed ++ asks c change = []; rw [ho, hasks]; rfl⟩
        · exact Or.inl hseen
    · rename_i hexited
      split at hstep
      · obtain rfl := Option.some.inj hstep
        refine ⟨?_, h.unsent, h.sent, h.flags, h.apart, fun hx => absurd hx hexited, ?_⟩
        · show s.applied ++ (s.changes ++ [change]).filter isData =
            (s.emitted ++ [change]).filter isData
          rw [List.filter_append, List.filter_append, ← h.data, List.append_assoc]
        · refine h.held_of id (fun _ hall => ?_) fun hx => absurd hx hexited
          refine Or.inr ⟨fun hx => absurd hx hexited, fun _ r hr => ?_⟩
          rcases mem_rest_append (s := s) (asks c change) hr rfl rfl with hr | hr
          · exact (hall r hr).mono (fun _ hw => hw) (fun _ hx => List.mem_append_left _ hx)
              (fun _ hq => hq) fun _ hw => hw
          · exact Or.inr (Or.inl ⟨change, List.mem_append_right _ (List.mem_singleton.mpr rfl), hr⟩)
      · cases hstep

/-- A walk is asked for, with a job queued for it. -/
theorem Inv.ask {c : EngineConfig} {s t : Sys} (h : Inv c s) (w : Walk) (q : List Bool)
    (j : List EngineJob) (hwatch : s.watching = true) (hne : s.worker ≠ .exited)
    (hsub : ∀ job ∈ s.jobs, job ∈ j) (hnew : .scan w.source w.subtree ∈ j)
    (hstop : .stop ∈ j → .stop ∈ s.jobs) (hflags : ∀ i, q.getD i false = true → .scan i none ∈ j)
    (ht : t = { s with jobs := j, queued := q, owed := s.owed ++ [w] }) : Inv c t := by
  subst ht
  have hsent : s.sentStop = true → False := by
    intro hs
    rw [(h.sent hs).1] at hwatch
    cases hwatch
  refine ⟨h.data, fun hs hj => h.unsent hs (hstop hj), fun hs => (hsent hs).elim, hflags, h.apart,
    h.drained, h.held_of id (fun _ hall => ?_) fun hx => absurd hx hne⟩
  refine Or.inr ⟨fun hx => absurd hx hne, fun _ r hr => ?_⟩
  rcases mem_rest_append (s := s) [w] hr rfl rfl with hr | hr
  · exact (hall r hr).mono (fun _ hw => hsub _ hw) (fun _ hx => hx) (fun _ hq => hq) fun _ hw => hw
  · rw [List.mem_singleton] at hr
    exact Or.inl ⟨w, hnew, hr ▸ w.answers_self⟩

theorem Inv.askWhole {c : EngineConfig} {s t : Sys} (h : Inv c s) (i : Nat)
    (hstep : s.step c (.askWhole i) = some t) : Inv c t := by
  simp only [step] at hstep
  split at hstep
  · rename_i hc
    obtain ⟨hwatch, hne, -⟩ := hc
    have ht := (Option.some.inj hstep).symm
    unfold queueWhole at ht
    split at ht
    · rename_i hq
      exact h.ask ⟨i, none⟩ s.queued s.jobs hwatch hne (fun _ hj => hj) (h.flags i hq)
        (fun hj => hj) h.flags ht
    · refine h.ask ⟨i, none⟩ _ _ hwatch hne (fun _ hj => List.mem_append_left _ hj)
        (List.mem_append_right _ (List.mem_singleton.mpr rfl)) (fun hj => ?_) (fun k hk => ?_) ht
      · simpa using hj
      · by_cases hik : i = k
        · rw [hik]
          exact List.mem_append_right _ (List.mem_singleton.mpr rfl)
        · rw [List.getD_eq_getElem?_getD, List.getElem?_set_ne hik,
            ← List.getD_eq_getElem?_getD] at hk
          exact List.mem_append_left _ (h.flags k hk)
  · cases hstep

theorem Inv.askSubtree {c : EngineConfig} {s t : Sys} (h : Inv c s) (path : Str)
    (hstep : s.step c (.askSubtree path) = some t) : Inv c t := by
  simp only [step] at hstep
  split at hstep
  · rename_i i _
    split at hstep
    · rename_i hc
      refine h.ask ⟨i, some path⟩ s.queued _ hc.1 hc.2 (fun _ hj => List.mem_append_left _ hj)
        (List.mem_append_right _ (List.mem_singleton.mpr rfl)) (fun hj => ?_)
        (fun k hk => List.mem_append_left _ (h.flags k hk)) (Option.some.inj hstep).symm
      simpa using hj
    · cases hstep
  · cases hstep

theorem Inv.askMaintain {c : EngineConfig} {s t : Sys} (h : Inv c s)
    (hstep : s.step c .askMaintain = some t) : Inv c t := by
  simp only [step] at hstep
  split at hstep
  · rename_i hc
    obtain ⟨hwatch, hne⟩ := hc
    obtain rfl := Option.some.inj hstep
    refine ⟨h.data, fun hs hj => h.unsent hs (by simpa using hj), fun hs => ?_,
      fun k hk => List.mem_append_left _ (h.flags k hk), h.apart, h.drained,
      h.held_of id (fun _ hall => ?_) fun hx => absurd hx hne⟩
    · have := (h.sent hs).1
      rw [hwatch] at this
      cases this
    · refine Or.inr ⟨fun hx => absurd hx hne, fun _ r hr => (hall r hr).mono ?_
        (fun _ hx => hx) (fun _ hq => hq) fun _ hw => hw⟩
      exact fun _ hw => List.mem_append_left _ hw
  · cases hstep

/-- The swap asks, and the flags and handles go down. -/
theorem Inv.see {c : EngineConfig} {s t : Sys} (h : Inv c s) (hstep : s.step c .see = some t) :
    Inv c t := by
  simp only [step] at hstep
  split at hstep
  · rename_i hc
    obtain rfl := Option.some.inj hstep
    refine ⟨h.data, h.unsent, h.sent, h.flags, h.apart, h.drained, ?_⟩
    rcases h.held with hs | hs
    · rw [hc.1] at hs
      cases hs
    · exact Or.inr hs
  · cases hstep

theorem Inv.setStop {c : EngineConfig} {s t : Sys} (h : Inv c s)
    (hstep : s.step c .setStop = some t) : Inv c t := by
  simp only [step] at hstep
  split at hstep
  · obtain rfl := Option.some.inj hstep
    exact ⟨h.data, h.unsent, h.sent, h.flags, h.apart, h.drained, h.held⟩
  · cases hstep

theorem Inv.stopWatches {c : EngineConfig} {s t : Sys} (h : Inv c s)
    (hstep : s.step c .stopWatches = some t) : Inv c t := by
  simp only [step] at hstep
  split at hstep
  · obtain rfl := Option.some.inj hstep
    exact ⟨h.data, h.unsent, fun hs => ⟨rfl, (h.sent hs).2⟩, h.flags, h.apart, h.drained, h.held⟩
  · cases hstep

theorem Inv.sendStop {c : EngineConfig} {s t : Sys} (h : Inv c s)
    (hstep : s.step c .sendStop = some t) : Inv c t := by
  simp only [step] at hstep
  split at hstep
  · rename_i hc
    obtain rfl := Option.some.inj hstep
    by_cases hx : s.worker = .exited
    · rw [if_pos hx]
      exact ⟨h.data, fun hs => (Bool.noConfusion hs), fun _ => ⟨hc.1, fun hne => absurd hx hne⟩,
        h.flags, h.apart, h.drained, h.held⟩
    · rw [if_neg hx]
      refine ⟨h.data, fun hs => (Bool.noConfusion hs),
        fun _ => ⟨hc.1, fun _ => ⟨s.jobs, rfl, h.unsent hc.2⟩⟩,
        fun k hk => List.mem_append_left _ (h.flags k hk), h.apart, h.drained,
        h.held_of id (fun _ hall => ?_) fun hx' => absurd hx' hx⟩
      exact Or.inr ⟨fun hx' => absurd hx' hx, fun _ r hr => (hall r hr).mono
        (fun _ hw => List.mem_append_left _ hw) (fun _ hx => hx) (fun _ hq => hq) fun _ hw => hw⟩
  · cases hstep

/-- The worker leaves owing nothing when nobody holds a walk. -/
theorem owed_eq_nil {c : EngineConfig} {s : Sys} (hjobs : ∀ w : Walk, .scan w.source w.subtree ∉ s.jobs)
    (hwaiting : ∀ r ∈ s.owed, ∀ w ∈ waitingWalks c s, w.answers r = false) (htodo : s.todo = []) (hrest : s.rest = s.owed)
    (hall : ∀ r ∈ s.rest, Holds c s r) : s.owed = [] := by
  rw [List.eq_nil_iff_forall_not_mem]
  intro r hr
  have hno : ∀ w ∈ waitingWalks c s, w.answers r ≠ true := fun w hw => by
    rw [hwaiting r hr w hw]
    exact Bool.noConfusion
  rcases hall r (hrest ▸ hr) with ⟨w, hw, -⟩ | ⟨x, hx, hxr⟩ | ⟨q, hq, w, hw, ha⟩ | ⟨w, hw, -⟩
  · exact hjobs w hw
  · exact hno r (List.mem_append_left _ (List.mem_flatMap.mpr ⟨x, hx, hxr⟩)) r.answers_self
  · exact hno w (List.mem_append_right _ (List.mem_flatMap.mpr ⟨q, hq, hw⟩)) ha
  · rw [htodo] at hw
    cases hw

/-- The worker takes a job that is no stop. -/
theorem Inv.take {c : EngineConfig} {s t : Sys} (h : Inv c s) (job : EngineJob)
    (rest : List EngineJob) (q : List Bool) (l : List Walk) (hw : s.worker = .waiting)
    (hj : s.jobs = job :: rest) (hstop : job ≠ .stop)
    (hl : ∀ w : Walk, job = .scan w.source w.subtree → w ∈ l)
    (hq : ∀ i, q.getD i false = true → s.queued.getD i false = true ∧ job ≠ .scan i none)
    (ht : t = { s with jobs := rest, queued := q, worker := .walking none l true }) :
    Inv c t := by
  subst ht
  have hne : s.worker ≠ .exited := by rw [hw]; exact Worker.noConfusion
  refine ⟨h.data, fun hs hr => h.unsent hs (hj ▸ List.mem_cons_of_mem _ hr), fun hs => ?_,
    fun i hi => ?_, h.apart, fun hx => Worker.noConfusion hx, ?_⟩
  · obtain ⟨hwatch, hlast⟩ := h.sent hs
    obtain ⟨k, hk, hnk⟩ := hlast hne
    refine ⟨hwatch, fun _ => ?_⟩
    rw [hj] at hk
    cases k with
    | nil => exact absurd (List.cons.inj hk).1 hstop
    | cons a k => exact ⟨k, (List.cons.inj hk).2, fun hm => hnk (List.mem_cons_of_mem _ hm)⟩
  · have := h.flags i (hq i hi).1
    rw [hj] at this
    exact (List.mem_cons.mp this).resolve_left fun he => (hq i hi).2 he.symm
  · refine h.held_of id (fun _ hall => ?_) fun hx => absurd hx hne
    refine Or.inr ⟨fun hx => Worker.noConfusion hx, fun _ r hr => ?_⟩
    have hr' : r ∈ s.rest := by
      rwa [rest_of_waiting hw]
    rcases hall r hr' with ⟨w, hw', ha⟩ | ⟨x, hx, hxr⟩ | hp | ⟨w, hw', -⟩
    · rw [hj] at hw'
      rcases List.mem_cons.mp hw' with he | hw'
      · exact Or.inr (Or.inr (Or.inr ⟨w, hl w he.symm, ha⟩))
      · exact Or.inl ⟨w, hw', ha⟩
    · exact Or.inr (Or.inl ⟨x, hx, hxr⟩)
    · exact Or.inr (Or.inr (Or.inl hp))
    · unfold todo at hw'
      rw [hw] at hw'
      cases hw'

theorem Inv.takeJob {c : EngineConfig} {s t : Sys} (h : Inv c s) (hm : Meets c s .takeJob)
    (hstep : s.step c .takeJob = some t) : Inv c t := by
  simp only [step] at hstep
  split at hstep
  case h_1 rest hw hj =>
    -- the stop: no job is behind it
    obtain rfl := Option.some.inj hstep
    have hne : s.worker ≠ .exited := by rw [hw]; exact Worker.noConfusion
    obtain ⟨hdrained, hwaiting⟩ := hm hw (by rw [hj]; rfl)
    have hs : s.sentStop = true := by
      by_contra hs
      exact h.unsent (by simpa using hs) (by rw [hj]; exact List.mem_cons_self)
    have hrest : rest = [] := by
      obtain ⟨l, hl, hnl⟩ := (h.sent hs).2 hne
      rw [hj] at hl
      cases l with
      | nil => exact (List.cons.inj hl).2
      | cons a l => exact absurd (by rw [← (List.cons.inj hl).1]; exact List.mem_cons_self) hnl
    subst hrest
    refine ⟨h.data, fun hs' _ => (by rw [hs] at hs'; cases hs'),
      fun hs => ⟨(h.sent hs).1, fun hx => absurd rfl hx⟩, fun i hi => ?_, h.apart,
      fun _ => hdrained, ?_⟩
    · have := h.flags i hi
      rw [hj, List.mem_singleton] at this
      cases this
    · refine h.held_of id (fun _ hall => ?_) fun hx => absurd hx hne
      rcases hwaiting with hseen | hwaiting
      · exact Or.inl hseen
      · refine Or.inr ⟨fun _ => ?_, fun hx => absurd rfl hx⟩
        refine owed_eq_nil (s := s) (fun w hw' => ?_) hwaiting ?_ ?_ hall
        · rw [hj, List.mem_singleton] at hw'
          cases hw'
        · unfold todo
          rw [hw]
        · exact rest_of_waiting hw
  case h_2 i subtree rest hw hj =>
    refine h.take (.scan i subtree) rest _ [⟨i, subtree⟩] hw hj (fun he => by cases he)
      (fun w he => ?_) (fun k hk => ?_) (Option.some.inj hstep).symm
    · obtain ⟨j, sub⟩ := w
      cases he
      exact List.mem_singleton.mpr rfl
    · cases subtree with
      | some p => exact ⟨by simpa using hk, fun he => by cases he⟩
      | none =>
        rw [if_pos rfl, List.getD_eq_getElem?_getD] at hk
        by_cases hik : i = k
        · rw [hik, List.getElem?_set_self'] at hk
          cases hs : s.queued[k]? <;> simp [hs] at hk
        · rw [List.getElem?_set_ne hik, ← List.getD_eq_getElem?_getD] at hk
          exact ⟨hk, fun he => hik (by cases he; rfl)⟩
  case h_3 rest hw hj =>
    exact h.take .maintain rest s.queued [] hw hj (fun he => by cases he) (fun w he => by cases he)
      (fun k hk => ⟨hk, fun he => by cases he⟩) (Option.some.inj hstep).symm
  case h_4 => cases hstep

theorem mem_rescans {batch : List Change} {x : Change} (hx : x ∈ batch) {c : EngineConfig}
    {r : Walk} (hr : r ∈ asks c x) : ∃ p ∈ rescans batch, Stands c (trimEnd p) r := by
  cases x with
  | rescan p => exact ⟨p, List.mem_filterMap.mpr ⟨_, hx, rfl⟩, r, hr, r.answers_self⟩
  | _ => cases hr

theorem Inv.takeChanges {c : EngineConfig} {s t : Sys} (h : Inv c s) (now : Nat)
    (hm : Meets c s (.takeChanges now)) (hstep : s.step c (.takeChanges now) = some t) :
    Inv c t := by
  simp only [step] at hstep
  split at hstep
  · rename_i hc
    obtain ⟨hw, -⟩ := hc
    obtain rfl := Option.some.inj hstep
    have hne : s.worker ≠ .exited := by rw [hw]; exact Worker.noConfusion
    have hsplit := List.take_append_drop BATCH s.changes
    refine ⟨?_, h.unsent, fun hs => ⟨(h.sent hs).1, fun _ => (h.sent hs).2 hne⟩, h.flags,
      addAll_apart now _ h.apart, fun hx => Worker.noConfusion hx, ?_⟩
    · show s.applied ++ (s.changes.take BATCH).filter isData ++ (s.changes.drop BATCH).filter isData =
        s.emitted.filter isData
      rw [List.append_assoc, ← List.filter_append, hsplit]
      exact h.data
    · refine h.held_of id (fun _ hall => ?_) fun hx => absurd hx hne
      rcases hm with hseen | hown
      · exact Or.inl hseen
      refine Or.inr ⟨fun hx => Worker.noConfusion hx, fun _ r hr => ?_⟩
      have hr' : r ∈ s.rest := by
        rwa [rest_of_waiting hw]
      -- what the batch asked for waits now, and so does what waited
      have hwait : ∀ p ∈ s.waitingPaths, Stands c p r →
          (∃ w : Walk, .scan w.source w.subtree ∈ s.jobs ∧ w.answers r = true) ∨
            (∃ change ∈ s.changes.drop BATCH, r ∈ asks c change) ∨
            ∃ q ∈ ((coalesce (rescans (s.changes.take BATCH))).foldl
              (fun w p => w.add p now) s.pending).paths, Stands c q r := by
        intro p hp hst
        rcases hown r (hr : r ∈ s.owed) p hp hst with ⟨q, hq, hst⟩ | hj | hx
        · exact Or.inr (Or.inr ⟨q, topmost_mem_taken now hq, hst⟩)
        · exact Or.inl hj
        · exact Or.inr (Or.inl hx)
      rcases hall r hr' with hj | ⟨x, hx, hxr⟩ | ⟨p, hp, hst⟩ | ⟨w, hw', -⟩
      · exact Or.inl hj
      · rw [← hsplit] at hx
        rcases List.mem_append.mp hx with hx | hx
        · obtain ⟨p, hp, hst⟩ := mem_rescans hx hxr
          exact (hwait _ (List.mem_append_right _ (List.mem_map_of_mem hp)) hst).imp id
            (Or.imp id Or.inl)
        · exact Or.inr (Or.inl ⟨x, hx, hxr⟩)
      · exact (hwait p (List.mem_append_left _ hp) hst).imp id (Or.imp id Or.inl)
      · unfold todo at hw'
        rw [hw] at hw'
        cases hw'
  · cases hstep

/-- The worker goes on with its turn. -/
theorem Inv.goOn {c : EngineConfig} {s t : Sys} (h : Inv c s) (b : Bool) (w : PendingWalks)
    (k : Worker) (o : List Walk) (hne : s.worker ≠ .exited) (hk : k ≠ .exited) (hw : w.Apart)
    (ht : t = { s with scanning := b, pending := w, worker := k, owed := o })
    (hall : s.seen = some true ∨
      ((∀ r ∈ s.rest, Holds c s r) → ∀ r ∈ t.rest, Holds c t r)) : Inv c t := by
  subst ht
  refine ⟨h.data, h.unsent, fun hs => ⟨(h.sent hs).1, fun _ => (h.sent hs).2 hne⟩, h.flags, hw,
    fun hx => absurd hx hk, h.held_of id (fun _ hin => ?_) fun hx => absurd hx hne⟩
  rcases hall with hseen | hall
  · exact Or.inl hseen
  · exact Or.inr ⟨fun hx => absurd hx hk, fun _ => hall hin⟩

theorem Inv.timeout {c : EngineConfig} {s t : Sys} (h : Inv c s)
    (hstep : s.step c .timeout = some t) : Inv c t := by
  simp only [step] at hstep
  split at hstep
  · rename_i hw
    refine h.goOn s.scanning s.pending (.walking none [] true) s.owed (by rw [hw]; exact Worker.noConfusion)
      Worker.noConfusion h.apart (Option.some.inj hstep).symm (Or.inr fun hall r hr => ?_)
    obtain rfl := Option.some.inj hstep
    refine (hall r ?_).mono (fun _ hw => hw) (fun _ hx => hx) (fun _ hq => hq) fun w hw' => ?_
    · rwa [rest_of_waiting hw]
    · unfold todo at hw'
      rw [hw] at hw'
      cases hw'
  · cases hstep

theorem Inv.takeDue {c : EngineConfig} {s t : Sys} (h : Inv c s) (now : Nat)
    (hstep : s.step c (.takeDue now) = some t) : Inv c t := by
  simp only [step] at hstep
  split at hstep
  · rename_i hw
    refine h.goOn s.scanning (s.pending.takeDue c.walkDebounce c.walkDebounceCap now).2
      (.walking none ((s.pending.takeDue c.walkDebounce c.walkDebounceCap now).1.flatMap c.walksOf)
        false) s.owed (by rw [hw]; exact Worker.noConfusion) Worker.noConfusion
      (h.apart.takeDue _ _ now) (Option.some.inj hstep).symm (Or.inr fun hall r hr => ?_)
    obtain rfl := Option.some.inj hstep
    have hr' : r ∈ s.rest := by
      rwa [rest_of_walking hw]
    rcases hall r hr' with hj | hc | ⟨q, hq, hst⟩ | ⟨w, hw', -⟩
    · exact Or.inl hj
    · exact Or.inr (Or.inl hc)
    · rcases PendingWalks.takeDue_keeps h.apart c.walkDebounce c.walkDebounceCap now q hq with hk | hk
      · exact Or.inr (Or.inr (Or.inl ⟨q, hk, hst⟩))
      · obtain ⟨w, hw', ha⟩ := hst
        exact Or.inr (Or.inr (Or.inr ⟨w, List.mem_flatMap.mpr ⟨q, hk, hw'⟩, ha⟩))
    · unfold todo at hw'
      rw [hw] at hw'
      cases hw'
  · cases hstep

theorem Inv.ownWalk {c : EngineConfig} {s t : Sys} (h : Inv c s) (i : Nat)
    (hstep : s.step c (.ownWalk i) = some t) : Inv c t := by
  simp only [step] at hstep
  split at hstep
  · rename_i hc
    obtain ⟨hw, -⟩ := hc
    refine h.goOn s.scanning s.pending (.walking none [⟨i, none⟩] false) s.owed
      (by rw [hw]; exact Worker.noConfusion) Worker.noConfusion h.apart
      (Option.some.inj hstep).symm (Or.inr fun hall r hr => ?_)
    obtain rfl := Option.some.inj hstep
    refine (hall r ?_).mono (fun _ hw => hw) (fun _ hx => hx) (fun _ hq => hq) fun w hw' => ?_
    · rwa [rest_of_walking hw]
    · unfold todo at hw'
      rw [hw] at hw'
      cases hw'
  · cases hstep

/-- A walk begins: what it answers is no longer waited for. -/
theorem Inv.begin {c : EngineConfig} {s t : Sys} (h : Inv c s)
    (hstep : s.step c .begin = some t) : Inv c t := by
  simp only [step] at hstep
  split at hstep
  case h_1 w l due hw =>
    refine h.goOn true s.pending (.walking (some (w, s.owed.filter w.answers)) l due) s.owed
      (by rw [hw]; exact Worker.noConfusion) Worker.noConfusion h.apart
      (Option.some.inj hstep).symm (Or.inr fun hall r hr => ?_)
    obtain rfl := Option.some.inj hstep
    have hr' : r ∈ s.owed.diff (s.owed.filter w.answers) := hr
    rw [mem_diff_iff] at hr'
    have hno : w.answers r = false := by
      by_contra ha
      rw [List.count_filter (by simpa using ha)] at hr'
      exact lt_irrefl _ hr'
    have howed : r ∈ s.rest := by
      rw [rest_of_walking hw]
      exact List.count_pos_iff.mp (by omega)
    rcases hall r howed with hj | hc | hp | ⟨w', hw', ha⟩
    · exact Or.inl hj
    · exact Or.inr (Or.inl hc)
    · exact Or.inr (Or.inr (Or.inl hp))
    · unfold todo at hw'
      rw [hw] at hw'
      rcases List.mem_cons.mp hw' with rfl | hw'
      · rw [hno] at ha
        cases ha
      · exact Or.inr (Or.inr (Or.inr ⟨w', hw', ha⟩))
  case h_2 => cases hstep

/-- A walk ends: what it had answered when it began is owed no more. -/
theorem Inv.finish {c : EngineConfig} {s t : Sys} (h : Inv c s) (cut : Bool)
    (hm : Meets c s (.finish cut)) (hstep : s.step c (.finish cut) = some t) : Inv c t := by
  simp only [step] at hstep
  split at hstep
  case h_1 w made l due hw =>
    split at hstep
    · cases hstep
    · refine h.goOn false s.pending (.walking none l due) (if cut then s.owed else s.owed.diff made)
        (by rw [hw]; exact Worker.noConfusion) Worker.noConfusion h.apart
        (Option.some.inj hstep).symm ?_
      obtain rfl := Option.some.inj hstep
      have hrest : s.rest = s.owed.diff made := by
        unfold rest
        rw [hw]
      have htodo : s.todo = l := by
        unfold todo
        rw [hw]
      have hgo : ∀ r ∈ (if cut then s.owed else s.owed.diff made), Holds c s r → Holds c { s with
            scanning := false
            owed := if cut then s.owed else s.owed.diff made
            worker := .walking none l due } r := by
        intro r _ hr
        refine hr.mono (fun _ hw => hw) (fun _ hx => hx) (fun _ hq => hq) fun w hw' => ?_
        rw [htodo] at hw'
        exact hw'
      cases cut with
      | false => exact Or.inr fun hall r hr => hgo r hr (hall r (hrest ▸ hr))
      | true =>
        refine (hm w made l due hw rfl).imp id fun hmade hall r hr => hgo r hr ?_
        by_cases hr' : r ∈ s.rest
        · exact hall r hr'
        · rw [hrest, mem_diff_iff] at hr'
          refine hmade r (List.count_pos_iff.mp ?_)
          have : 0 < s.owed.count r := List.count_pos_iff.mpr hr
          omega
  case h_2 => cases hstep

theorem Inv.endTurn {c : EngineConfig} {s t : Sys} (h : Inv c s) (hm : Meets c s .endTurn)
    (hstep : s.step c .endTurn = some t) : Inv c t := by
  simp only [step] at hstep
  split at hstep
  · rename_i hw
    have hne : s.worker ≠ .exited := by rw [hw]; exact Worker.noConfusion
    have htodo : s.todo = [] := by
      unfold todo
      rw [hw]
    split at hstep
    · rename_i hc
      obtain ⟨hstop, hj, hx⟩ := hc
      rw [List.isEmpty_iff] at hj hx
      obtain rfl := Option.some.inj hstep
      refine ⟨h.data, h.unsent, fun hs => ⟨(h.sent hs).1, fun hx => absurd rfl hx⟩, h.flags,
        h.apart, fun _ => by show s.changes.filter isData = []; rw [hx]; rfl,
        h.held_of id (fun _ hall => ?_) fun hx => absurd hx hne⟩
      rcases hm hstop hj hx with hseen | hwaiting
      · exact Or.inl hseen
      · refine Or.inr ⟨fun _ => ?_, fun hx => absurd rfl hx⟩
        refine owed_eq_nil (s := s) (fun w hw' => ?_) hwaiting htodo (rest_of_walking hw) hall
        rw [hj] at hw'
        cases hw'
    · refine h.goOn s.scanning s.pending .waiting s.owed hne Worker.noConfusion h.apart
        (Option.some.inj hstep).symm (Or.inr fun hall r hr => ?_)
      obtain rfl := Option.some.inj hstep
      refine (hall r ?_).mono (fun _ hw => hw) (fun _ hx => hx) (fun _ hq => hq) fun w hw' => ?_
      · rwa [rest_of_walking hw]
      · rw [htodo] at hw'
        cases hw'
  · cases hstep

/-- One move that meets the condition keeps the invariant. -/
theorem Inv.step {c : EngineConfig} {s t : Sys} (h : Inv c s) (a : Action) (hm : Meets c s a)
    (hstep : s.step c a = some t) : Inv c t := by
  cases a with
  | emit change => exact h.emit change hm hstep
  | askWhole i => exact h.askWhole i hstep
  | askSubtree path => exact h.askSubtree path hstep
  | askMaintain => exact h.askMaintain hstep
  | see => exact h.see hstep
  | setStop => exact h.setStop hstep
  | stopWatches => exact h.stopWatches hstep
  | sendStop => exact h.sendStop hstep
  | takeJob => exact h.takeJob hm hstep
  | takeChanges now => exact h.takeChanges now hm hstep
  | timeout => exact h.timeout hstep
  | takeDue now => exact h.takeDue now hstep
  | ownWalk i => exact h.ownWalk i hstep
  | begin => exact h.begin hstep
  | finish cut => exact h.finish cut hm hstep
  | endTurn => exact h.endTurn hm hstep

/-! ## Whole runs -/

/-- A run whose moves all meet the condition. -/
inductive MeetsRun (c : EngineConfig) : Sys → Sys → Prop where
  | nil (s : Sys) : MeetsRun c s s
  | cons {s t u : Sys} (a : Action) : MeetsRun c s t → Meets c t a → t.step c a = some u →
      MeetsRun c s u

theorem MeetsRun.inv {c : EngineConfig} {s t : Sys} (h : MeetsRun c s t) (hs : Inv c s) :
    Inv c t := by
  induction h with
  | nil => exact hs
  | cons a _ hm hstep ih => exact ih.step a hm hstep

/-- A shutdown that returns has lost nothing, in every run whose moves all meet the condition. -/
theorem run_nothingLost (c : EngineConfig) (s : Sys) (h : MeetsRun c (init c) s)
    (hr : s.returned) : s.NothingLost := by
  obtain ⟨-, hw⟩ := hr
  have hinv := h.inv (inv_init c)
  refine ⟨?_, ?_⟩
  · have := hinv.data
    rwa [hinv.drained hw, List.append_nil] at this
  · exact hinv.held.symm.imp (fun hs => hs.1 hw) id

/-- One change, and the worker takes it and ends its turn before the stop is sent. -/
theorem run_nothingLost_once : ∃ s, MeetsRun ⟨[[[slash]]], 5, 9⟩ (init ⟨[[[slash]]], 5, 9⟩) s ∧
    s.returned ∧ s.NothingLost ∧ s.applied = [.removeSubtree ⟨[slash, 97], by decide⟩] := by
  have h₁ := MeetsRun.cons (.emit (.removeSubtree ⟨[slash, 97], by decide⟩))
    (.nil (c := ⟨[[[slash]]], 5, 9⟩) (init ⟨[[[slash]]], 5, 9⟩)) (Or.inl Worker.noConfusion) rfl
  have h₂ := MeetsRun.cons (.takeChanges 0) h₁ (Or.inr fun r hr => by cases hr) rfl
  have h₃ := MeetsRun.cons (.takeDue 0) h₂ trivial rfl
  have h₄ := MeetsRun.cons .endTurn h₃ (fun hs => by cases hs) rfl
  have h₅ := MeetsRun.cons .see h₄ trivial rfl
  have h₆ := MeetsRun.cons .setStop h₅ trivial rfl
  have h₇ := MeetsRun.cons .stopWatches h₆ trivial rfl
  have h₈ := MeetsRun.cons .sendStop h₇ trivial rfl
  have h₉ := MeetsRun.cons .takeJob h₈ (fun _ _ => ⟨rfl, Or.inr fun r hr => by cases hr⟩) rfl
  exact ⟨_, h₉, ⟨rfl, rfl⟩, run_nothingLost _ _ h₉ ⟨rfl, rfl⟩, rfl⟩

/-- The stop is taken while a change is queued, and the change is lost. -/
theorem not_nothingLost : ¬ ∀ (c : EngineConfig) (s : Sys), Run c (init c) s → s.returned →
    s.NothingLost := by
  intro h
  have h₁ := Run.cons (.emit (.removeSubtree ⟨[slash, 97], by decide⟩))
    (.nil (c := ⟨[[[slash]]], 5, 9⟩) (init ⟨[[[slash]]], 5, 9⟩)) rfl
  have h₂ := Run.cons .see h₁ rfl
  have h₃ := Run.cons .setStop h₂ rfl
  have h₄ := Run.cons .stopWatches h₃ rfl
  have h₅ := Run.cons .sendStop h₄ rfl
  have h₆ := Run.cons .takeJob h₅ rfl
  have hlost := (h _ _ h₆ ⟨rfl, rfl⟩).1
  cases hlost

end Sys

end Scour
