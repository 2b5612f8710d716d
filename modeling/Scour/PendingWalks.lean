import Scour.PrefixSet

/-!
# Walks asked for and not run yet

`PendingWalks` of the engine: each path waits for its neighbours, with when it was first and last
asked for.  An `Instant` is a number here.

No path waits beside another that covers it (`Apart`), and nothing that waits is dropped: adding a
path leaves each of the others waiting or covered by the new one (`add_keeps`), and `takeDue` hands
out what it takes away (`takeDue_keeps`).
-/

namespace Scour

/-- Reduce a set of requested walks to the ones not already covered. -/
def coalesce (paths : List Str) : List Str := (PrefixSet.new paths).paths

structure PendingWalks where
  /-- Path, first asked, last asked. -/
  at_ : List (Str × Nat × Nat)
deriving DecidableEq

namespace PendingWalks

def empty : PendingWalks := ⟨[]⟩

def paths (w : PendingWalks) : List Str := w.at_.map (·.1)

/-- Refresh the clock of the first waiting walk that covers `path`. -/
def refresh (path : Str) (now : Nat) : List (Str × Nat × Nat) → List (Str × Nat × Nat)
  | [] => []
  | e :: rest => if under path e.1 then (e.1, e.2.1, now) :: rest else e :: refresh path now rest

/-- Note that `path` wants walking, merging it with what is already waiting. -/
def add (w : PendingWalks) (path : Str) (now : Nat) : PendingWalks :=
  let path := trimEnd path
  if path.isEmpty then ⟨[([], now, now)]⟩
  else if w.at_.any fun e => under path e.1 then ⟨refresh path now w.at_⟩
  else
    -- the earliest first-asked of what this path covers comes with it
    let first := ((w.at_.filter fun e => under e.1 path).map (·.2.1)).foldl min now
    ⟨(w.at_.filter fun e => !under e.1 path) ++ [(path, first, now)]⟩

/-- Quiet for `debounce`, or waiting since `cap` ago, whichever comes first. -/
def dueAt (debounce cap : Nat) (e : Str × Nat × Nat) : Nat :=
  -- "I lost track" does not wait
  if e.1.isEmpty then e.2.1 else min (e.2.2 + debounce) (e.2.1 + cap)

/-- Take the walks that have waited long enough, reduced. -/
def takeDue (w : PendingWalks) (debounce cap now : Nat) : List Str × PendingWalks :=
  let due := (w.at_.filter fun e => dueAt debounce cap e ≤ now).map (·.1)
  let rest := w.at_.filter fun e => !(dueAt debounce cap e ≤ now : Bool)
  if due.isEmpty then ([], ⟨rest⟩)
  else (coalesce due, ⟨rest.filter fun e => !due.any fun d => under e.1 d⟩)

example : (((empty.add [47, 97, 47, 98] 0).add [47, 97] 1).takeDue 5 9 6).1 = [[47, 97]] := by decide

/-! ## Nothing waits twice -/

/-- No waiting path is covered by another, and none ends with a separator. -/
structure Apart (w : PendingWalks) : Prop where
  trimmed : ∀ p ∈ w.paths, trimEnd p = p
  apart : ∀ p ∈ w.paths, ∀ q ∈ w.paths, under p q = true → p = q

theorem apart_empty : empty.Apart := ⟨by simp [paths, empty], by simp [paths, empty]⟩

theorem paths_refresh (path : Str) (now : Nat) (l : List (Str × Nat × Nat)) :
    (refresh path now l).map (·.1) = l.map (·.1) := by
  induction l with
  | nil => rfl
  | cons e l ih =>
    unfold refresh
    split
    · rfl
    · rw [List.map_cons, List.map_cons, ih]

/-- The three ways a path is added. -/
theorem add_paths (w : PendingWalks) (path : Str) (now : Nat) :
    (trimEnd path = [] ∧ (w.add path now).paths = [[]]) ∨
      (trimEnd path ≠ [] ∧ (∃ q ∈ w.paths, under (trimEnd path) q = true) ∧
        (w.add path now).paths = w.paths) ∨
      (trimEnd path ≠ [] ∧ (∀ q ∈ w.paths, under (trimEnd path) q = false) ∧
        (w.add path now).paths =
          (w.paths.filter fun p => !under p (trimEnd path)) ++ [trimEnd path]) := by
  unfold add
  simp only
  by_cases hp : trimEnd path = []
  · left
    rw [if_pos (by rw [hp]; rfl)]
    exact ⟨hp, rfl⟩
  · right
    rw [if_neg (by simpa using hp)]
    by_cases hany : (w.at_.any fun e => under (trimEnd path) e.1) = true
    · left
      rw [if_pos hany]
      refine ⟨hp, ?_, paths_refresh _ _ _⟩
      obtain ⟨e, he, hu⟩ := List.any_eq_true.mp hany
      exact ⟨e.1, List.mem_map.mpr ⟨e, he, rfl⟩, hu⟩
    · right
      rw [if_neg hany]
      refine ⟨hp, fun q hq => ?_, ?_⟩
      · obtain ⟨e, he, rfl⟩ := List.mem_map.mp hq
        rw [Bool.not_eq_true, List.any_eq_false] at hany
        simpa using hany e he
      · simp only [paths, List.map_append, List.map_cons, List.map_nil]
        rw [List.filter_map]
        rfl

theorem Apart.add {w : PendingWalks} (h : w.Apart) (path : Str) (now : Nat) :
    (w.add path now).Apart := by
  rcases w.add_paths path now with ⟨-, he⟩ | ⟨-, -, he⟩ | ⟨-, hno, he⟩
  · refine ⟨fun p hp => ?_, fun p hp q hq _ => ?_⟩
    · rw [he, List.mem_singleton] at hp
      rw [hp]
      rfl
    · rw [he, List.mem_singleton] at hp hq
      rw [hp, hq]
  · exact ⟨fun p hp => h.trimmed p (he ▸ hp), fun p hp q hq => h.apart p (he ▸ hp) q (he ▸ hq)⟩
  · have hmem : ∀ p, p ∈ (w.add path now).paths ↔
        (p ∈ w.paths ∧ under p (trimEnd path) = false) ∨ p = trimEnd path := by
      intro p
      rw [he, List.mem_append, List.mem_filter, List.mem_singleton, Bool.not_eq_true']
    refine ⟨fun p hp => ?_, fun p hp q hq hu => ?_⟩
    · rcases (hmem p).mp hp with hp | rfl
      · exact h.trimmed p hp.1
      · exact trimEnd_trimEnd path
    · rcases (hmem p).mp hp with hp | rfl
      · rcases (hmem q).mp hq with hq | rfl
        · exact h.apart p hp.1 q hq.1 hu
        · rw [hp.2] at hu
          cases hu
      · rcases (hmem q).mp hq with hq | rfl
        · rw [hno q hq.1] at hu
          cases hu
        · rfl

/-- What waits goes on waiting, or the new path covers it. -/
theorem add_keeps (w : PendingWalks) (path : Str) (now : Nat) (p : Str) (hp : p ∈ w.paths) :
    p ∈ (w.add path now).paths ∨
      (trimEnd path ∈ (w.add path now).paths ∧ under p (trimEnd path) = true) := by
  rcases w.add_paths path now with ⟨ht, he⟩ | ⟨-, -, he⟩ | ⟨-, -, he⟩
  · right
    rw [he, ht]
    exact ⟨List.mem_singleton.mpr rfl, rfl⟩
  · left
    rwa [he]
  · rw [he, List.mem_append, List.mem_filter, Bool.not_eq_true']
    cases hu : under p (trimEnd path) with
    | true => exact Or.inr ⟨List.mem_append_right _ (List.mem_singleton.mpr rfl), rfl⟩
    | false => exact Or.inl (Or.inl ⟨hp, rfl⟩)

/-- The new path waits, or is covered by what waited already. -/
theorem add_covers (w : PendingWalks) (path : Str) (now : Nat) :
    trimEnd path ∈ (w.add path now).paths ∨
      ∃ q ∈ w.paths, q ∈ (w.add path now).paths ∧ under (trimEnd path) q = true := by
  rcases w.add_paths path now with ⟨ht, he⟩ | ⟨-, ⟨q, hq, hu⟩, he⟩ | ⟨-, -, he⟩
  · left
    rw [he, ht]
    exact List.mem_singleton.mpr rfl
  · right
    exact ⟨q, hq, he ▸ hq, hu⟩
  · left
    rw [he]
    exact List.mem_append_right _ (List.mem_singleton.mpr rfl)

theorem takeDue_rest_sublist (w : PendingWalks) (debounce cap now : Nat) :
    (w.takeDue debounce cap now).2.paths.Sublist w.paths := by
  unfold takeDue
  simp only
  split
  · exact List.filter_sublist.map _
  · exact (List.filter_sublist.trans List.filter_sublist).map _

theorem Apart.takeDue {w : PendingWalks} (h : w.Apart) (debounce cap now : Nat) :
    (w.takeDue debounce cap now).2.Apart := by
  have hsub := (w.takeDue_rest_sublist debounce cap now).subset
  exact ⟨fun p hp => h.trimmed p (hsub hp), fun p hp q hq => h.apart p (hsub hp) q (hsub hq)⟩

/-- What waits goes on waiting, or is handed out. -/
theorem takeDue_keeps {w : PendingWalks} (h : w.Apart) (debounce cap now : Nat) (p : Str)
    (hp : p ∈ w.paths) :
    p ∈ (w.takeDue debounce cap now).2.paths ∨ p ∈ (w.takeDue debounce cap now).1 := by
  obtain ⟨e, he, rfl⟩ := List.mem_map.mp hp
  have hduemem : ∀ d, d ∈ (w.at_.filter fun e => decide (dueAt debounce cap e ≤ now)).map (·.1) →
      d ∈ w.paths := by
    intro d hd
    obtain ⟨e', he', rfl⟩ := List.mem_map.mp hd
    exact List.mem_map.mpr ⟨e', (List.mem_filter.mp he').1, rfl⟩
  -- a due path that covers another waiting path is that path
  have hcover : ∀ d ∈ (w.at_.filter fun e => decide (dueAt debounce cap e ≤ now)).map (·.1),
      under e.1 d = true → e.1 ∈ coalesce
        ((w.at_.filter fun e => decide (dueAt debounce cap e ≤ now)).map (·.1)) := by
    intro d hd hu
    obtain rfl := h.apart e.1 hp d (hduemem d hd) hu
    obtain ⟨h1, h2⟩ := reduce_spec
      ((w.at_.filter fun e => decide (dueAt debounce cap e ≤ now)).map (·.1))
    obtain ⟨k, hk, huk⟩ := h2 e.1 hd
    obtain ⟨q, hq, rfl⟩ := h1 k hk
    rw [h.trimmed e.1 hp, h.trimmed q (hduemem q hq)] at huk
    rw [h.trimmed q (hduemem q hq)] at hk
    obtain rfl := h.apart e.1 hp q (hduemem q hq) huk
    exact hk
  unfold takeDue
  simp only
  by_cases hdue : dueAt debounce cap e ≤ now
  · right
    have hmem : e.1 ∈ (w.at_.filter fun e => decide (dueAt debounce cap e ≤ now)).map (·.1) :=
      List.mem_map.mpr ⟨e, List.mem_filter.mpr ⟨he, by simpa using hdue⟩, rfl⟩
    rw [if_neg (by rw [List.isEmpty_iff]; exact List.ne_nil_of_mem hmem)]
    exact hcover e.1 hmem (under_refl e.1)
  · have hrest : e ∈ w.at_.filter fun e => !(dueAt debounce cap e ≤ now : Bool) :=
      List.mem_filter.mpr ⟨he, by simpa using hdue⟩
    split
    · exact Or.inl (List.mem_map.mpr ⟨e, hrest, rfl⟩)
    · by_cases hany : (((w.at_.filter fun e => decide (dueAt debounce cap e ≤ now)).map (·.1)).any
          fun d => under e.1 d) = true
      · right
        obtain ⟨d, hd, hu⟩ := List.any_eq_true.mp hany
        exact hcover d hd hu
      · left
        refine List.mem_map.mpr ⟨e, List.mem_filter.mpr ⟨hrest, ?_⟩, rfl⟩
        simpa using hany

end PendingWalks

end Scour
