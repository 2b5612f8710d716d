import Mathlib.Data.List.Perm.Basic

/-!
# Merging several lists by their heads

`mergeHeads le` repeatedly emits the least head.  Whatever the order does, what is emitted is what
was there (`mergeHeads_perm`); lists in order are merged in order (`mergeHeads_pairwise`).
-/

namespace Search

variable {α : Type} (le : α → α → Bool)

/-- The least head, and the lists without it. -/
def popLeast : List (List α) → Option (α × List (List α))
  | [] => none
  | xs :: rest =>
      match xs, popLeast rest with
      | [], none => none
      | [], some (y, rest') => some (y, [] :: rest')
      | x :: xt, none => some (x, xt :: rest)
      | x :: xt, some (y, rest') =>
          if le x y then some (x, xt :: rest) else some (y, (x :: xt) :: rest')

/-- The loop, `fuel` bounding what it emits. -/
def mergeFrom : Nat → List (List α) → List α
  | 0, _ => []
  | fuel + 1, lists =>
      match popLeast le lists with
      | none => []
      | some (x, lists) => x :: mergeFrom fuel lists

def mergeHeads (lists : List (List α)) : List α := mergeFrom le lists.flatten.length lists

theorem popLeast_none {lists : List (List α)} (h : popLeast le lists = none) :
    lists.flatten = [] := by
  induction lists with
  | nil => rfl
  | cons xs rest ih =>
    unfold popLeast at h
    cases xs with
    | nil =>
      cases hr : popLeast le rest with
      | none => simpa using ih hr
      | some p => simp [hr] at h
    | cons x xt =>
      cases hr : popLeast le rest with
      | none => simp [hr] at h
      | some p =>
        simp only [hr] at h
        split at h <;> cases h

theorem popLeast_some {x : α} {lists lists' : List (List α)}
    (h : popLeast le lists = some (x, lists')) : lists.flatten.Perm (x :: lists'.flatten) := by
  induction lists generalizing x lists' with
  | nil => cases h
  | cons xs rest ih =>
    unfold popLeast at h
    cases xs with
    | nil =>
      cases hr : popLeast le rest with
      | none => simp [hr] at h
      | some p =>
        obtain ⟨y, rest'⟩ := p
        simp only [hr, Option.some.injEq, Prod.mk.injEq] at h
        obtain ⟨rfl, rfl⟩ := h
        simpa using ih hr
    | cons a xt =>
      cases hr : popLeast le rest with
      | none =>
        simp only [hr, Option.some.injEq, Prod.mk.injEq] at h
        obtain ⟨rfl, rfl⟩ := h
        exact List.Perm.refl _
      | some p =>
        obtain ⟨y, rest'⟩ := p
        simp only [hr] at h
        split at h
        · simp only [Option.some.injEq, Prod.mk.injEq] at h
          obtain ⟨rfl, rfl⟩ := h
          exact List.Perm.refl _
        · simp only [Option.some.injEq, Prod.mk.injEq] at h
          obtain ⟨rfl, rfl⟩ := h
          have hp := (ih hr).append_left (a :: xt)
          exact hp.trans List.perm_middle

/-- Nothing is emitted that was not there. -/
theorem mergeFrom_subset (fuel : Nat) : ∀ lists : List (List α),
    mergeFrom le fuel lists ⊆ lists.flatten := by
  induction fuel with
  | zero => exact fun _ => List.nil_subset _
  | succ fuel ih =>
    intro lists
    unfold mergeFrom
    cases hp : popLeast le lists with
    | none => exact List.nil_subset _
    | some p =>
      obtain ⟨x, rest⟩ := p
      refine fun y hy => (popLeast_some le hp).mem_iff.mpr ?_
      rcases List.mem_cons.mp hy with rfl | hy
      · exact List.mem_cons_self
      · exact List.mem_cons_of_mem _ (ih rest hy)

theorem mergeFrom_perm (fuel : Nat) :
    ∀ lists : List (List α), lists.flatten.length ≤ fuel →
      (mergeFrom le fuel lists).Perm lists.flatten := by
  induction fuel with
  | zero =>
    intro lists h
    rw [List.length_eq_zero_iff.mp (Nat.le_zero.mp h)]
    exact List.Perm.refl _
  | succ fuel ih =>
    intro lists h
    unfold mergeFrom
    cases hp : popLeast le lists with
    | none => rw [popLeast_none le hp]
    | some p =>
      obtain ⟨x, rest⟩ := p
      have hperm := popLeast_some le hp
      have hlen := hperm.length_eq
      simp only [List.length_cons] at hlen
      exact ((ih rest (by omega)).cons x).trans hperm.symm

theorem mergeHeads_perm (lists : List (List α)) : (mergeHeads le lists).Perm lists.flatten :=
  mergeFrom_perm le _ lists (Nat.le_refl _)

section
variable {le} (total : ∀ a b, le a b = true ∨ le b a = true)
  (trans : ∀ a b c, le a b = true → le b c = true → le a c = true)
include total trans

/-- What is popped is before everything that is left, and the lists stay in order. -/
theorem popLeast_least {x : α} {lists lists' : List (List α)}
    (h : popLeast le lists = some (x, lists'))
    (hsorted : ∀ xs ∈ lists, xs.Pairwise fun a b => le a b = true) :
    (∀ y ∈ lists'.flatten, le x y = true) ∧
      ∀ xs ∈ lists', xs.Pairwise fun a b => le a b = true := by
  induction lists generalizing x lists' with
  | nil => cases h
  | cons xs rest ih =>
    have hrest : ∀ ys ∈ rest, ys.Pairwise fun a b => le a b = true :=
      fun ys hys => hsorted ys (List.mem_cons_of_mem _ hys)
    have hxs := hsorted xs List.mem_cons_self
    unfold popLeast at h
    cases xs with
    | nil =>
      cases hr : popLeast le rest with
      | none => simp [hr] at h
      | some p =>
        obtain ⟨y, rest'⟩ := p
        simp only [hr, Option.some.injEq, Prod.mk.injEq] at h
        obtain ⟨rfl, rfl⟩ := h
        obtain ⟨hleast, hkept⟩ := ih hr hrest
        refine ⟨fun z hz => hleast z (by simpa using hz), fun ys hys => ?_⟩
        rcases List.mem_cons.mp hys with rfl | hys
        · exact List.Pairwise.nil
        · exact hkept ys hys
    | cons a xt =>
      obtain ⟨ha, hxt⟩ := List.pairwise_cons.mp hxs
      cases hr : popLeast le rest with
      | none =>
        simp only [hr, Option.some.injEq, Prod.mk.injEq] at h
        obtain ⟨rfl, rfl⟩ := h
        refine ⟨fun z hz => ?_, fun ys hys => ?_⟩
        · rw [List.flatten_cons, popLeast_none le hr, List.append_nil] at hz
          exact ha z hz
        · rcases List.mem_cons.mp hys with rfl | hys
          · exact hxt
          · exact hrest ys hys
      | some p =>
        obtain ⟨y, rest'⟩ := p
        obtain ⟨hleast, hkept⟩ := ih hr hrest
        simp only [hr] at h
        split at h
        · rename_i hle
          simp only [Option.some.injEq, Prod.mk.injEq] at h
          obtain ⟨rfl, rfl⟩ := h
          refine ⟨fun z hz => ?_, fun ys hys => ?_⟩
          · rcases List.mem_append.mp (List.flatten_cons ▸ hz) with hz | hz
            · exact ha z hz
            · rcases List.mem_cons.mp ((popLeast_some le hr).mem_iff.mp hz) with rfl | hz
              · exact hle
              · exact trans _ _ _ hle (hleast z hz)
          · rcases List.mem_cons.mp hys with rfl | hys
            · exact hxt
            · exact hrest ys hys
        · rename_i hle
          simp only [Option.some.injEq, Prod.mk.injEq] at h
          obtain ⟨rfl, rfl⟩ := h
          have hya : le y a = true := (total a y).resolve_left hle
          refine ⟨fun z hz => ?_, fun ys hys => ?_⟩
          · rcases List.mem_append.mp (List.flatten_cons ▸ hz) with hz | hz
            · rcases List.mem_cons.mp hz with rfl | hz
              · exact hya
              · exact trans _ _ _ hya (ha z hz)
            · exact hleast z hz
          · rcases List.mem_cons.mp hys with rfl | hys
            · exact hxs
            · exact hkept ys hys

theorem mergeFrom_pairwise (fuel : Nat) : ∀ lists : List (List α),
    (∀ xs ∈ lists, xs.Pairwise fun a b => le a b = true) →
      (mergeFrom le fuel lists).Pairwise fun a b => le a b = true := by
  induction fuel with
  | zero => exact fun _ _ => List.Pairwise.nil
  | succ fuel ih =>
    intro lists hsorted
    unfold mergeFrom
    cases hp : popLeast le lists with
    | none => exact List.Pairwise.nil
    | some p =>
      obtain ⟨x, rest⟩ := p
      obtain ⟨hleast, hkept⟩ := popLeast_least total trans hp hsorted
      refine List.pairwise_cons.mpr ⟨fun y hy => hleast y ?_, ih rest hkept⟩
      exact mergeFrom_subset le fuel rest hy

/-- Lists in order are merged in order. -/
theorem mergeHeads_pairwise {lists : List (List α)}
    (hsorted : ∀ xs ∈ lists, xs.Pairwise fun a b => le a b = true) :
    (mergeHeads le lists).Pairwise fun a b => le a b = true :=
  mergeFrom_pairwise total trans _ lists hsorted

end

end Search
