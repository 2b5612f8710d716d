import Scour.Lib.Top

/-!
# A window of a sorted list, by selection

Sorting that may leave equal elements in any order (`Unstable`), and the window `offset ..` of a
page of a list cut out with it: select the last of the page, cut, select what stands in front of the
window, and sort only the window.
-/

namespace Search

variable {α : Type}

/-- Not after, by a comparison. -/
abbrev CmpLe (cmp : α → α → Ordering) (a b : α) : Prop := cmp a b ≠ .gt

/-- A comparison by which a list can be sorted. -/
structure Compares (cmp : α → α → Ordering) (l : List α) : Prop where
  total : ∀ a ∈ l, ∀ b ∈ l, CmpLe cmp a b ∨ CmpLe cmp b a
  trans : ∀ a ∈ l, ∀ b ∈ l, ∀ c ∈ l, CmpLe cmp a b → CmpLe cmp b c → CmpLe cmp a c

/-- `sort_unstable_by` and `select_nth_unstable_by`: whatever they do, this much is promised. -/
structure Unstable (α : Type) where
  sort : (α → α → Ordering) → List α → List α
  select : (α → α → Ordering) → Nat → List α → List α
  sort_perm : ∀ cmp l, (sort cmp l).Perm l
  sorted : ∀ cmp l, Compares cmp l → (sort cmp l).Pairwise (CmpLe cmp)
  select_perm : ∀ cmp n l, (select cmp n l).Perm l
  parts : ∀ cmp n l, Compares cmp l → ∀ a ∈ (select cmp n l).take (n + 1),
    ∀ b ∈ (select cmp n l).drop (n + 1), CmpLe cmp a b

/-- The window of a page: the elements from `offset` on of the first `offset + limit`. -/
def Unstable.window (u : Unstable α) (cmp : α → α → Ordering) (pool : List α)
    (offset limit : Nat) : List α :=
  let stop := min (offset + limit) pool.length
  let pool := if stop < pool.length ∧ 0 < stop then (u.select cmp (stop - 1) pool).take stop else pool
  let start := min offset pool.length
  let pool := if 0 < start ∧ start < pool.length then u.select cmp (start - 1) pool else pool
  (u.sort cmp (pool.drop start)).take limit

/-- Within a list it can sort, a comparison sorts. -/
theorem Compares.pairwise {cmp : α → α → Ordering} {l : List α} (h : Compares cmp l) :
    (l.insertionSort (CmpLe cmp)).Pairwise (CmpLe cmp) := by
  let r' : {x // x ∈ l} → {x // x ∈ l} → Prop := fun a b => CmpLe cmp a.1 b.1
  have : Std.Total r' := ⟨fun a b => h.total a.1 a.2 b.1 b.2⟩
  have : IsTrans _ r' := ⟨fun a b c => h.trans a.1 a.2 b.1 b.2 c.1 c.2⟩
  have : DecidableRel r' := fun a b => inferInstanceAs (Decidable (CmpLe cmp a.1 b.1))
  have hmap := List.map_insertionSort (r := r') (s := CmpLe cmp) Subtype.val l.attach
    fun _ _ _ _ => Iff.rfl
  rw [List.attach_map_subtype_val] at hmap
  rw [← hmap, List.pairwise_map]
  exact List.pairwise_insertionSort r' l.attach

/-- A stable sort is one that may be unstable. -/
def Unstable.stable (α : Type) : Unstable α where
  sort cmp l := l.insertionSort (CmpLe cmp)
  select cmp _ l := l.insertionSort (CmpLe cmp)
  sort_perm cmp l := List.perm_insertionSort _ l
  sorted _ _ h := h.pairwise
  select_perm cmp _ l := List.perm_insertionSort _ l
  parts cmp n l h := by
    have hsorted := h.pairwise
    rw [← List.take_append_drop (n + 1) (l.insertionSort (CmpLe cmp))] at hsorted
    exact (List.pairwise_append.mp hsorted).2.2

end Search
