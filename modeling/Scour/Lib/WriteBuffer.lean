import Mathlib.Data.Set.Image

/-!
# A store behind a write buffer

Entries wait in a buffer, keys wait to be removed, and a store holds the rest.  `view` is what the
three stand for: what is staged, and what is held at other keys, less what is to be removed.  A
write and a removal move the view as they would move a plain table (`view_put`, `view_hide`); the
steps of a flush and of a flush undone leave it where it is (`view_purge`, `view_supersede`,
`view_lift`, `view_restore`).
-/

namespace Search

variable {κ ε : Type} (key : ε → κ)

/-- A table with one more entry, over the one at its key. -/
def writeTo (e : ε) (table : Set ε) : Set ε := {x | x = e ∨ (x ∈ table ∧ key x ≠ key e)}

/-- A table without some of its keys. -/
def removeFrom (keys : Set κ) (table : Set ε) : Set ε := {x | x ∈ table ∧ key x ∉ keys}

structure Buffered (κ ε : Type) where
  held : Set ε
  staged : Set ε
  hidden : Set κ

namespace Buffered

def view (b : Buffered κ ε) : Set ε :=
  {x | key x ∉ b.hidden ∧ (x ∈ b.staged ∨ (x ∈ b.held ∧ ∀ s ∈ b.staged, key s ≠ key x))}

variable {key} {b b' : Buffered κ ε}

/-- A write, when its key stays visible and no other entry's visibility moves with it. -/
theorem view_put (e : ε) (hheld : b'.held = b.held)
    (hstaged : ∀ x, x ∈ b'.staged ↔ x = e ∨ (x ∈ b.staged ∧ key x ≠ key e))
    (hkept : key e ∉ b'.hidden)
    (hothers : ∀ x, x ∈ b.staged ∨ x ∈ b.held → key x ≠ key e →
      (key x ∈ b'.hidden ↔ key x ∈ b.hidden)) :
    b'.view key = writeTo key e (b.view key) := by
  ext x
  simp only [view, writeTo, Set.mem_ofPred_eq, hheld, hstaged]
  by_cases hk : key x = key e
  · constructor
    · rintro ⟨-, (rfl | ⟨-, h⟩) | ⟨-, h⟩⟩
      · exact Or.inl rfl
      · exact absurd hk h
      · exact absurd hk.symm (h e (Or.inl rfl))
    · rintro (rfl | ⟨-, h⟩)
      · exact ⟨hkept, Or.inl (Or.inl rfl)⟩
      · exact absurd hk h
  · have hx : x ≠ e := fun h => hk (h ▸ rfl)
    have hs : (∀ s, s = e ∨ (s ∈ b.staged ∧ key s ≠ key e) → key s ≠ key x) ↔
        ∀ s ∈ b.staged, key s ≠ key x := by
      constructor
      · intro h s hm
        by_cases he : key s = key e
        · exact fun h' => hk (h' ▸ he)
        · exact h s (Or.inr ⟨hm, he⟩)
      · rintro h s (rfl | ⟨hm, -⟩)
        · exact Ne.symm hk
        · exact h s hm
    rw [hs]
    constructor
    · rintro ⟨h, (rfl | ⟨h1, -⟩) | ⟨h1, h2⟩⟩
      · exact absurd rfl hx
      · exact Or.inr ⟨⟨(hothers x (Or.inl h1) hk).not.mp h, Or.inl h1⟩, hk⟩
      · exact Or.inr ⟨⟨(hothers x (Or.inr h1) hk).not.mp h, Or.inr ⟨h1, h2⟩⟩, hk⟩
    · rintro (rfl | ⟨⟨h, h1 | ⟨h1, h2⟩⟩, -⟩)
      · exact absurd rfl hx
      · exact ⟨(hothers x (Or.inl h1) hk).not.mpr h, Or.inl (Or.inr ⟨h1, hk⟩)⟩
      · exact ⟨(hothers x (Or.inr h1) hk).not.mpr h, Or.inr ⟨h1, h2⟩⟩

/-- A removal. -/
theorem view_hide (keys : Set κ) (hheld : b'.held = b.held) (hstaged : b'.staged = b.staged)
    (hhidden : b'.hidden = b.hidden ∪ keys) :
    b'.view key = removeFrom key keys (b.view key) := by
  ext x
  simp only [view, removeFrom, Set.mem_ofPred_eq, hheld, hstaged, hhidden, Set.mem_union, not_or]
  tauto

/-- The removals made: what they cover is gone, and they are no longer pending. -/
theorem view_purge (hheld : ∀ x, x ∈ b'.held ↔ x ∈ b.held ∧ key x ∉ b.hidden)
    (hstaged : ∀ x, x ∈ b'.staged ↔ x ∈ b.staged ∧ key x ∉ b.hidden)
    (hhidden : ∀ x ∈ b'.staged ∪ b'.held, key x ∉ b'.hidden) : b'.view key = b.view key := by
  ext x
  simp only [view, Set.mem_ofPred_eq]
  constructor
  · rintro ⟨-, h | ⟨h, hs⟩⟩
    · obtain ⟨h1, h2⟩ := (hstaged x).mp h
      exact ⟨h2, Or.inl h1⟩
    · obtain ⟨h1, h2⟩ := (hheld x).mp h
      refine ⟨h2, Or.inr ⟨h1, fun s hm hk => ?_⟩⟩
      exact hs s ((hstaged s).mpr ⟨hm, hk ▸ h2⟩) hk
  · rintro ⟨h2, h | ⟨h, hs⟩⟩
    · have hm := (hstaged x).mpr ⟨h, h2⟩
      exact ⟨hhidden x (Or.inl hm), Or.inl hm⟩
    · have hm := (hheld x).mpr ⟨h, h2⟩
      exact ⟨hhidden x (Or.inr hm), Or.inr ⟨hm, fun s hs' => hs s ((hstaged s).mp hs').1⟩⟩

/-- What is held at a staged key was not visible anyway. -/
theorem view_supersede (hheld : ∀ x, x ∈ b'.held ↔ x ∈ b.held ∧ ∀ s ∈ b.staged, key s ≠ key x)
    (hstaged : b'.staged = b.staged) (hhidden : b'.hidden = b.hidden) :
    b'.view key = b.view key := by
  ext x
  simp only [view, Set.mem_ofPred_eq, hheld, hstaged, hhidden, and_assoc, and_self]

/-- The buffer moves to the store. -/
theorem view_lift (hheld : ∀ x, x ∈ b'.held ↔ x ∈ b.held ∨ x ∈ b.staged)
    (hstaged : b'.staged = ∅) (hhidden : b'.hidden = b.hidden)
    (hnew : ∀ x ∈ b.held, ∀ s ∈ b.staged, key s ≠ key x) : b'.view key = b.view key := by
  ext x
  simp only [view, Set.mem_ofPred_eq, hheld, hstaged, hhidden, Set.mem_empty_iff_false, false_or,
    false_implies, implies_true, and_true]
  constructor
  · rintro ⟨h, h1 | h1⟩
    · exact ⟨h, Or.inr ⟨h1, hnew x h1⟩⟩
    · exact ⟨h, Or.inl h1⟩
  · rintro ⟨h, h1 | ⟨h1, -⟩⟩
    · exact ⟨h, Or.inr h1⟩
    · exact ⟨h, Or.inl h1⟩

/-- Part of the store moves back behind the buffer, when nothing becomes visible or stops being so
for the removals pending. -/
theorem view_restore (batch : Set ε) (hheld : ∀ x, x ∈ b.held ↔ x ∈ b'.held ∨ x ∈ batch)
    (hstaged : ∀ x, x ∈ b'.staged ↔ x ∈ b.staged ∨ (x ∈ batch ∧ ∀ s ∈ b.staged, key s ≠ key x))
    (hhidden : ∀ x, x ∈ b.staged ∨ x ∈ b.held → (key x ∈ b'.hidden ↔ key x ∈ b.hidden))
    (hapart : ∀ x ∈ b'.held, ∀ s ∈ batch, key s ≠ key x) : b'.view key = b.view key := by
  ext x
  simp only [view, Set.mem_ofPred_eq]
  constructor
  · rintro ⟨h, h1 | ⟨h1, h2⟩⟩
    · rcases (hstaged x).mp h1 with h1 | ⟨h1, h2⟩
      · exact ⟨(hhidden x (Or.inl h1)).not.mp h, Or.inl h1⟩
      · have hm := (hheld x).mpr (Or.inr h1)
        exact ⟨(hhidden x (Or.inr hm)).not.mp h, Or.inr ⟨hm, h2⟩⟩
    · have hm := (hheld x).mpr (Or.inl h1)
      exact ⟨(hhidden x (Or.inr hm)).not.mp h,
        Or.inr ⟨hm, fun s hs => h2 s ((hstaged s).mpr (Or.inl hs))⟩⟩
  · rintro ⟨h, h1 | ⟨h1, h2⟩⟩
    · exact ⟨(hhidden x (Or.inl h1)).not.mpr h, Or.inl ((hstaged x).mpr (Or.inl h1))⟩
    · refine ⟨(hhidden x (Or.inr h1)).not.mpr h, ?_⟩
      rcases (hheld x).mp h1 with h3 | h3
      · refine Or.inr ⟨h3, fun s hs => ?_⟩
        rcases (hstaged s).mp hs with hs | ⟨hs, -⟩
        · exact h2 s hs
        · exact hapart x h3 s hs
      · exact Or.inl ((hstaged x).mpr (Or.inr ⟨h3, h2⟩))

end Buffered

end Search
