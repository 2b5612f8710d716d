import Mathlib.Data.List.Infix
import Mathlib.Logic.Function.Basic

/-!
# Trees by paths

What stands at each path, as a file system has it: a path is the names from the root.  `move` takes
what is at and under one path to another.  It changes nothing at any other path (`move_of_not`), and
what it moves arrives whole (`move_append`).
-/

namespace Search

/-- What stands at each path. -/
abbrev Tree (κ ν : Type) := List κ → Option ν

namespace Tree

variable {κ ν : Type} [DecidableEq κ]

/-- What is at and under a path. -/
def below (t : Tree κ ν) (p : List κ) : Tree κ ν := fun r => t (p ++ r)

/-- Another thing at one path. -/
def put (t : Tree κ ν) (p : List κ) (x : Option ν) : Tree κ ν := Function.update t p x

/-- What is at and under `src` comes to `dest`, in place of what was there. -/
def move (t : Tree κ ν) (src dest : List κ) : Tree κ ν := fun p =>
  if dest <+: p then t (src ++ p.drop dest.length) else if src <+: p then none else t p

theorem put_same (t : Tree κ ν) (p : List κ) (x : Option ν) : t.put p x p = x :=
  Function.update_self _ _ _

theorem put_of_ne {t : Tree κ ν} {p q : List κ} (h : q ≠ p) (x : Option ν) : t.put p x q = t q :=
  Function.update_of_ne h _ _

theorem move_append (t : Tree κ ν) (src dest r : List κ) :
    t.move src dest (dest ++ r) = t (src ++ r) := by
  unfold move
  rw [if_pos (List.prefix_append dest r), List.drop_left' rfl]

theorem move_of_not {t : Tree κ ν} {src dest p : List κ} (hd : ¬ dest <+: p) (hs : ¬ src <+: p) :
    t.move src dest p = t p := by
  unfold move
  rw [if_neg hd, if_neg hs]

/-- A path in the tree after a move is one that was moved, or stands where it did. -/
theorem move_cases (t : Tree κ ν) (src dest p : List κ) :
    (∃ r, p = dest ++ r ∧ t.move src dest p = t (src ++ r)) ∨
      (¬ dest <+: p ∧ (t.move src dest p = none ∧ src <+: p ∨
        t.move src dest p = t p ∧ ¬ src <+: p)) := by
  by_cases hd : dest <+: p
  · obtain ⟨r, rfl⟩ := hd
    exact Or.inl ⟨r, rfl, move_append t src dest r⟩
  · refine Or.inr ⟨hd, ?_⟩
    by_cases hs : src <+: p
    · left
      unfold move
      rw [if_neg hd, if_pos hs]
      exact ⟨rfl, hs⟩
    · exact Or.inr ⟨move_of_not hd hs, hs⟩

end Tree

/-- Of two paths to one place, one goes on from the other. -/
theorem prefix_or {κ : Type} {a b p : List κ} (ha : a <+: p) (hb : b <+: p) : a <+: b ∨ b <+: a := by
  rcases Nat.le_total a.length b.length with h | h
  · exact Or.inl (List.prefix_of_prefix_length_le ha hb h)
  · exact Or.inr (List.prefix_of_prefix_length_le hb ha h)

end Search
