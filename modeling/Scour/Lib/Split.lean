import Mathlib.Data.List.Infix

/-!
# Cutting a list at a separator

`split sep l` is `List.splitOn` in a form that evaluates (`split_eq_splitOn`), so what the library
knows of that one holds of this one.  `windows n l` is every run of `n` neighbours, and one of them
is a given list exactly when the list is an infix (`any_windows`).
-/

namespace Search

variable {α : Type*}

theorem intercalate_append {sep : List α} {l m : List (List α)} (hl : l ≠ []) (hm : m ≠ []) :
    sep.intercalate (l ++ m) = sep.intercalate l ++ sep ++ sep.intercalate m := by
  induction l with
  | nil => exact absurd rfl hl
  | cons x l ih =>
    rcases eq_or_ne l [] with rfl | hne
    · rw [List.singleton_append, List.intercalate_cons_of_ne_nil hm, List.intercalate_singleton]
    · rw [List.cons_append, List.intercalate_cons_of_ne_nil (by simp [hne]),
        List.intercalate_cons_of_ne_nil hne, ih hne]
      simp only [List.append_assoc]

section

variable [DecidableEq α]

/-- The pieces between the separators, empty ones included. -/
def split (sep : α) : List α → List (List α)
  | [] => [[]]
  | x :: l => if x = sep then [] :: split sep l else (split sep l).modifyHead (x :: ·)

example : split 0 [1, 0, 0, 2] = [[1], [], [2]] := by decide

theorem split_eq_splitOn (sep : α) (l : List α) : split sep l = l.splitOn sep := by
  induction l with
  | nil => simp [split]
  | cons x l ih =>
    rw [List.splitOn_cons_eq_if_modifyHead, split, ih]
    by_cases hx : x = sep
    · rw [if_pos hx, if_pos (by simpa using hx)]
    · rw [if_neg hx, if_neg (by simpa using hx)]

theorem split_append_cons (sep : α) (l r : List α) :
    split sep (l ++ sep :: r) = split sep l ++ split sep r := by
  simp only [split_eq_splitOn, List.splitOn_append_cons_self]

theorem split_of_notMem {sep : α} {l : List α} (h : sep ∉ l) : split sep l = [l] := by
  rw [split_eq_splitOn, List.splitOn_eq_singleton h]

/-- No piece holds the separator. -/
theorem notMem_of_mem_split (sep : α) (l : List α) : ∀ p ∈ split sep l, sep ∉ p := by
  induction l with
  | nil => simp [split]
  | cons x l ih =>
    intro p hp
    rw [split] at hp
    split at hp
    · rcases List.mem_cons.mp hp with rfl | hp
      · exact List.not_mem_nil
      · exact ih p hp
    · rename_i hx
      cases hs : split sep l with
      | nil =>
        rw [hs] at hp
        cases hp
      | cons q qs =>
        rw [hs, List.modifyHead_cons] at hp
        rcases List.mem_cons.mp hp with rfl | hp
        · rintro (_ | ⟨_, h⟩)
          · exact hx rfl
          · exact ih q (hs ▸ List.mem_cons_self) h
        · exact ih p (hs ▸ List.mem_cons_of_mem _ hp)

theorem split_ne_nil (sep : α) (l : List α) : split sep l ≠ [] := by
  rw [split_eq_splitOn]
  exact List.splitOn_ne_nil sep l

theorem intercalate_split (sep : α) (l : List α) : [sep].intercalate (split sep l) = l := by
  rw [split_eq_splitOn, List.intercalate_splitOn]

/-- One list's pieces come first in another's where it is the other, or ends at a separator there. -/
theorem split_prefix_iff {sep : α} {a b : List α} :
    split sep a <+: split sep b ↔ b = a ∨ a ++ [sep] <+: b := by
  constructor
  · rintro ⟨ds, hds⟩
    have hb := intercalate_split sep b
    rw [← hds] at hb
    cases ds with
    | nil =>
      left
      rw [← hb, List.append_nil, intercalate_split]
    | cons d ds =>
      right
      rw [intercalate_append (split_ne_nil sep a) (List.cons_ne_nil d ds),
        intercalate_split] at hb
      exact ⟨[sep].intercalate (d :: ds), hb⟩
  · rintro (rfl | ⟨t, ht⟩)
    · exact List.prefix_refl _
    · rw [← ht, List.append_assoc, List.singleton_append, split_append_cons]
      exact List.prefix_append _ _

end

/-- `slice::windows`. -/
def windows (n : Nat) (l : List α) : List (List α) :=
  (List.range (l.length + 1 - n)).map fun i => (l.drop i).take n

example : windows 2 [1, 2, 3] = [[1, 2], [2, 3]] := by decide

theorem mem_windows_iff (l w : List α) : w ∈ windows w.length l ↔ w <:+: l := by
  unfold windows
  rw [List.mem_map]
  constructor
  · rintro ⟨i, -, hi⟩
    rw [← hi]
    exact (List.take_prefix _ _).isInfix.trans (List.drop_suffix _ _).isInfix
  · rintro ⟨s, t, rfl⟩
    refine ⟨s.length, ?_, ?_⟩
    · rw [List.mem_range]
      simp
      omega
    · rw [List.append_assoc, List.drop_left, List.take_left]

theorem any_windows [BEq α] [LawfulBEq α] (l w : List α) : (windows w.length l).any (· == w) = true ↔ w <:+: l := by
  rw [List.any_eq_true, ← mem_windows_iff]
  constructor
  · rintro ⟨v, hv, he⟩
    rw [beq_iff_eq] at he
    rwa [he] at hv
  · exact fun h => ⟨w, h, by simp⟩

end Search
