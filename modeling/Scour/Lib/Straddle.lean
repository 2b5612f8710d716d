import Mathlib.Data.List.Infix

/-!
# Infixes across a separator

Where one list can occur in `l ++ s :: r`, when `s` is not in `r`: inside `l`, inside `r`, or over
the separator, and then over the last `s` it holds.  The three-way split is `infix_append_cons_iff`;
`infix_append_cons_of_notMem` and `append_cons_infix_append_cons` are its two halves, by whether
the list looked for holds the separator itself.
-/

namespace Search

variable {α : Type*} {s : α} {l r t u v : List α}

theorem infix_append_cons_iff (s : α) (l r t : List α) :
    t <:+: l ++ s :: r ↔ t <:+: l ∨ t <:+: r ∨ ∃ u v, t = u ++ s :: v ∧ u <:+ l ∧ v <+: r := by
  constructor
  · rintro ⟨a, b, h⟩
    rw [List.append_assoc, List.append_eq_append_iff] at h
    rcases h with ⟨a', hl, h⟩ | ⟨c, rfl, h⟩
    · rw [List.append_eq_append_iff] at h
      rcases h with ⟨x, rfl, h⟩ | ⟨y, rfl, h⟩
      · left
        rw [hl]
        exact ⟨a, x, by simp⟩
      · cases y with
        | nil =>
          left
          rw [hl]
          exact ⟨a, [], by simp⟩
        | cons y0 y =>
          simp only [List.cons_append, List.cons.injEq] at h
          obtain ⟨rfl, rfl⟩ := h
          right; right
          exact ⟨a', y, rfl, ⟨a, hl.symm⟩, ⟨b, rfl⟩⟩
    · cases c with
      | nil =>
        cases t with
        | nil => exact Or.inl List.nil_infix
        | cons t0 t =>
          simp only [List.nil_append, List.cons_append, List.cons.injEq] at h
          obtain ⟨rfl, rfl⟩ := h
          right; right
          exact ⟨[], t, rfl, List.nil_suffix, ⟨b, rfl⟩⟩
      | cons c0 c =>
        simp only [List.cons_append, List.cons.injEq] at h
        right; left
        exact ⟨c, b, by rw [h.2, List.append_assoc]⟩
  · rintro (h | h | ⟨u, v, rfl, ⟨a, rfl⟩, ⟨b, rfl⟩⟩)
    · exact h.trans (List.prefix_append _ _).isInfix
    · exact h.trans ((List.suffix_cons _ _).trans (List.suffix_append _ _)).isInfix
    · exact ⟨a, b, by simp⟩

/-- A list without the separator is in one side or the other. -/
theorem infix_append_cons_of_notMem (h : s ∉ t) :
    t <:+: l ++ s :: r ↔ t <:+: l ∨ t <:+: r := by
  rw [infix_append_cons_iff]
  constructor
  · rintro (h1 | h1 | ⟨u, v, rfl, -, -⟩)
    · exact Or.inl h1
    · exact Or.inr h1
    · exact absurd (by simp) h
  · rintro (h1 | h1)
    · exact Or.inl h1
    · exact Or.inr (Or.inl h1)

/-- Two ways to split one list at a separator that is not in either rest are one way. -/
theorem append_cons_inj (hv : s ∉ v) (hr : s ∉ r) (h : u ++ s :: v = l ++ s :: r) :
    u = l ∧ v = r := by
  rw [List.append_eq_append_iff] at h
  rcases h with ⟨a, rfl, h⟩ | ⟨a, rfl, h⟩
  · cases a with
    | nil => simpa using h
    | cons a0 a =>
      simp only [List.cons_append, List.cons.injEq] at h
      exact absurd (by rw [h.2]; simp) hv
  · cases a with
    | nil => simpa [eq_comm] using h
    | cons a0 a =>
      simp only [List.cons_append, List.cons.injEq] at h
      exact absurd (by rw [h.2]; simp) hr

/-- A list with the separator in it lies before it, or puts its own last one over it. -/
theorem append_cons_infix_append_cons (hv : s ∉ v) (hr : s ∉ r) :
    u ++ s :: v <:+: l ++ s :: r ↔ u ++ s :: v <:+: l ∨ (u <:+ l ∧ v <+: r) := by
  rw [infix_append_cons_iff]
  constructor
  · rintro (h | h | ⟨u', v', h, hu, hv'⟩)
    · exact Or.inl h
    · exact absurd (h.subset (by simp)) hr
    · have hs : s ∉ v' := fun hm => hr (hv'.subset hm)
      obtain ⟨rfl, rfl⟩ := append_cons_inj hv hs h
      exact Or.inr ⟨hu, hv'⟩
  · rintro (h | ⟨hu, hv'⟩)
    · exact Or.inl h
    · exact Or.inr (Or.inr ⟨u, v, rfl, hu, hv'⟩)

end Search
