import Mathlib.Data.List.Induction

/-!
# The greatest by a key

`maxByKey f l` is an element of the list with the greatest key, the last of them where there are
several (`maxByKey_eq_some_iff`).
-/

namespace Search

variable {α : Type*} (f : α → Nat)

/-- The better of the greatest so far and the next. -/
def better (best : Option α) (x : α) : Option α :=
  match best with
  | none => some x
  | some b => if f b ≤ f x then some x else some b

def maxByKey (l : List α) : Option α := l.foldl (better f) none

example : maxByKey (fun p : Nat × Nat => p.1) [(1, 0), (2, 1), (2, 2), (0, 3)] = some (2, 2) := by
  decide

@[simp] theorem maxByKey_nil : maxByKey f ([] : List α) = none := rfl

theorem maxByKey_concat (l : List α) (x : α) :
    maxByKey f (l ++ [x]) = better f (maxByKey f l) x := by
  simp [maxByKey]

theorem maxByKey_eq_none_iff (l : List α) : maxByKey f l = none ↔ l = [] := by
  induction l using List.reverseRecOn with
  | nil => simp
  | append_singleton l x ih =>
    rw [maxByKey_concat]
    cases maxByKey f l with
    | none => simp [better]
    | some b =>
      unfold better
      simp only
      split <;> simp

/-- The answer is where nothing before it is greater and everything after it is smaller. -/
theorem maxByKey_eq_some (l : List α) {m : α} (h : maxByKey f l = some m) :
    ∃ l₁ l₂, l = l₁ ++ m :: l₂ ∧ (∀ x ∈ l₁, f x ≤ f m) ∧ ∀ x ∈ l₂, f x < f m := by
  induction l using List.reverseRecOn generalizing m with
  | nil => cases h
  | append_singleton l x ih =>
    rw [maxByKey_concat] at h
    cases hb : maxByKey f l with
    | none =>
      rw [hb] at h
      obtain rfl := Option.some.inj h
      rw [(maxByKey_eq_none_iff f l).mp hb]
      exact ⟨[], [], rfl, by simp, by simp⟩
    | some b =>
      rw [hb] at h
      unfold better at h
      simp only at h
      obtain ⟨l₁, l₂, rfl, h1, h2⟩ := ih hb
      split at h
      · rename_i hle
        obtain rfl := Option.some.inj h
        refine ⟨l₁ ++ b :: l₂, [], by simp, fun y hy => ?_, by simp⟩
        rcases List.mem_append.mp hy with hy | hy
        · have := h1 y hy
          omega
        · rcases List.mem_cons.mp hy with rfl | hy
          · exact hle
          · have := h2 y hy
            omega
      · rename_i hlt
        obtain rfl := Option.some.inj h
        refine ⟨l₁, l₂ ++ [x], by simp, h1, fun y hy => ?_⟩
        rcases List.mem_append.mp hy with hy | hy
        · exact h2 y hy
        · rw [List.mem_singleton.mp hy]
          omega

end Search
