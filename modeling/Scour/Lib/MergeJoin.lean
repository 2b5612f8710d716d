import Mathlib.Data.List.Sort

/-!
# Joining two sorted lists on a key

`mergeJoin xs ys` walks two lists sorted by key with two cursors and, where the keys meet, pairs the
run of equal keys on one side with the run on the other.  On sorted lists that is the join
(`mem_mergeJoin_iff`).
-/

namespace Search

variable {κ α β : Type} [LinearOrder κ]

/-- The walk, `fuel` bounding its rounds. -/
def mergeLoop : Nat → List (κ × α) → List (κ × β) → List (α × β)
  | 0, _, _ => []
  | _ + 1, [], _ => []
  | _ + 1, _ :: _, [] => []
  | fuel + 1, (h, a) :: xs, (k, b) :: ys =>
      if h < k then mergeLoop fuel xs ((k, b) :: ys)
      else if k < h then mergeLoop fuel ((h, a) :: xs) ys
      else
        ((((h, a) :: xs).takeWhile (·.1 = h)).flatMap fun x =>
          (((k, b) :: ys).takeWhile (·.1 = h)).map fun y => (x.2, y.2)) ++
        mergeLoop fuel (xs.dropWhile (·.1 = h)) (ys.dropWhile (·.1 = h))

def mergeJoin (xs : List (κ × α)) (ys : List (κ × β)) : List (α × β) :=
  mergeLoop (xs.length + ys.length) xs ys

/-- Sorted by key. -/
def ByKey {γ : Type} (l : List (κ × γ)) : Prop := l.Pairwise fun x y => x.1 ≤ y.1

theorem ByKey.le_of_cons {γ : Type} {h : κ} {a : γ} {l : List (κ × γ)} (hl : ByKey ((h, a) :: l))
    {x : κ × γ} (hx : x ∈ (h, a) :: l) : h ≤ x.1 := by
  rcases List.mem_cons.mp hx with rfl | hx
  · exact le_refl _
  · exact (List.pairwise_cons.mp hl).1 x hx

theorem ByKey.dropWhile {γ : Type} {l : List (κ × γ)} (hl : ByKey l) (p : κ × γ → Bool) :
    ByKey (l.dropWhile p) :=
  List.Pairwise.sublist (List.dropWhile_sublist p) hl

/-- In a list sorted by key that starts with `h`, the first run holds every `h`. -/
theorem ByKey.mem_takeWhile_iff {γ : Type} {h : κ} {l : List (κ × γ)} (hl : ByKey l)
    (hle : ∀ x ∈ l, h ≤ x.1) (x : κ × γ) :
    x ∈ l.takeWhile (·.1 = h) ↔ x ∈ l ∧ x.1 = h := by
  induction l with
  | nil => simp
  | cons y l ih =>
    have hl' := List.pairwise_cons.mp hl
    by_cases hy : y.1 = h
    · rw [List.takeWhile_cons_of_pos (by simpa using hy), List.mem_cons, List.mem_cons,
        ih hl'.2 fun x hx => hle x (List.mem_cons_of_mem _ hx)]
      constructor
      · rintro (rfl | ⟨h1, h2⟩)
        · exact ⟨Or.inl rfl, hy⟩
        · exact ⟨Or.inr h1, h2⟩
      · rintro ⟨rfl | h1, h2⟩
        · exact Or.inl rfl
        · exact Or.inr ⟨h1, h2⟩
    · rw [List.takeWhile_cons_of_neg (by simpa using hy)]
      constructor
      · intro hx; cases hx
      · rintro ⟨h1, h2⟩
        exfalso
        have hlt : h < y.1 := lt_of_le_of_ne (hle y List.mem_cons_self) (Ne.symm hy)
        rcases List.mem_cons.mp h1 with rfl | h1
        · exact hy h2
        · exact absurd (hl'.1 x h1) (not_le.mpr (h2 ▸ hlt))

theorem ByKey.mem_dropWhile_iff {γ : Type} {h : κ} {l : List (κ × γ)} (hl : ByKey l)
    (hle : ∀ x ∈ l, h ≤ x.1) (x : κ × γ) :
    x ∈ l.dropWhile (·.1 = h) ↔ x ∈ l ∧ x.1 ≠ h := by
  have hsplit := List.takeWhile_append_dropWhile (p := fun x : κ × γ => decide (x.1 = h)) (l := l)
  constructor
  · intro hx
    refine ⟨(List.dropWhile_sublist _).subset hx, fun hk => ?_⟩
    -- a row of `h` past the first run would come after a larger key
    cases hd : l.dropWhile (·.1 = h) with
    | nil => rw [hd] at hx; cases hx
    | cons y t =>
      have hy : ¬ y.1 = h := by
        have := List.head?_dropWhile_not (fun x : κ × γ => decide (x.1 = h)) l
        rw [hd] at this
        simpa using this
      have hbk := hl.dropWhile (fun x => decide (x.1 = h))
      rw [hd] at hbk hx
      have hly : h ≤ y.1 := hle y ((List.dropWhile_sublist _).subset (hd ▸ List.mem_cons_self))
      have hyx := hbk.le_of_cons (h := y.1) (a := y.2) hx
      exact absurd (hk ▸ hyx) (not_le.mpr (lt_of_le_of_ne hly (Ne.symm hy)))
  · rintro ⟨hx, hk⟩
    rw [← hsplit, List.mem_append] at hx
    rcases hx with hx | hx
    · exact absurd ((hl.mem_takeWhile_iff hle x).mp hx).2 hk
    · exact hx

theorem mem_mergeLoop_iff (a : α) (b : β) :
    ∀ (fuel : Nat) (xs : List (κ × α)) (ys : List (κ × β)), ByKey xs → ByKey ys →
      xs.length + ys.length ≤ fuel →
      ((a, b) ∈ mergeLoop fuel xs ys ↔ ∃ k, (k, a) ∈ xs ∧ (k, b) ∈ ys) := by
  intro fuel
  induction fuel with
  | zero =>
    intro xs ys _ _ hf
    have : xs = [] := List.length_eq_zero_iff.mp (by omega)
    simp [mergeLoop, this]
  | succ fuel ih =>
    intro xs ys hxs hys hf
    match xs, ys with
    | [], ys => simp [mergeLoop]
    | (h, a') :: xs, [] => simp [mergeLoop]
    | (h, a') :: xs, (k, b') :: ys =>
      simp only [List.length_cons] at hf
      have hx := List.pairwise_cons.mp hxs
      have hy := List.pairwise_cons.mp hys
      unfold mergeLoop
      split_ifs with hlt hgt
      · rw [ih xs _ hx.2 hys (by simp only [List.length_cons]; omega)]
        constructor
        · rintro ⟨q, h1, h2⟩
          exact ⟨q, List.mem_cons_of_mem _ h1, h2⟩
        · rintro ⟨q, h1, h2⟩
          rcases List.mem_cons.mp h1 with heq | h1
          · cases heq
            exact absurd (hys.le_of_cons h2) (not_le.mpr hlt)
          · exact ⟨q, h1, h2⟩
      · rw [ih _ ys hxs hy.2 (by simp only [List.length_cons]; omega)]
        constructor
        · rintro ⟨q, h1, h2⟩
          exact ⟨q, h1, List.mem_cons_of_mem _ h2⟩
        · rintro ⟨q, h1, h2⟩
          rcases List.mem_cons.mp h2 with heq | h2
          · cases heq
            exact absurd (hxs.le_of_cons h1) (not_le.mpr hgt)
          · exact ⟨q, h1, h2⟩
      · have hkh : k = h := le_antisymm (not_lt.mp hlt) (not_lt.mp hgt)
        subst hkh
        have hlex : ∀ x ∈ (k, a') :: xs, k ≤ x.1 := fun x hx => hxs.le_of_cons hx
        have hley : ∀ y ∈ (k, b') :: ys, k ≤ y.1 := fun y hy => hys.le_of_cons hy
        have hdx := (List.dropWhile_sublist (fun x : κ × α => decide (x.1 = k)) (l := xs)).length_le
        have hdy := (List.dropWhile_sublist (fun x : κ × β => decide (x.1 = k)) (l := ys)).length_le
        rw [List.mem_append, ih _ _ (ByKey.dropWhile hx.2 _) (ByKey.dropWhile hy.2 _) (by omega)]
        simp only [List.mem_flatMap, List.mem_map, Prod.mk.injEq]
        constructor
        · rintro (⟨x, hx', y, hy', rfl, rfl⟩ | ⟨q, h1, h2⟩)
          · obtain ⟨h1, h2⟩ := (hxs.mem_takeWhile_iff hlex x).mp hx'
            obtain ⟨h3, h4⟩ := (hys.mem_takeWhile_iff hley y).mp hy'
            exact ⟨k, h2 ▸ h1, h4 ▸ h3⟩
          · exact ⟨q, List.mem_cons_of_mem _ ((List.dropWhile_sublist _).subset h1),
              List.mem_cons_of_mem _ ((List.dropWhile_sublist _).subset h2)⟩
        · rintro ⟨q, h1, h2⟩
          by_cases hq : q = k
          · subst hq
            exact Or.inl ⟨(q, a), (hxs.mem_takeWhile_iff hlex _).mpr ⟨h1, rfl⟩, (q, b),
              (hys.mem_takeWhile_iff hley _).mpr ⟨h2, rfl⟩, rfl, rfl⟩
          · right
            have h1' : (q, a) ∈ xs := by
              rcases List.mem_cons.mp h1 with heq | h1
              · cases heq; exact absurd rfl hq
              · exact h1
            have h2' : (q, b) ∈ ys := by
              rcases List.mem_cons.mp h2 with heq | h2
              · cases heq; exact absurd rfl hq
              · exact h2
            exact ⟨q, (ByKey.mem_dropWhile_iff hx.2 (fun x hx => hlex x (List.mem_cons_of_mem _ hx))
              _).mpr ⟨h1', hq⟩, (ByKey.mem_dropWhile_iff hy.2
              (fun y hy => hley y (List.mem_cons_of_mem _ hy)) _).mpr ⟨h2', hq⟩⟩

/-- On lists sorted by key the walk is the join. -/
theorem mem_mergeJoin_iff (xs : List (κ × α)) (ys : List (κ × β)) (hxs : ByKey xs) (hys : ByKey ys)
    (a : α) (b : β) : (a, b) ∈ mergeJoin xs ys ↔ ∃ k, (k, a) ∈ xs ∧ (k, b) ∈ ys :=
  mem_mergeLoop_iff a b _ xs ys hxs hys (Nat.le_refl _)

end Search
