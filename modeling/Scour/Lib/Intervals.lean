import Scour.Lib.PartitionPoint

/-!
# Half-open ranges, merged

`mergeRanges` sorts ranges of numbers and joins the ones that touch.  What is left is disjoint and
in order (`mergeRanges_separated`), covers the same numbers (`covered_mergeRanges`), and one binary
search finds the range a number is in (`inRanges_iff`).
-/

namespace Search

abbrev Range := Nat × Nat

/-- Is `n` in one of the ranges? -/
def Covered (rs : List Range) (n : Nat) : Prop := ∃ r ∈ rs, r.1 ≤ n ∧ n < r.2

/-- Take in the next range: extend the last one kept, or start another. -/
def mergeStep (kept : List Range) (r : Range) : List Range :=
  match kept.getLast? with
  | none => kept ++ [r]
  | some last => if r.1 ≤ last.2 then kept.dropLast ++ [(last.1, max last.2 r.2)] else kept ++ [r]

def rangeLe (a b : Range) : Prop := a.1 < b.1 ∨ (a.1 = b.1 ∧ a.2 ≤ b.2)

instance : DecidableRel rangeLe := fun a b => by unfold rangeLe; infer_instance

def mergeRanges (rs : List Range) : List Range := (rs.insertionSort rangeLe).foldl mergeStep []

/-- Each range ends before the next begins. -/
def Separated (rs : List Range) : Prop := rs.Pairwise fun a b => a.2 < b.1

/-- `partition_point` over the ends, then one look. -/
def inRanges (rs : List Range) (n : Nat) : Bool :=
  let at_ := partitionPoint rs.length fun i => (rs[i]?).any (·.2 ≤ n)
  (rs[at_]?).any (·.1 ≤ n)

theorem rangeLe_trans {a b c : Range} (h1 : rangeLe a b) (h2 : rangeLe b c) : rangeLe a c := by
  unfold rangeLe at *
  omega

theorem rangeLe_total (a b : Range) : rangeLe a b ∨ rangeLe b a := by
  unfold rangeLe
  omega

/-- What the fold keeps: nonempty ranges, in order and apart, that start no later than the next. -/
theorem foldl_mergeStep (rs : List Range) :
    ∀ kept : List Range, rs.Pairwise rangeLe → (∀ r ∈ rs, r.1 < r.2) → (∀ r ∈ kept, r.1 < r.2) →
      Separated kept → (∀ k ∈ kept, ∀ r ∈ rs, k.1 ≤ r.1) →
      (∀ r ∈ rs.foldl mergeStep kept, r.1 < r.2) ∧ Separated (rs.foldl mergeStep kept) ∧
        ∀ n, Covered (rs.foldl mergeStep kept) n ↔ Covered kept n ∨ Covered rs n := by
  induction rs with
  | nil =>
    intro kept _ _ hk hsep _
    exact ⟨hk, hsep, fun n => by simp [Covered]⟩
  | cons r rs ih =>
    intro kept hs hr hk hsep hle
    obtain ⟨hs1, hs2⟩ := List.pairwise_cons.mp hs
    have hr0 := hr r List.mem_cons_self
    have hle' : ∀ q ∈ rs, r.1 ≤ q.1 := fun q hq => by
      have := hs1 q hq
      unfold rangeLe at this
      omega
    -- one step keeps the invariant and adds `r`
    have step : (∀ q ∈ mergeStep kept r, q.1 < q.2) ∧ Separated (mergeStep kept r) ∧
        (∀ k ∈ mergeStep kept r, ∀ q ∈ rs, k.1 ≤ q.1) ∧
        ∀ n, Covered (mergeStep kept r) n ↔ Covered kept n ∨ (r.1 ≤ n ∧ n < r.2) := by
      unfold mergeStep
      rcases List.eq_nil_or_concat' kept with rfl | ⟨init, last, rfl⟩
      · refine ⟨by simpa using hr0, by simp [Separated], ?_, fun n => by simp [Covered]⟩
        simpa using hle'
      · rw [List.getLast?_concat]
        simp only [List.dropLast_concat]
        have hlast := hk last (by simp)
        have hstart := hle last (by simp) r List.mem_cons_self
        unfold Separated at hsep
        rw [List.pairwise_append] at hsep
        obtain ⟨hsep1, -, hsep2⟩ := hsep
        split
        · rename_i htouch
          refine ⟨fun q hq => ?_, ?_, fun k hk' q hq => ?_, fun n => ?_⟩
          · rcases List.mem_append.mp hq with hq | hq
            · exact hk q (by simp [hq])
            · rw [List.mem_singleton.mp hq]
              simp only
              omega
          · refine List.pairwise_append.mpr ⟨hsep1, by simp, fun a ha b hb => ?_⟩
            rw [List.mem_singleton.mp hb]
            exact hsep2 a ha last (by simp)
          · rcases List.mem_append.mp hk' with hk' | hk'
            · exact hle k (by simp [hk']) q (List.mem_cons_of_mem _ hq)
            · rw [List.mem_singleton.mp hk']
              exact hle last (by simp) q (List.mem_cons_of_mem _ hq)
          · simp only [Covered, List.mem_append, List.mem_singleton]
            constructor
            · rintro ⟨q, hq | rfl, h1, h2⟩
              · exact Or.inl ⟨q, Or.inl hq, h1, h2⟩
              · rcases Nat.lt_or_ge n last.2 with hlt | hge
                · exact Or.inl ⟨last, Or.inr rfl, h1, hlt⟩
                · simp only at h2
                  exact Or.inr ⟨by omega, by omega⟩
            · rintro (⟨q, hq | rfl, h1, h2⟩ | ⟨h1, h2⟩)
              · exact ⟨q, Or.inl hq, h1, h2⟩
              · exact ⟨_, Or.inr rfl, h1, by simp only; omega⟩
              · exact ⟨_, Or.inr rfl, by simp only; omega, by simp only; omega⟩
        · rename_i hgap
          refine ⟨fun q hq => ?_, ?_, fun k hk' q hq => ?_, fun n => ?_⟩
          · rcases List.mem_append.mp hq with hq | hq
            · exact hk q hq
            · rw [List.mem_singleton.mp hq]
              exact hr0
          · refine List.pairwise_append.mpr ⟨List.pairwise_append.mpr ⟨hsep1, by simp, hsep2⟩,
              by simp, fun a ha b hb => ?_⟩
            rw [List.mem_singleton.mp hb]
            rcases List.mem_append.mp ha with ha | ha
            · have := hsep2 a ha last (by simp)
              omega
            · rw [List.mem_singleton.mp ha]
              omega
          · rcases List.mem_append.mp hk' with hk' | hk'
            · exact hle k hk' q (List.mem_cons_of_mem _ hq)
            · rw [List.mem_singleton.mp hk']
              exact hle' q hq
          · simp only [Covered, List.mem_append, List.mem_singleton]
            constructor
            · rintro ⟨q, hq | rfl, h1, h2⟩
              · exact Or.inl ⟨q, hq, h1, h2⟩
              · exact Or.inr ⟨h1, h2⟩
            · rintro (⟨q, hq, h1, h2⟩ | ⟨h1, h2⟩)
              · exact ⟨q, Or.inl hq, h1, h2⟩
              · exact ⟨r, Or.inr rfl, h1, h2⟩
    obtain ⟨s1, s2, s3, s4⟩ := step
    obtain ⟨t1, t2, t3⟩ := ih (mergeStep kept r) hs2 (fun q hq => hr q (List.mem_cons_of_mem _ hq))
      s1 s2 s3
    refine ⟨t1, t2, fun n => ?_⟩
    rw [List.foldl_cons, t3, s4, or_assoc]
    simp only [Covered, List.mem_cons, exists_eq_or_imp]

theorem mergeRanges_spec (rs : List Range) (hr : ∀ r ∈ rs, r.1 < r.2) :
    (∀ r ∈ mergeRanges rs, r.1 < r.2) ∧ Separated (mergeRanges rs) ∧
      ∀ n, Covered (mergeRanges rs) n ↔ Covered rs n := by
  have hsorted : (rs.insertionSort rangeLe).Pairwise rangeLe :=
    @List.pairwise_insertionSort _ rangeLe _ ⟨rangeLe_total⟩ ⟨fun _ _ _ => rangeLe_trans⟩ _
  obtain ⟨h1, h2, h3⟩ := foldl_mergeStep (rs.insertionSort rangeLe) [] hsorted
    (fun r h => hr r ((List.mem_insertionSort _).mp h)) (by simp) (by simp [Separated]) (by simp)
  refine ⟨h1, h2, fun n => ?_⟩
  unfold mergeRanges
  rw [h3]
  simp only [Covered, List.mem_insertionSort, List.not_mem_nil, false_and, exists_false, false_or]

/-- One binary search over disjoint ranges in order answers membership. -/
theorem inRanges_iff (rs : List Range) (hr : ∀ r ∈ rs, r.1 < r.2) (hs : Separated rs) (n : Nat) :
    inRanges rs n = true ↔ Covered rs n := by
  have hdown : DownTo rs.length fun i => (rs[i]?).any (·.2 ≤ n) := by
    refine downTo_of_pairwise (R := fun a b => a.2 ≤ b.2) rs ?_ (fun r => decide (r.2 ≤ n)) ?_
    · refine (List.Pairwise.and_mem.mp hs).imp fun {a b} hab => ?_
      have := hr b hab.2.1
      omega
    · intro a b hab hb
      simp only [decide_eq_true_eq] at hb ⊢
      omega
  have hlt := lt_partitionPoint_iff rs.length _ hdown
  unfold inRanges
  simp only
  generalize partitionPoint rs.length (fun i => (rs[i]?).any (·.2 ≤ n)) = at_ at hlt
  simp only [Option.any_eq_true, decide_eq_true_eq]
  constructor
  · rintro ⟨r, hr', hle⟩
    obtain ⟨hlen, rfl⟩ := List.getElem?_eq_some_iff.mp hr'
    refine ⟨_, List.getElem_mem hlen, hle, ?_⟩
    by_contra hge
    have := (hlt at_ hlen).mpr (by simp [hlen]; omega)
    omega
  · rintro ⟨r, hm, h1, h2⟩
    obtain ⟨j, hj, rfl⟩ := List.mem_iff_getElem.mp hm
    have hjat : at_ ≤ j := by
      by_contra hc
      have := (hlt j hj).mp (by omega)
      simp only [List.getElem?_eq_getElem hj, Option.any_some, decide_eq_true_eq] at this
      omega
    have hlen : at_ < rs.length := by omega
    refine ⟨rs[at_], List.getElem?_eq_getElem hlen, ?_⟩
    rcases Nat.lt_or_eq_of_le hjat with hlt' | rfl
    · -- an earlier range ends above `n`, so this one would too
      have hsep := List.pairwise_iff_getElem.mp hs at_ j hlen hj hlt'
      have hend : ¬ rs[at_].2 ≤ n := by
        intro hc
        have := (hlt at_ hlen).mpr (by simp [List.getElem?_eq_getElem hlen, hc])
        omega
      omega
    · exact h1

end Search
