import Scour.Text
import Mathlib.Data.List.Infix

/-!
# The relevance ladder

`relevance` as the search scores a name, and the ladder its documentation draws: a stem, a whole
name, a start, a word inside the name, any other match (`Rung`, `bestRung`).

A name on a higher rung scores higher, unless all it starts are words that begin past the first
place the term appears in, or one of the names matches nothing; then the penalties decide
(`ladder_iff`, `not_ladder`).
-/

namespace Scour

namespace Ladder

/-- Where `needle` first appears in `haystack`. -/
def find : Str → Str → Option Nat
  | [], needle => if needle.isPrefixOf [] then some 0 else none
  | b :: rest, needle =>
    if needle.isPrefixOf (b :: rest) then some 0 else (find rest needle).map (· + 1)

def isAsciiAlphanumeric (b : UInt8) : Bool :=
  (48 ≤ b && b ≤ 57) || (65 ≤ b && b ≤ 90) || (97 ≤ b && b ≤ 122)

/-- What one step away from home costs. -/
def STEP : Int := 8

/-- Where the name's last byte `b` stands. -/
def rposition (b : UInt8) (name : Str) : Option Nat :=
  (List.range name.length).reverse.find? fun i => name[i]? == some b

/-- Where the extension's dot stands, or the end. -/
def stemEnd (name : Str) : Nat := ((rposition 46 name).filter fun i => 0 < i).getD name.length

/-- What a term is worth that first appears at `at_`. -/
def score (name t : Str) (at_ : Nat) : Int :=
  if stemEnd name < name.length ∧ name.take (stemEnd name) = t then 4000
  else if name = t then 3000
  else if at_ = 0 then 2000
  else if !(name[at_ - 1]?.any isAsciiAlphanumeric) then 1000
  else 100

/-- The better of what was found so far and this term. -/
def better (name : Str) (best : Int) (t : Str) : Int :=
  if t.isEmpty then best
  else match find name t with
    | none => best
    | some at_ => max best (score name t at_)

/-- What the length of the name and its distance from home take away. -/
def penalty (name : Str) (steps : UInt8) : Int := min (name.length : Int) 255 + steps.toNat * STEP

def relevance (name : Str) (terms : List Str) (steps : UInt8) : Int :=
  if terms.isEmpty then 0
  else terms.foldl (better name) 0 - min (name.length : Int) 255 - steps.toNat * STEP

/-! ## The ladder -/

/-- The rungs, the lowest first. -/
inductive Rung where
  | other
  | word
  | start
  | whole
  | stem
deriving DecidableEq

def Rung.worth : Rung → Int
  | .other => 100
  | .word => 1000
  | .start => 2000
  | .whole => 3000
  | .stem => 4000

/-- How high up a name is, a name that matches nothing below all. -/
def height : Option Rung → Nat
  | none => 0
  | some .other => 1
  | some .word => 2
  | some .start => 3
  | some .whole => 4
  | some .stem => 5

/-- The term stands at `i`, after a byte that is no letter and no digit. -/
def startsWord (name t : Str) (i : Nat) : Bool :=
  decide (0 < i) && t.isPrefixOf (name.drop i) && !(name[i - 1]?.any isAsciiAlphanumeric)

/-- The term reaches the rung at some of its occurrences. -/
def reaches (name : Str) (r : Rung) (t : Str) : Bool :=
  match r with
  | .stem => decide (stemEnd name < name.length ∧ name.take (stemEnd name) = t)
  | .whole => decide (name = t)
  | .start => t.isPrefixOf name
  | .word => (List.range name.length).any (startsWord name t)
  | .other => decide (t <:+: name)

/-- The best rung any of the terms reaches. -/
def bestRung (name : Str) (terms : List Str) : Option Rung :=
  [Rung.stem, .whole, .start, .word, .other].find? fun r => terms.any (reaches name r)

/-- Some term starts a word where it first appears. -/
def startsFirst (name : Str) (terms : List Str) : Bool :=
  terms.any fun t => (find name t).any (startsWord name t)

/-- The name is on the lowest rung, or no term starts a word of it where it first appears. -/
def Weak (name : Str) (terms : List Str) : Prop :=
  bestRung name terms = some .other ∨
    bestRung name terms = some .word ∧ startsFirst name terms = false

/-- When a higher rung is a higher score: where `a` is weak, its penalty has to be smaller, by the
hundred that a match is worth when `b` matches nothing. -/
def Holds (terms : List Str) (a : Str) (sa : UInt8) (b : Str) (sb : UInt8) : Prop :=
  Weak a terms → height (bestRung b terms) < height (bestRung a terms) →
    penalty a sa < penalty b sb + if bestRung b terms = none then 100 else 0

instance (name : Str) (terms : List Str) : Decidable (Weak name terms) := by
  unfold Weak; infer_instance

instance (terms : List Str) (a : Str) (sa : UInt8) (b : Str) (sb : UInt8) :
    Decidable (Holds terms a sa b sb) := by
  unfold Holds; infer_instance

/-! ## One term -/

variable {name t : Str} {terms : List Str} {i : Nat}

theorem find_spec (h : find name t = some i) : t <+: name.drop i := by
  induction name generalizing i with
  | nil =>
    unfold find at h
    split at h
    · rename_i hp
      cases h
      exact List.isPrefixOf_iff_prefix.mp hp
    · cases h
  | cons b name ih =>
    unfold find at h
    split at h
    · rename_i hp
      cases h
      exact List.isPrefixOf_iff_prefix.mp hp
    · obtain ⟨j, hj, rfl⟩ := Option.map_eq_some_iff.mp h
      exact ih hj

theorem find_of_leading (h : t <+: name) : find name t = some 0 := by
  cases name with
  | nil => unfold find; rw [if_pos (List.isPrefixOf_iff_prefix.mpr h)]
  | cons b name => unfold find; rw [if_pos (List.isPrefixOf_iff_prefix.mpr h)]

theorem find_isSome_of_within (h : t <:+: name) : (find name t).isSome = true := by
  induction name with
  | nil =>
    rw [find_of_leading (by rw [List.infix_nil.mp h])]
    rfl
  | cons b name ih =>
    unfold find
    split
    · rfl
    · rename_i hp
      rcases List.infix_cons_iff.mp h with hpre | hinf
      · exact absurd (List.isPrefixOf_iff_prefix.mpr hpre) hp
      · rw [Option.isSome_map]
        exact ih hinf

theorem startsWord_lt (ht : t ≠ []) (h : startsWord name t i = true) : i < name.length := by
  unfold startsWord at h
  rw [Bool.and_eq_true, Bool.and_eq_true, List.isPrefixOf_iff_prefix] at h
  have hle := h.1.2.length_le
  rw [List.length_drop] at hle
  have := List.length_pos_iff.mpr ht
  omega

/-- What a rung is worth is what its term scores, for a word where the term first appears. -/
theorem le_score (hi : find name t = some i) :
    100 ≤ score name t i ∧ (startsWord name t i = true → 1000 ≤ score name t i) ∧
      (reaches name .start t = true → 2000 ≤ score name t i) ∧
      (reaches name .whole t = true → 3000 ≤ score name t i) ∧
      (reaches name .stem t = true → 4000 ≤ score name t i) := by
  have hstart : reaches name .start t = true → i = 0 := by
    intro h
    rw [find_of_leading (List.isPrefixOf_iff_prefix.mp h)] at hi
    exact (Option.some.inj hi).symm
  unfold score
  refine ⟨?_, fun h => ?_, fun h => ?_, fun h => ?_, fun h => ?_⟩
  · split_ifs <;> omega
  · unfold startsWord at h
    rw [Bool.and_eq_true] at h
    rw [if_pos h.2]
    split_ifs <;> omega
  · rw [if_pos (hstart h)]
    split_ifs <;> omega
  · rw [if_pos (of_decide_eq_true h)]
    split_ifs <;> omega
  · rw [if_pos (of_decide_eq_true h)]

/-- A term that reaches no higher rung scores no more. -/
theorem score_le (hi : find name t = some i) :
    score name t i ≤ 4000 ∧ (reaches name .stem t = false → score name t i ≤ 3000 ∧
      (reaches name .whole t = false → score name t i ≤ 2000 ∧
        (reaches name .start t = false → score name t i ≤ 1000 ∧
          (startsWord name t i = false → score name t i ≤ 100)))) := by
  have hpre := find_spec hi
  unfold score
  refine ⟨?_, fun hstem => ?_⟩
  · split_ifs <;> omega
  rw [if_neg (of_decide_eq_false hstem)]
  refine ⟨?_, fun hwhole => ?_⟩
  · split_ifs <;> omega
  rw [if_neg (of_decide_eq_false hwhole)]
  refine ⟨?_, fun hstart => ?_⟩
  · split_ifs <;> omega
  have hpos : i ≠ 0 := by
    rintro rfl
    rw [List.drop_zero, ← List.isPrefixOf_iff_prefix] at hpre
    exact Bool.false_ne_true (hstart.symm.trans hpre)
  rw [if_neg hpos]
  refine ⟨?_, fun hword => ?_⟩
  · split_ifs <;> omega
  rw [if_neg fun h => ?_]
  unfold startsWord at hword
  rw [h, List.isPrefixOf_iff_prefix.mpr hpre, decide_eq_true (Nat.pos_of_ne_zero hpos)] at hword
  cases hword

/-! ## All terms -/

theorem le_foldl_better (name : Str) (terms : List Str) :
    ∀ best : Int, best ≤ terms.foldl (better name) best ∧
      ∀ t ∈ terms, t ≠ [] → ∀ i, find name t = some i →
        score name t i ≤ terms.foldl (better name) best := by
  induction terms with
  | nil => exact fun best => ⟨Int.le_refl best, nofun⟩
  | cons u terms ih =>
    intro best
    obtain ⟨hbest, hterms⟩ := ih (better name best u)
    have hu : best ≤ better name best u ∧
        (u ≠ [] → ∀ i, find name u = some i → score name u i ≤ better name best u) := by
      unfold better
      split
      · rename_i hnil
        exact ⟨Int.le_refl best, fun hne => absurd (List.isEmpty_iff.mp hnil) hne⟩
      · split
        · rename_i hnone
          refine ⟨Int.le_refl best, fun _ i hi => ?_⟩
          rw [hnone] at hi
          cases hi
        · rename_i j hj
          refine ⟨by omega, fun _ i hi => ?_⟩
          rw [hj, Option.some.injEq] at hi
          subst hi
          omega
    rw [List.foldl_cons]
    refine ⟨by omega, fun t ht hne i hi => ?_⟩
    rcases List.mem_cons.mp ht with rfl | ht
    · have := hu.2 hne i hi
      omega
    · exact hterms t ht hne i hi

theorem foldl_better_le {k : Int}
    (h : ∀ t ∈ terms, ∀ i, find name t = some i → score name t i ≤ k) :
    ∀ best : Int, best ≤ k → terms.foldl (better name) best ≤ k := by
  induction terms with
  | nil => exact fun best hbest => hbest
  | cons u terms ih =>
    intro best hbest
    rw [List.foldl_cons]
    refine ih (fun t ht => h t (List.mem_cons_of_mem u ht)) _ ?_
    unfold better
    split
    · exact hbest
    · split
      · exact hbest
      · rename_i i hi
        have := h u List.mem_cons_self i hi
        omega

/-- Some term reaches the best rung, and none a higher one. -/
theorem bestRung_some {r : Rung} (h : bestRung name terms = some r) :
    (∃ t ∈ terms, reaches name r t = true) ∧
      ∀ r', height (some r) < height (some r') → ∀ t ∈ terms, reaches name r' t = false := by
  obtain ⟨hr, as, bs, heq, hno⟩ := List.find?_eq_some_iff_append.mp h
  refine ⟨List.any_eq_true.mp hr, fun r' hlt t ht => ?_⟩
  have hsorted : (as ++ r :: bs).Pairwise fun x y => height (some y) < height (some x) := by
    rw [← heq]
    decide
  have hmem : r' ∈ as ++ r :: bs := by
    rw [← heq]
    cases r' <;> decide
  rcases List.mem_append.mp hmem with hmem | hmem
  · have hfalse := hno r' hmem
    rw [Bool.not_eq_true', List.any_eq_false] at hfalse
    exact Bool.not_eq_true _ ▸ hfalse t ht
  · rcases List.mem_cons.mp hmem with rfl | hmem
    · omega
    · have := List.rel_of_pairwise_cons (List.pairwise_append.mp hsorted).2.1 hmem
      omega

theorem bestRung_none (h : bestRung name terms = none) : ∀ t ∈ terms, ¬ t <:+: name := by
  intro t ht hinf
  refine List.find?_eq_none.mp h .other (by decide) (List.any_eq_true.mpr ⟨t, ht, ?_⟩)
  exact decide_eq_true hinf

/-- What the best term of a name scores, but for a name where nothing starts a word at once. -/
def worth (name : Str) (terms : List Str) : Int :=
  match bestRung name terms with
  | none => 0
  | some .word => if startsFirst name terms then 1000 else 100
  | some r => r.worth

theorem infix_of_reaches {r : Rung} (h : reaches name r t = true) : t <:+: name := by
  cases r with
  | other => exact of_decide_eq_true h
  | word =>
    obtain ⟨i, -, hi⟩ := List.any_eq_true.mp h
    unfold startsWord at hi
    rw [Bool.and_eq_true, Bool.and_eq_true, List.isPrefixOf_iff_prefix] at hi
    exact hi.1.2.isInfix.trans (List.drop_suffix i name).isInfix
  | start => exact (List.isPrefixOf_iff_prefix.mp h).isInfix
  | whole =>
    rw [of_decide_eq_true h]
  | stem =>
    rw [← (of_decide_eq_true h).2]
    exact (List.take_prefix _ name).isInfix

/-- **What `relevance` starts from** is the worth of the best rung. -/
theorem foldl_better_eq (hterms : ∀ t ∈ terms, t ≠ []) :
    terms.foldl (better name) 0 = worth name terms := by
  obtain ⟨hzero, hle⟩ := le_foldl_better name terms 0
  have hlower : ∀ (t : Str) (k : Int), t ∈ terms → t <:+: name →
      (∀ i, find name t = some i → k ≤ score name t i) → k ≤ terms.foldl (better name) 0 := by
    intro t k ht hinf hk
    obtain ⟨i, hi⟩ := Option.isSome_iff_exists.mp (find_isSome_of_within hinf)
    exact Int.le_trans (hk i hi) (hle t ht (hterms t ht) i hi)
  have hupper : ∀ k : Int, 0 ≤ k →
      (∀ t ∈ terms, ∀ i, find name t = some i → score name t i ≤ k) →
        terms.foldl (better name) 0 ≤ k := fun k hk h => foldl_better_le h 0 hk
  unfold worth
  cases hbest : bestRung name terms with
  | none =>
    refine Int.le_antisymm (hupper 0 (Int.le_refl 0) fun t ht i hi => ?_) hzero
    exact absurd ((find_spec hi).isInfix.trans (List.drop_suffix i name).isInfix)
      (bestRung_none hbest t ht)
  | some r =>
    obtain ⟨⟨t, ht, hreach⟩, hno⟩ := bestRung_some hbest
    have hinf := infix_of_reaches hreach
    cases r with
    | stem =>
      refine Int.le_antisymm (hupper 4000 (by omega) fun u hu i hi => (score_le hi).1) ?_
      exact hlower t 4000 ht hinf fun i hi => (le_score hi).2.2.2.2 hreach
    | whole =>
      refine Int.le_antisymm (hupper 3000 (by omega) fun u hu i hi => ?_) ?_
      · exact ((score_le hi).2 (hno .stem (by decide) u hu)).1
      · exact hlower t 3000 ht hinf fun i hi => (le_score hi).2.2.2.1 hreach
    | start =>
      refine Int.le_antisymm (hupper 2000 (by omega) fun u hu i hi => ?_) ?_
      · exact (((score_le hi).2 (hno .stem (by decide) u hu)).2 (hno .whole (by decide) u hu)).1
      · exact hlower t 2000 ht hinf fun i hi => (le_score hi).2.2.1 hreach
    | word =>
      have hword : ∀ u ∈ terms, ∀ i, find name u = some i →
          score name u i ≤ 1000 ∧ (startsWord name u i = false → score name u i ≤ 100) :=
        fun u hu i hi => (((score_le hi).2 (hno .stem (by decide) u hu)).2
          (hno .whole (by decide) u hu)).2 (hno .start (by decide) u hu)
      cases hfirst : startsFirst name terms with
      | true =>
        obtain ⟨u, hu, hany⟩ := List.any_eq_true.mp hfirst
        obtain ⟨i, hi, hstarts⟩ := (Option.any_eq_true _ _).mp hany
        refine Int.le_antisymm (hupper 1000 (by omega) fun u hu i hi => (hword u hu i hi).1) ?_
        exact Int.le_trans ((le_score hi).2.1 hstarts) (hle u hu (hterms u hu) i hi)
      | false =>
        refine Int.le_antisymm (hupper 100 (by omega) fun u hu i hi => ?_) ?_
        · have hlate : (find name u).any (startsWord name u) = false :=
            Bool.not_eq_true _ ▸ List.any_eq_false.mp hfirst u hu
          exact (hword u hu i hi).2 ((Option.any_eq_false _ _).mp hlate i hi)
        · exact hlower t 100 ht hinf fun i hi => (le_score hi).1
    | other =>
      refine Int.le_antisymm (hupper 100 (by omega) fun u hu i hi => ?_) ?_
      · have hword : startsWord name u i = false := by
          cases hstarts : startsWord name u i with
          | false => rfl
          | true =>
            have hlt := startsWord_lt (hterms u hu) hstarts
            have hany := List.any_eq_true.mpr ⟨i, List.mem_range.mpr hlt, hstarts⟩
            exact absurd hany (Bool.eq_false_iff.mp (hno .word (by decide) u hu))
        exact ((((score_le hi).2 (hno .stem (by decide) u hu)).2
          (hno .whole (by decide) u hu)).2 (hno .start (by decide) u hu)).2 hword
      · exact hlower t 100 ht hinf fun i hi => (le_score hi).1

theorem relevance_eq (hne : terms ≠ []) (hterms : ∀ t ∈ terms, t ≠ []) (steps : UInt8) :
    relevance name terms steps = worth name terms - penalty name steps := by
  unfold relevance penalty
  rw [if_neg (by simpa using hne), foldl_better_eq hterms]
  omega

theorem worth_of_weak (h : Weak name terms) : worth name terms = 100 := by
  unfold worth
  rcases h with h | ⟨h, hfirst⟩
  · rw [h]
    rfl
  · rw [h, hfirst]
    rfl

theorem worth_le {r : Rung} (h : bestRung name terms = some r) :
    worth name terms ≤ r.worth ∧ (¬ Weak name terms → worth name terms = r.worth) := by
  unfold worth Weak
  rw [h]
  cases r with
  | word =>
    cases startsFirst name terms with
    | true => exact ⟨Int.le_refl _, fun _ => rfl⟩
    | false => exact ⟨by decide, fun hweak => absurd (Or.inr ⟨rfl, rfl⟩) hweak⟩
  | _ => exact ⟨Int.le_refl _, fun _ => rfl⟩

/-- The narrowest gap between rungs is 900. -/
theorem gap {r r' : Rung} (h : height (some r') < height (some r)) : r'.worth + 900 ≤ r.worth := by
  revert h
  cases r <;> cases r' <;> decide

/-- The penalties are less than the gap between two rungs. -/
theorem penalty_bounds {steps : UInt8} (h : steps ≤ 60) :
    0 ≤ penalty name steps ∧ penalty name steps ≤ 735 := by
  have h60 : steps.toNat ≤ 60 := h
  unfold penalty STEP
  omega

/-- A name that is not weak is worth 900 more than one on a lower rung. -/
theorem worth_add_le {a b : Str} (hlt : height (bestRung b terms) < height (bestRung a terms))
    (ha : ¬ Weak a terms) : worth b terms + 900 ≤ worth a terms := by
  cases hra : bestRung a terms with
  | none =>
    rw [hra] at hlt
    exact absurd hlt (Nat.not_lt_zero _)
  | some r =>
    rw [(worth_le hra).2 ha]
    cases hrb : bestRung b terms with
    | none =>
      -- the lowest rung is weak
      have hr : r ≠ .other := by
        rintro rfl
        exact ha (Or.inl hra)
      have hzero : worth b terms = 0 := by
        unfold worth
        rw [hrb]
      rw [hzero]
      cases r with
      | other => exact absurd rfl hr
      | _ => decide
    | some r' =>
      rw [hra, hrb] at hlt
      have := (worth_le hrb).1
      have := gap hlt
      omega

/-- Below a weak name there is the lowest rung, or none. -/
theorem worth_below_weak {a b : Str} (hlt : height (bestRung b terms) < height (bestRung a terms))
    (ha : Weak a terms) : worth b terms = if bestRung b terms = none then 0 else 100 := by
  have hheight : height (bestRung a terms) ≤ 2 := by
    rcases ha with ha | ⟨ha, -⟩
    · rw [ha]
      decide
    · rw [ha]
      decide
  unfold worth
  cases hrb : bestRung b terms with
  | none => rfl
  | some r =>
    rw [hrb] at hlt
    cases r with
    | other => rfl
    | _ => exact absurd (Nat.lt_of_lt_of_le hlt hheight) (by decide)

/-- **The ladder is what it documents** just when `Holds`. -/
theorem ladder_iff (terms : List Str) (hne : terms ≠ []) (hterms : ∀ t ∈ terms, t ≠ [])
    (a b : Str) (sa sb : UInt8) (hsa : sa ≤ 60) (hsb : sb ≤ 60) :
    (height (bestRung b terms) < height (bestRung a terms) →
        relevance b terms sb < relevance a terms sa) ↔ Holds terms a sa b sb := by
  obtain ⟨ha₀, ha⟩ := @penalty_bounds a _ hsa
  obtain ⟨hb₀, hb⟩ := @penalty_bounds b _ hsb
  rw [relevance_eq hne hterms, relevance_eq hne hterms]
  unfold Holds
  by_cases hweak : Weak a terms
  · have hworth := worth_of_weak hweak
    refine ⟨fun h _ hlt => ?_, fun h hlt => ?_⟩
    · have hbelow := worth_below_weak hlt hweak
      have := h hlt
      split_ifs at hbelow ⊢ <;> omega
    · have hbelow := worth_below_weak hlt hweak
      have := h hweak hlt
      split_ifs at hbelow this <;> omega
  · refine ⟨fun _ h => absurd h hweak, fun _ hlt => ?_⟩
    have := worth_add_le hlt hweak
    omega

/-- `my-main.rs` is above `domain` for `main`, as far away as a name gets. -/
theorem ladder_iff_main :
    relevance (utf8 "domain".toList) [utf8 "main".toList] 0 <
      relevance (utf8 "my-main.rs".toList) [utf8 "main".toList] 60 :=
  (ladder_iff [utf8 "main".toList] (by decide) (by decide) (utf8 "my-main.rs".toList)
    (utf8 "domain".toList) 60 0 (by decide) (by decide)).mpr (by decide +kernel) (by decide +kernel)

/-- A word of `domain-main` is `main`, but not where `main` first appears, and it scores below
`domain`, of which it is none. -/
theorem not_ladder :
    height (bestRung (utf8 "domain".toList) [utf8 "main".toList]) <
        height (bestRung (utf8 "domain-main".toList) [utf8 "main".toList]) ∧
      relevance (utf8 "domain-main".toList) [utf8 "main".toList] 0 <
        relevance (utf8 "domain".toList) [utf8 "main".toList] 0 := by
  decide +kernel

end Ladder

end Scour
