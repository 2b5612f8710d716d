import Scour.Admits
import Scour.PendingWalks
import Scour.Usage

/-!
# Prefix sets, made and asked

What a set made with `new`, `extend` and `forget` of absolute paths covers, in terms of the parts of
paths (`covers_made`): both strategies of `covers` find a member at or above the path.

`reduce` looks at the last path kept only.  It leaves no path at or under another exactly where
nothing sorts between a path with none above it and what is below that path, without being below it
too (`reduced_iff`): `/a-b` does, between `/a` and `/a/c`.
-/

namespace Scour

/-! ## At or above, by the parts of paths -/

/-- What stands between a path's separators, those at its end left out: `[""]` for the root, and
`["", "a", "b"]` for `/a/b/`. -/
def parts (p : Str) : List Str := Search.split slash (trimEnd p)

/-- The parts of the one are the first of the other's. -/
def AtOrAbove (m x : Str) : Prop := parts m <+: parts x

instance (m x : Str) : Decidable (AtOrAbove m x) := by unfold AtOrAbove; infer_instance

/-- A path of the file system: it starts at the root. -/
def Rooted (p : Str) : Prop := p.head? = some slash

instance (p : Str) : Decidable (Rooted p) := by unfold Rooted; infer_instance

theorem trimEnd_of_rooted {p : Str} (h : Rooted p) :
    trimEnd p = [] ∨ Below (trimEnd p) [] := by
  obtain ⟨t, ht⟩ := prefix_trimEnd p
  rcases hq : trimEnd p with _ | ⟨a, q⟩
  · exact Or.inl rfl
  · right
    rw [hq] at ht
    rw [Rooted, ← ht] at h
    exact ⟨q, by rw [Option.some.inj h]; rfl⟩

/-- For a path from the root, being under a path is having its parts first. -/
theorem under_iff_atOrAbove {m x : Str} (hx : Rooted x) : under x m = true ↔ AtOrAbove m x := by
  unfold AtOrAbove parts
  rw [Search.split_prefix_iff, ← under_trimEnd,
    PrefixSet.under_iff_mem_ancestors x (trimEnd m) (trimEnd_trimEnd m), PrefixSet.mem_ancestors,
    eq_comm]
  constructor
  · rintro (h | h | h)
    · exact Or.inl h
    · exact Or.inr h
    · rw [h]
      exact trimEnd_of_rooted hx
  · rintro (h | h)
    · exact Or.inl h
    · exact Or.inr (Or.inl h)

/-! ## What a set covers, over its calls -/

namespace PrefixSet

/-- The sets that `new`, `extend` and `forget` make of paths from the root, with all that was put
in. -/
inductive Made : List Str → PrefixSet → Prop
  | empty : Made [] empty
  | new (paths : List Str) (hpaths : ∀ p ∈ paths, Rooted p) : Made paths (new paths)
  | extend (put : List Str) (s : PrefixSet) (paths : List Str) (h : Made put s)
      (hpaths : ∀ p ∈ paths, Rooted p) : Made (put ++ paths) (s.extend paths)
  | forget (put : List Str) (s : PrefixSet) (path : Str) (h : Made put s) :
      Made put (s.forget path)

theorem mem_extend {s : PrefixSet} {paths : List Str} {m : Str} (hm : m ∈ (s.extend paths).paths) :
    m ∈ s.paths ∨ ∃ p ∈ paths, trimEnd p = m := by
  obtain ⟨q, hq, rfl⟩ := (reduce_spec _).1 m hm
  rcases List.mem_append.mp hq with hq | hq
  · rw [s.trimmed q hq]
    exact Or.inl hq
  · exact Or.inr ⟨q, hq, rfl⟩

theorem Made.mem {put : List Str} {s : PrefixSet} (h : Made put s) :
    ∀ m ∈ s.paths, ∃ p ∈ put, trimEnd p = m := by
  induction h with
  | empty => exact nofun
  | new paths hpaths => exact (reduce_spec paths).1
  | extend put s paths h hpaths ih =>
    intro m hm
    rcases mem_extend hm with hm | ⟨p, hp, hm⟩
    · obtain ⟨p, hp, hm⟩ := ih m hm
      exact ⟨p, List.mem_append_left _ hp, hm⟩
    · exact ⟨p, List.mem_append_right _ hp, hm⟩
  | forget put s path h ih => exact fun m hm => ih m ((mem_forget s path m).mp hm).1

/-- The two ways of asking agree whatever the number of members. -/
theorem any_under_eq (s : PrefixSet) (path : Str) :
    (s.paths.any fun m => under path m) = (ancestors path).any fun a => s.lookup.contains a := by
  rw [Bool.eq_iff_iff, List.any_eq_true, List.any_eq_true]
  constructor
  · rintro ⟨m, hm, hu⟩
    have ha := (under_iff_mem_ancestors path m (s.trimmed m hm)).mp hu
    exact ⟨m, ha, List.contains_iff_mem.mpr ((s.same m).mpr hm)⟩
  · rintro ⟨a, ha, hl⟩
    have hm := (s.same a).mp (List.contains_iff_mem.mp hl)
    exact ⟨a, hm, (under_iff_mem_ancestors path a (s.trimmed a hm)).mpr ha⟩

theorem covers_iff_atOrAbove (s : PrefixSet) {x : Str} (hx : Rooted x) :
    s.covers x = true ↔ ∃ m ∈ s.paths, AtOrAbove m x := by
  rw [covers_iff]
  constructor
  · rintro ⟨m, hm, hu⟩
    exact ⟨m, hm, (under_iff_atOrAbove hx).mp hu⟩
  · rintro ⟨m, hm, hu⟩
    exact ⟨m, hm, (under_iff_atOrAbove hx).mpr hu⟩

theorem covers_extend_iff (s : PrefixSet) (paths : List Str) {x : Str} (hx : Rooted x) :
    (s.extend paths).covers x = true ↔ s.covers x = true ∨ ∃ p ∈ paths, AtOrAbove p x := by
  rw [covers_extend]
  constructor
  · rintro (h | ⟨m, hm, hu⟩)
    · exact Or.inl h
    · exact Or.inr ⟨m, hm, (under_iff_atOrAbove hx).mp hu⟩
  · rintro (h | ⟨m, hm, hu⟩)
    · exact Or.inl h
    · exact Or.inr ⟨m, hm, (under_iff_atOrAbove hx).mpr hu⟩

/-- **A prefix set covers what was put in it**, in every sequence of calls and however it is asked:
a path is covered where a member is at or above it; `extend` adds what the new paths are at or above,
and `forget` takes nothing from another member. -/
theorem covers_made {put : List Str} {s : PrefixSet} (h : Made put s) {x : Str} (hx : Rooted x) :
    (∀ m ∈ s.paths, ∃ p ∈ put, trimEnd p = m) ∧
      (s.covers x = true ↔ ∃ m ∈ s.paths, AtOrAbove m x) ∧
      ((s.paths.any fun m => under x m) = (ancestors x).any fun a => s.lookup.contains a) ∧
      (∀ paths, (s.extend paths).covers x = true ↔
        s.covers x = true ∨ ∃ p ∈ paths, AtOrAbove p x) ∧
      ∀ path, ∀ m ∈ s.paths, m ≠ trimEnd path →
        m ∈ (s.forget path).paths ∧ (AtOrAbove m x → (s.forget path).covers x = true) := by
  refine ⟨h.mem, covers_iff_atOrAbove s hx, any_under_eq s x,
    fun paths => covers_extend_iff s paths hx, fun path m hm hne => ?_⟩
  have hleft : m ∈ (s.forget path).paths := (mem_forget s path m).mpr ⟨hm, hne⟩
  exact ⟨hleft, fun hat => (covers_iff_atOrAbove _ hx).mpr ⟨m, hleft, hat⟩⟩

theorem covers_made_sibling :
    let s := new [str "/a", str "/a-b/"]
    (s.covers (str "/a/c") = true ↔ ∃ m ∈ s.paths, AtOrAbove m (str "/a/c")) ∧
      (s.forget (str "/a-b")).covers (str "/a/c") = true := by
  have hput : Made [str "/a", str "/a-b/"] (new [str "/a", str "/a-b/"]) :=
    .new _ (by decide)
  obtain ⟨-, hcovers, -, -, hforget⟩ := covers_made hput (x := str "/a/c") (by decide)
  exact ⟨hcovers, (hforget (str "/a-b") (str "/a") (by decide) (by decide)).2 (by decide)⟩

end PrefixSet

/-! ## When a reduced list is reduced -/

theorem AtOrAbove.under {m x : Str} (h : AtOrAbove m x) : under x m = true := by
  unfold AtOrAbove parts at h
  rw [Search.split_prefix_iff] at h
  rw [← under_trimEnd, PrefixSet.under_iff_mem_ancestors x (trimEnd m) (trimEnd_trimEnd m),
    PrefixSet.mem_ancestors]
  rcases h with h | h
  · exact Or.inl h.symm
  · exact Or.inr (Or.inl h)

theorem trimEnd_or_atOrAbove {m x : Str} (h : under x m = true) :
    trimEnd m = [] ∨ AtOrAbove m x := by
  rw [← under_trimEnd, PrefixSet.under_iff_mem_ancestors x (trimEnd m) (trimEnd_trimEnd m),
    PrefixSet.mem_ancestors] at h
  unfold AtOrAbove parts
  rw [Search.split_prefix_iff]
  rcases h with h | h | h
  · exact Or.inr (Or.inl h.symm)
  · exact Or.inr (Or.inr h)
  · exact Or.inl h

theorem under_of_trimEnd_eq_nil {m : Str} (h : trimEnd m = []) (x : Str) : under x m = true := by
  rw [under_iff]
  exact Or.inl h

/-- The paths above one path are above each other. -/
theorem under_chain {m n x : Str} (hm : under x m = true) (hn : under x n = true) :
    under m n = true ∨ under n m = true := by
  rcases trimEnd_or_atOrAbove hm with h | hm
  · exact Or.inr (under_of_trimEnd_eq_nil h n)
  rcases trimEnd_or_atOrAbove hn with h | hn
  · exact Or.inl (under_of_trimEnd_eq_nil h m)
  rcases List.prefix_or_prefix_of_prefix hm hn with h | h
  · exact Or.inr (AtOrAbove.under h)
  · exact Or.inl (AtOrAbove.under h)

section Trimmed

variable {a b : Str}

theorem le_of_under (hb : trimEnd b = b) (h : under a b = true) : b ≤ a := by
  rw [under_iff, hb] at h
  rcases h with rfl | rfl | h
  · exact not_lt.mp (List.not_lt_nil a)
  · exact le_refl _
  · exact h.lt.le

end Trimmed

/-- Of a list, only itself has it below. -/
def Topmost (l : List Str) (q : Str) : Prop := ∀ r ∈ l, under q r = true → r = q

theorem exists_topmost {l : List Str} (hl : ∀ p ∈ l, trimEnd p = p) {p : Str} (hp : p ∈ l) :
    ∃ q ∈ l, Topmost l q ∧ under p q = true := by
  have hne : ((l.filter fun q => under p q).toFinset).Nonempty := by
    refine ⟨p, ?_⟩
    rw [List.mem_toFinset, List.mem_filter]
    exact ⟨hp, under_refl p⟩
  obtain ⟨q, hq, hmin⟩ := Finset.exists_min_image _ id hne
  rw [List.mem_toFinset, List.mem_filter] at hq
  refine ⟨q, hq.1, fun r hr hqr => ?_, hq.2⟩
  have hpr : under p r = true := under_trans hq.2 (by rwa [hl q hq.1])
  refine le_antisymm (le_of_under (hl r hr) hqr) (hmin r ?_)
  rw [List.mem_toFinset, List.mem_filter]
  exact ⟨hr, hpr⟩

/-- What sorts between a topmost path and one below it is below it too. -/
def Enclosed (l : List Str) : Prop :=
  ∀ q ∈ l, Topmost l q → ∀ p ∈ l, under p q = true → ∀ x ∈ l, q < x → x < p → under x q = true

/-- Neither of two is at or under the other. -/
def Separate (a b : Str) : Prop := under a b = false ∧ under b a = false

/-! ### The loop over the sorted list -/

section Loop

variable {l : List Str}

/-- Where the loop stands: it keeps members of the list in order, and what comes from the last one
kept on is under that one. -/
structure Kept (pre kept : List Str) : Prop where
  sublist : kept.Sublist pre
  last : ∀ k, kept.getLast? = some k → ∀ x ∈ pre, k ≤ x → under x k = true
  nonempty : kept = [] → pre = []

theorem kept_foldl (hsorted : l.Pairwise (· < ·)) :
    Kept l (l.foldl keepStep []) := by
  induction l using List.reverseRecOn with
  | nil => exact ⟨List.Sublist.refl _, nofun, fun _ => rfl⟩
  | append_singleton pre p ih =>
    obtain ⟨hpre, -, hbefore⟩ := List.pairwise_append.mp hsorted
    have h := ih hpre
    rw [List.foldl_append, List.foldl_cons, List.foldl_nil]
    generalize pre.foldl keepStep [] = kept at h
    have hnew : Kept (pre ++ [p]) (kept ++ [p]) := by
      refine ⟨h.sublist.append (List.Sublist.refl _), fun k hk x hx hle => ?_, by simp⟩
      obtain rfl : p = k := by simpa using hk
      rcases List.mem_append.mp hx with hx | hx
      · exact absurd (hbefore x hx p (by simp)) (not_lt.mpr hle)
      · rw [List.mem_singleton.mp hx]
        exact under_refl p
    unfold keepStep
    split
    · exact hnew
    · rename_i k hk
      split
      · rename_i hunder
        refine ⟨h.sublist.trans (List.sublist_append_left pre [p]), fun k' hk' x hx hle => ?_,
          fun hnil => ?_⟩
        · obtain rfl : k = k' := by
            rw [hk] at hk'
            exact Option.some.inj hk'
          rcases List.mem_append.mp hx with hx | hx
          · exact h.last k hk x hx hle
          · rw [List.mem_singleton.mp hx]
            exact hunder
        · rw [hnil] at hk
          cases hk
      · exact hnew

theorem mem_before {pre post : List Str} {p q : Str} (hsorted : (pre ++ p :: post).Pairwise (· < ·))
    (hq : q ∈ pre ++ p :: post) (hlt : q < p) : q ∈ pre := by
  rcases List.mem_append.mp hq with hq | hq
  · exact hq
  · exfalso
    obtain ⟨-, hpost, -⟩ := List.pairwise_append.mp hsorted
    rcases List.mem_cons.mp hq with rfl | hq
    · exact lt_irrefl _ hlt
    · exact lt_asymm hlt (List.rel_of_pairwise_cons hpost hq)

/-- Where what sorts between is below too, only topmost paths are kept. -/
theorem topmost_of_kept (hsorted : l.Pairwise (· < ·)) (htrim : ∀ p ∈ l, trimEnd p = p)
    (henclosed : Enclosed l) (pre post : List Str) (hl : pre ++ post = l) :
    ∀ k ∈ pre.foldl keepStep [], Topmost l k := by
  induction pre using List.reverseRecOn generalizing post with
  | nil => exact nofun
  | append_singleton pre p ih =>
    have hl' : pre ++ p :: post = l := by simpa using hl
    have hold := ih (p :: post) hl'
    have hpre : pre.Pairwise (· < ·) := hsorted.sublist (hl' ▸ List.sublist_append_left _ _)
    have hkept := kept_foldl hpre
    rw [List.foldl_append, List.foldl_cons, List.foldl_nil]
    generalize pre.foldl keepStep [] = kept at hold hkept
    have hpl : p ∈ l := hl' ▸ by simp
    have hprel : ∀ x ∈ pre, x ∈ l := fun x hx => hl' ▸ List.mem_append_left _ hx
    have hbefore : ∀ x ∈ pre, x < p := by
      rw [← hl'] at hsorted
      exact fun x hx => (List.pairwise_append.mp hsorted).2.2 x hx p (by simp)
    -- a path that the last one kept is not above has nothing above it
    have hnew : (∀ k, kept.getLast? = some k → under p k = false) → Topmost l p := by
      intro hlast
      obtain ⟨q, hq, htop, hpq⟩ := exists_topmost htrim hpl
      rcases eq_or_lt_of_le (le_of_under (htrim q hq) hpq) with rfl | hlt
      · exact htop
      exfalso
      have hqpre : q ∈ pre := mem_before (hl' ▸ hsorted) (hl' ▸ hq) hlt
      cases hk : kept.getLast? with
      | none =>
        rw [hkept.nonempty (List.getLast?_eq_none_iff.mp hk)] at hqpre
        cases hqpre
      | some k =>
        have hkk : k ∈ kept := List.mem_of_getLast? hk
        have hkpre : k ∈ pre := hkept.sublist.subset hkk
        rcases lt_trichotomy q k with hqk | rfl | hkq
        · have hkq := henclosed q hq htop p hpl hpq k (hprel k hkpre) hqk (hbefore k hkpre)
          exact hqk.ne (hold k hkk q hq hkq)
        · rw [hlast q hk] at hpq
          cases hpq
        · have hqk := hkept.last k hk q hqpre hkq.le
          exact hkq.ne (htop k (hprel k hkpre) hqk)
    have happend : (∀ k, kept.getLast? = some k → under p k = false) →
        ∀ k ∈ kept ++ [p], Topmost l k := by
      intro hlast k hk
      rcases List.mem_append.mp hk with hk | hk
      · exact hold k hk
      · rw [List.mem_singleton.mp hk]
        exact hnew hlast
    unfold keepStep
    split
    · rename_i hnone
      exact happend fun k hk => by rw [hnone] at hk; cases hk
    · rename_i k hk
      split
      · exact hold
      · rename_i hunder
        refine happend fun k' hk' => ?_
        rw [hk] at hk'
        rw [← Option.some.inj hk']
        exact Bool.eq_false_iff.mpr hunder

instance (a b : Str) : Decidable (Separate a b) := by unfold Separate; infer_instance

instance : Std.Symm Separate := ⟨fun _ _ h => ⟨h.2, h.1⟩⟩

theorem separate_foldl_iff (hsorted : l.Pairwise (· < ·)) (htrim : ∀ p ∈ l, trimEnd p = p) :
    (l.foldl keepStep []).Pairwise Separate ↔ Enclosed l := by
  have hsub := (kept_foldl hsorted).sublist
  constructor
  · intro hsep q hq htop p hp hpq x hx hqx hxp
    by_contra hnot
    obtain ⟨-, -, hcov⟩ := foldl_keepStep l htrim []
    obtain ⟨k, hk, hqk⟩ := hcov q hq
    obtain rfl : k = q := htop k (hsub.subset hk) hqk
    obtain ⟨pre, post, rfl⟩ := List.append_of_mem hp
    have hsplit : pre ++ p :: post = (pre ++ [p]) ++ post := by simp
    have hsorted' : (pre ++ [p]).Pairwise (· < ·) := by
      rw [hsplit] at hsorted
      exact (List.pairwise_append.mp hsorted).1
    have hkept := kept_foldl hsorted'
    cases hlast : ((pre ++ [p]).foldl keepStep []).getLast? with
    | none =>
      have := hkept.nonempty (List.getLast?_eq_none_iff.mp hlast)
      simp at this
    | some m =>
      have hm : m ∈ pre ++ [p] := hkept.sublist.subset (List.mem_of_getLast? hlast)
      have hmall : m ∈ (pre ++ p :: post).foldl keepStep [] := by
        rw [hsplit, List.foldl_append]
        have htrim' : ∀ p ∈ post, trimEnd p = p := fun p hp =>
          htrim p (List.mem_append_right _ (List.mem_cons_of_mem _ hp))
        exact (foldl_keepStep post htrim' _).2.1 m (List.mem_of_getLast? hlast)
      have hmp : m ≤ p := by
        rcases List.mem_append.mp hm with hm | hm
        · exact ((List.pairwise_append.mp hsorted').2.2 m hm p (by simp)).le
        · exact (List.mem_singleton.mp hm).le
      have hpm : under p m = true := hkept.last m hlast p (by simp) hmp
      have hmk : m ≠ k := by
        rintro rfl
        have hxpre : x ∈ pre := mem_before hsorted hx hxp
        exact hnot (hkept.last m hlast x (List.mem_append_left _ hxpre) hqx.le)
      have hsepmk := hsep.forall hmall hk hmk
      rcases under_chain hpm hpq with h | h
      · rw [hsepmk.1] at h
        cases h
      · rw [hsepmk.2] at h
        cases h
  · intro henclosed
    have hall := topmost_of_kept hsorted htrim henclosed l [] (List.append_nil l)
    have hnodup : (l.foldl keepStep []).Nodup :=
      (hsorted.sublist hsub).imp fun h => h.ne
    refine hnodup.pairwise_of_forall_ne fun a ha b hb hne => ⟨?_, ?_⟩
    · rw [Bool.eq_false_iff]
      exact fun h => hne (hall a ha b (hsub.subset hb) h).symm
    · rw [Bool.eq_false_iff]
      exact fun h => hne (hall b hb a (hsub.subset ha) h)

end Loop

/-- Nothing of the list sorts between a path with none of the list above it and one below that path,
without being below it too. -/
def Unbroken (paths : List Str) : Prop :=
  ∀ q ∈ paths, (∀ r ∈ paths, under q r = true → trimEnd r = trimEnd q) →
    ∀ p ∈ paths, under p q = true →
      ∀ x ∈ paths, trimEnd q < trimEnd x → trimEnd x < trimEnd p → under x q = true

instance (paths : List Str) : Decidable (Unbroken paths) := by unfold Unbroken; infer_instance

theorem under_trimEnd_left (path pfx : Str) : under (trimEnd path) pfx = under path pfx := by
  rw [Bool.eq_iff_iff, ← under_trimEnd, ← under_trimEnd path,
    PrefixSet.under_iff_mem_ancestors _ _ (trimEnd_trimEnd pfx),
    PrefixSet.under_iff_mem_ancestors _ _ (trimEnd_trimEnd pfx),
    PrefixSet.mem_ancestors, PrefixSet.mem_ancestors, trimEnd_trimEnd]

theorem enclosed_iff_unbroken (paths : List Str) :
    Enclosed (((paths.map trimEnd).insertionSort (· ≤ ·)).dedup) ↔ Unbroken paths := by
  unfold Enclosed Topmost Unbroken
  simp only [mem_sorted_trimmed, forall_exists_index, and_imp, forall_apply_eq_imp_iff₂,
    under_trimEnd, under_trimEnd_left]

/-- `reduce` leaves no path at or under another exactly where the list is unbroken. -/
theorem reduced_iff (paths : List Str) :
    (reduce paths).Pairwise Separate ↔ Unbroken paths := by
  rw [← enclosed_iff_unbroken]
  apply separate_foldl_iff
  · have hle : ((paths.map trimEnd).insertionSort (· ≤ ·)).dedup.Pairwise (· ≤ ·) :=
      (List.pairwise_insertionSort (· ≤ ·) _).sublist (List.dedup_sublist _)
    exact (hle.and (List.nodup_dedup _)).imp fun h => lt_of_le_of_ne h.1 h.2
  · intro p hp
    obtain ⟨q, -, rfl⟩ := (mem_sorted_trimmed paths p).mp hp
    exact trimEnd_trimEnd q

namespace PrefixSet

/-- The sets that calls make where every list reduced is unbroken. -/
inductive Tidy : PrefixSet → Prop
  | empty : Tidy empty
  | new (paths : List Str) (h : Unbroken paths) : Tidy (new paths)
  | extend (s : PrefixSet) (paths : List Str) (hs : Tidy s) (h : Unbroken (s.paths ++ paths)) :
      Tidy (s.extend paths)
  | forget (s : PrefixSet) (path : Str) (hs : Tidy s) : Tidy (s.forget path)

theorem paths_forget_sublist (s : PrefixSet) (path : Str) :
    (s.forget path).paths.Sublist s.paths := by
  unfold forget
  simp only
  split
  · exact List.filter_sublist
  · exact List.Sublist.refl _

theorem Tidy.separate {s : PrefixSet} (h : Tidy s) : s.paths.Pairwise Separate := by
  induction h with
  | empty => exact List.Pairwise.nil
  | new paths h => exact (reduced_iff paths).mpr h
  | extend s paths hs h ih => exact (reduced_iff _).mpr h
  | forget s path hs ih => exact ih.sublist (paths_forget_sublist s path)

/-- With its members apart, a set forgets a member and all that is below it. -/
theorem covers_forget_of_separate {s : PrefixSet} (h : s.paths.Pairwise Separate) {m x : Str}
    (hm : m ∈ s.paths) (hx : under x m = true) : (s.forget m).covers x = false := by
  rw [Bool.eq_false_iff]
  intro hcov
  obtain ⟨k, hk, hne, hxk⟩ := (covers_forget s m x).mp hcov
  rw [s.trimmed m hm] at hne
  have hsep := h.forall hk hm hne
  rcases under_chain hxk hx with h | h
  · rw [hsep.1] at h
    cases h
  · rw [hsep.2] at h
    cases h

/-- **Where the set is reduced**: after every sequence of calls whose lists are unbroken, none of its
members is at or under another and nothing below a member stays covered once that one is forgotten.
Of any list `coalesce` makes paths that cover what the list did, and that are apart exactly where
the list is unbroken. -/
theorem separate_of_tidy {s : PrefixSet} (hs : Tidy s) (paths : List Str) :
    s.paths.Pairwise Separate ∧
      (∀ m ∈ s.paths, ∀ x, under x m = true → (s.forget m).covers x = false) ∧
      ((coalesce paths).Pairwise Separate ↔ Unbroken paths) ∧
      ∀ x, (∃ k ∈ coalesce paths, under x k = true) ↔ ∃ p ∈ paths, under x p = true := by
  refine ⟨hs.separate, fun m hm x hx => covers_forget_of_separate hs.separate hm hx,
    reduced_iff paths, fun x => ?_⟩
  rw [← covers_new paths x, covers_iff]
  rfl

theorem separate_of_tidy_child :
    ((new [str "/a/c", str "/a/", str "/b"]).forget (str "/a")).covers (str "/a/c") = false ∧
      (coalesce [str "/a/c", str "/a/", str "/b"]).Pairwise Separate :=
  have h := separate_of_tidy (.new [str "/a/c", str "/a/", str "/b"] (by decide))
    [str "/a/c", str "/a/", str "/b"]
  ⟨h.2.1 (str "/a") (by decide) (str "/a/c") (by decide), h.2.2.1.mpr (by decide)⟩

/-- `-` sorts below the separator, so `/a-b` comes between `/a` and `/a/c`. -/
theorem not_separate_sibling :
    let paths := [str "/a", str "/a-b", str "/a/c"]
    ¬ ((∀ put s, Made put s → s.paths.Pairwise Separate) ∧
        (∀ paths, (∀ p ∈ paths, Rooted p) → (coalesce paths).Pairwise Separate)) ∧
      Made paths (new paths) ∧ ¬ (new paths).paths.Pairwise Separate ∧
      ¬ (coalesce paths).Pairwise Separate ∧
      ((new paths).forget (str "/a")).covers (str "/a/c") = true := by
  have hput : Made [str "/a", str "/a-b", str "/a/c"] (new [str "/a", str "/a-b", str "/a/c"]) :=
    .new _ (by decide)
  have hnot : ¬ (new [str "/a", str "/a-b", str "/a/c"]).paths.Pairwise Separate := by decide
  exact ⟨fun h => hnot (h.1 _ _ hput), hput, hnot, hnot, by decide⟩

end PrefixSet

end Scour
