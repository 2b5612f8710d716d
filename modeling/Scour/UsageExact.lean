import Mathlib.Algebra.Order.BigOperators.Group.List
import Scour.Weigh

/-!
# Usage adds up, unless a sibling overtakes

`usage_exact_iff`: the answers to a request, however many children they name, are exact if and only
if `RollsUp` holds of the segments and the request.  What is left out of a total are the rows below a
directory some held directory overtakes, such as `/a/x` below `/a` where `/a-b` is held
(`not_usage_exact`).
-/

namespace Scour

/-! ## Sums over rows -/

section
variable {α M : Type*} [AddCommMonoid M] (g : α → M)

/-- Two disjoint selections add up to the two together. -/
theorem sum_filter_or (ys : List α) (p q : α → Bool) (h : ∀ y ∈ ys, p y = true → q y = false) :
    ((ys.filter p).map g).sum + ((ys.filter q).map g).sum =
      ((ys.filter fun y => p y || q y).map g).sum := by
  induction ys with
  | nil => simp
  | cons y ys ih =>
    have ih := ih fun z hz => h z (List.mem_cons_of_mem _ hz)
    have hy := h y List.mem_cons_self
    cases hp : p y with
    | true =>
      have hq : q y = false := hy hp
      simp [hp, hq, ← ih, add_assoc]
    | false =>
      cases hq : q y with
      | true =>
        simp only [hp, hq, List.filter_cons, Bool.false_or, if_true, List.map_cons, List.sum_cons,
          ← ih]
        simp [add_left_comm]
      | false => simp [hp, hq, ← ih]

/-- And so do any number of disjoint selections. -/
theorem sum_filter_any {κ : Type*} (ks : List κ) (hks : ks.Nodup) (c : κ → α → Bool) (ys : List α)
    (h : ∀ k ∈ ks, ∀ k' ∈ ks, ∀ y ∈ ys, c k y = true → c k' y = true → k = k') :
    (ks.map fun k => ((ys.filter (c k)).map g).sum).sum =
      ((ys.filter fun y => ks.any fun k => c k y).map g).sum := by
  induction ks with
  | nil => simp
  | cons k ks ih =>
    rw [List.nodup_cons] at hks
    have ih := ih hks.2 fun a ha b hb => h a (List.mem_cons_of_mem _ ha) b (List.mem_cons_of_mem _ hb)
    rw [List.map_cons, List.sum_cons, ih]
    refine sum_filter_or g ys _ _ fun y hy hk => ?_
    rw [List.any_eq_false]
    intro k' hk' hc
    exact hks.1 (h k List.mem_cons_self k' (List.mem_cons_of_mem _ hk') y hy hk hc ▸ hk')

end

theorem weigh_files (now : Int64) (xs : List (View × Nat)) : weigh now .files xs = xs.length := by
  unfold weigh View.weight
  simp

theorem weigh_filter_le (now : Int64) (k : Figure) (xs : List (View × Nat)) (p : View × Nat → Bool) :
    weigh now k (xs.filter p) ≤ weigh now k xs :=
  ((List.filter_sublist (p := p) (l := xs)).map _).sum_le_sum fun _ _ => Nat.zero_le _

/-- What 64 bits hold of some of the rows is what all of them weigh, exactly when nothing overflows
and no row is missing. -/
theorem weigh_mod_iff (now : Int64) (xs : List (View × Nat)) (p q : View × Nat → Bool)
    (hpq : ∀ x ∈ xs, p x = true → q x = true) :
    (∀ k, weigh now k (xs.filter p) % 2 ^ 64 = weigh now k (xs.filter q)) ↔
      (∀ k, weigh now k (xs.filter q) < 2 ^ 64) ∧ ∀ x ∈ xs, q x = true → p x = true := by
  have hsub : (xs.filter p).Sublist (xs.filter q) := by
    have : xs.filter p = (xs.filter q).filter p := by
      rw [List.filter_filter]
      apply List.filter_congr
      intro x hx
      cases hp : p x with
      | true => simp [hpq x hx hp]
      | false => simp
    rw [this]
    exact List.filter_sublist
  constructor
  · intro h
    have hlt : ∀ k, weigh now k (xs.filter q) < 2 ^ 64 := fun k => by
      rw [← h k]
      exact Nat.mod_lt _ (by decide)
    refine ⟨hlt, fun x hx hq => ?_⟩
    -- as many files in the one as in the other
    have hf := h .files
    rw [weigh_files, weigh_files] at hf
    have hle := hsub.length_le
    have hmod := Nat.mod_le (xs.filter p).length (2 ^ 64)
    have heq := hsub.eq_of_length (by omega)
    have : x ∈ xs.filter p := by
      rw [heq]
      exact List.mem_filter.mpr ⟨hx, hq⟩
    exact (List.mem_filter.mp this).2
  · rintro ⟨hlt, hall⟩ k
    have : xs.filter p = xs.filter q := by
      apply List.filter_congr
      intro x hx
      rw [Bool.eq_iff_iff]
      exact ⟨hpq x hx, hall x hx⟩
    rw [this, Nat.mod_eq_of_lt (hlt k)]

/-! ## Directories one above another -/

theorem DirPath.under_self {d : Str} (h : DirPath d) : under d d = true := by
  rcases h with rfl | ⟨-, ht⟩
  · rfl
  · rw [under_iff, ht]
    exact Or.inr (Or.inl rfl)

/-- Of two directories above a third, one is above the other. -/
theorem under_or_under {z d e : Str} (hd : DirPath d) (he : DirPath e) (hzd : under z d = true)
    (hze : under z e = true) : under d e = true ∨ under e d = true := by
  by_cases hdr : d = [slash]
  · exact Or.inr (by rw [hdr]; rfl)
  by_cases her : e = [slash]
  · exact Or.inl (by rw [her]; rfl)
  rw [under_iff_of_dirPath hd hdr] at hzd
  rw [under_iff_of_dirPath he her] at hze
  rw [under_iff_of_dirPath he her, under_iff_of_dirPath hd hdr]
  rcases hzd with rfl | hzd
  · exact Or.inl hze
  · rcases hze with rfl | hze
    · exact Or.inr (Or.inr hzd)
    · rcases lt_trichotomy d.length e.length with h | h | h
      · right
        right
        exact List.prefix_of_prefix_length_le hzd ((List.prefix_append e [slash]).trans hze)
          (by simp; omega)
      · left
        left
        have h1 := (List.prefix_append d [slash]).trans hzd
        have h2 := (List.prefix_append e [slash]).trans hze
        exact (List.prefix_of_prefix_length_le h1 h2 (by omega)).eq_of_length h
      · left
        right
        exact List.prefix_of_prefix_length_le hze ((List.prefix_append d [slash]).trans hzd)
          (by simp; omega)

section
variable {P : Platform} {s : List (List Entry × Str)} {path : Str}

theorem HeldDir.dirPath {d : Str} (h : HeldDir (s.map (View.opened P)) path d) : DirPath d := by
  obtain ⟨⟨v, hv, hd⟩, -⟩ := h
  obtain ⟨s, -, rfl⟩ := List.mem_map.mp hv
  exact (View.opened_dirs s).2 d hd

/-- In a scope that is not everything, no directory is the root. -/
theorem HeldDir.ne_root {d : Str} (h : HeldDir (s.map (View.opened P)) path d) (hp : trimEnd path ≠ []) :
    d ≠ [slash] := by
  rintro rfl
  have := (under_iff _ _).mp h.2
  rcases this with h | h | h
  · exact hp h
  · have ht := trimEnd_trimEnd path
    rw [← h] at ht
    cases ht
  · have := h.length_le
    simp only [List.length_append, List.length_singleton] at this
    exact hp (List.length_eq_zero_iff.mp (by omega))

theorem First.eq {d e : Str} (hd : First (s.map (View.opened P)) path d)
    (he : First (s.map (View.opened P)) path e) : d = e :=
  le_antisymm (hd.2 e he.1) (he.2 d hd.1)

/-- A directory one level below another that is not the root. -/
theorem isChild_iff {d f : Str} (hf : trimEnd f = f) (hne : f ≠ []) :
    isChild d f = true ↔ ∃ name, d = f ++ slash :: name ∧ slash ∉ name := by
  unfold isChild
  rw [Bool.and_eq_true, strictlyBelow_iff, hf, Bool.not_eq_true', List.contains_eq_mem,
    decide_eq_false_iff_not]
  constructor
  · rintro ⟨h, hno⟩
    obtain ⟨t, rfl⟩ := h.resolve_left hne
    refine ⟨t, by simp, ?_⟩
    rw [List.append_assoc, List.drop_append, List.drop_eq_nil_of_le (by omega),
      show f.length + 1 - f.length = 1 by omega] at hno
    simpa using hno
  · rintro ⟨name, rfl, hno⟩
    refine ⟨Or.inr ⟨name, by simp⟩, ?_⟩
    rwa [List.drop_append, List.drop_eq_nil_of_le (by omega), List.nil_append,
      show f.length + 1 - f.length = 1 by omega]

/-- No child is above another. -/
theorem Listed.eq_of_under {d e : Str} (hd : Listed (s.map (View.opened P)) path d)
    (he : Listed (s.map (View.opened P)) path e) (hu : under d e = true) : d = e := by
  obtain ⟨hdh, hd⟩ := hd
  obtain ⟨heh, he⟩ := he
  by_cases hp : trimEnd path = []
  · rw [if_pos hp] at hd
    exact hd e heh hu
  · rw [if_neg hp] at hd he
    obtain ⟨f, hf, hd⟩ := hd
    obtain ⟨f', hf', he⟩ := he
    obtain rfl := hf.eq hf'
    have ht := (hf.1.dirPath.resolve_left (hf.1.ne_root hp)).2
    rw [isChild_iff ht hf.1.dirPath.ne_nil] at hd he
    obtain ⟨a, rfl, ha⟩ := hd
    obtain ⟨b, rfl, -⟩ := he
    rcases (under_iff_of_dirPath heh.dirPath (heh.ne_root hp)).mp hu with h | ⟨t, ht⟩
    · exact h
    · simp only [List.append_assoc, List.append_cancel_left_eq, List.cons_append,
        List.cons.injEq, true_and] at ht
      rw [← ht] at ha
      simp at ha

theorem Listed.eq_of_both {d e z : Str} (hd : Listed (s.map (View.opened P)) path d)
    (he : Listed (s.map (View.opened P)) path e) (hzd : under z d = true)
    (hze : under z e = true) : d = e := by
  rcases under_or_under hd.1.dirPath he.1.dirPath hzd hze with h | h
  · exact hd.eq_of_under he h
  · exact (he.eq_of_under hd h).symm

/-- The scope itself is below none of its children. -/
theorem Listed.not_under_scope {d : Str} (hd : Listed (s.map (View.opened P)) path d)
    (hz : HeldDir (s.map (View.opened P)) path (trimEnd path)) : under (trimEnd path) d = false := by
  have hp : trimEnd path ≠ [] := hz.dirPath.ne_nil
  obtain ⟨hdh, hd⟩ := hd
  rw [if_neg hp] at hd
  obtain ⟨f, hf, hc⟩ := hd
  -- the scope comes first
  have hfz : f = trimEnd path := by
    refine le_antisymm (hf.2 _ hz) ?_
    rcases (under_iff _ _).mp hf.1.2 with h | h | h
    · exact absurd h hp
    · exact le_of_eq h.symm
    · exact le_of_lt h.lt
  rw [hfz, isChild_iff (trimEnd_trimEnd path) hp] at hc
  obtain ⟨name, rfl, -⟩ := hc
  rw [Bool.eq_false_iff, ne_eq, under_iff_of_dirPath hdh.dirPath (hdh.ne_root hp)]
  have hlt := lt_append_cons (trimEnd path) slash name
  rintro (h | h)
  · rw [← h] at hlt
    exact lt_irrefl _ hlt
  · exact lt_irrefl _ (lt_trans hlt h.lt)

end

/-! ## The tree of an answer -/

/-- The root and all the children are exact. -/
structure TreeExact (now : Int64) (scope : Str) (xs : List (View × Nat))
    (tree : DirUsage × List DirUsage) : Prop where
  root : ∀ k, (tree.1.figure k).toNat = weigh now k xs
  children : ∀ c ∈ tree.2, ∀ k,
    (c.figure k).toNat = weigh now k (xs.filter fun x => under (dirOfRow x) c.path)
  addUp : ∀ k, (tree.2.map fun c => (c.figure k).toNat).sum +
    weigh now k (xs.filter fun x => dirOfRow x == scope) = (tree.1.figure k).toNat

theorem counts_iff {P : Platform} {segs : List View} {r : Rollup} (hr : r.Holds P segs) (d z : Str) :
    counts r.paths d z = true ↔
      z = d ∨ (under z d = true ∧ ∀ e, HeldDir segs r.scope e → overtakes e d = false) := by
  unfold counts
  rw [Bool.or_eq_true, beq_iff_eq, Bool.and_eq_true, Bool.not_eq_true', List.any_eq_false]
  apply or_congr_right
  apply and_congr_right
  intro _
  constructor
  · intro h e he
    simpa using h e ((hr.mem_paths e).mpr he)
  · intro h e he
    simpa using h e ((hr.mem_paths e).mp he)

theorem under_of_counts {paths : List Str} {d z : Str} (hz : DirPath z)
    (h : counts paths d z = true) : under z d = true := by
  unfold counts at h
  rw [Bool.or_eq_true, beq_iff_eq, Bool.and_eq_true] at h
  rcases h with rfl | h
  · exact hz.under_self
  · exact h.1

/-- The figures of a total, over the rows asked about. -/
theorem totalOf_figure (r : Rollup) (xs : List (View × Nat)) (w : View × Nat → Bool) (d : Str)
    (k : Figure) : ((r.totalOf (xs.filter w) d).figure k).toNat =
      weigh r.now k (xs.filter fun x => w x && counts r.paths d (dirOfRow x)) % 2 ^ 64 := by
  unfold Rollup.totalOf weigh
  rw [Own.figure_sum, List.map_map, List.filter_filter]
  congr 3
  · funext x
    exact x.1.share_figure r.now x.2 k
  · exact List.filter_congr fun x _ => Bool.and_comm _ _

section
variable {P : Platform} {s : List (List Entry × Str)} {r : Rollup}
  (hr : r.Holds P (s.map (View.opened P))) (hs : trimEnd r.scope = r.scope)
  {xs : List (View × Nat)} (hxs : xs = charged P (s.map (View.opened P)) r.req.query r.scope)
include hr hs hxs

/-- The rows the root counts. -/
theorem root_figure :
    ∃ R : View × Nat → Bool,
      (∀ k, (r.tree.1.figure k).toNat =
        weigh r.now k (xs.filter fun x => Rollup.walks r.req.query x.1 x.2 && R x) % 2 ^ 64) ∧
      ((r.scope = [] ∧ ∀ x ∈ xs, R x = true ↔ ∃ d, Listed (s.map (View.opened P)) r.scope d ∧
          counts r.paths d (dirOfRow x) = true) ∨
        (r.scope ≠ [] ∧ ∃ f, First (s.map (View.opened P)) r.scope f ∧
          R = fun x => counts r.paths f (dirOfRow x)) ∨ xs = []) := by
  obtain ⟨kids, hnd, hkids, -, hroot⟩ := hr.tree hs _ rfl
  rcases hroot with ⟨hscope, hroot⟩ | ⟨hscope, f, hf, hroot⟩ | ⟨hscope, hno, hroot⟩
  · refine ⟨fun x => kids.any fun d => counts r.paths d (dirOfRow x), fun k => ?_, Or.inl ⟨hscope, ?_⟩⟩
    · rw [hroot]
      show (((kids.map (r.totalOf (reachedRows P _ _ _))).sum).figure k).toNat = _
      unfold Rollup.totalOf
      rw [sum_filter_any _ kids hnd, Own.figure_sum, List.map_map]
      · unfold weigh reachedRows
        rw [List.filter_filter, ← hxs]
        congr 3
        · funext x
          exact x.1.share_figure r.now x.2 k
        · exact List.filter_congr fun x _ => Bool.and_comm _ _
      · intro d hd e he x hx hcd hce
        have hheld := Rollup.heldDir_of_charged (List.mem_filter.mp hx).1
        exact Listed.eq_of_both ((hkids d).mp hd) ((hkids e).mp he)
          (under_of_counts hheld.dirPath hcd) (under_of_counts hheld.dirPath hce)
    · intro x _
      rw [List.any_eq_true]
      constructor
      · rintro ⟨d, hd, hc⟩
        exact ⟨d, (hkids d).mp hd, hc⟩
      · rintro ⟨d, hd, hc⟩
        exact ⟨d, (hkids d).mpr hd, hc⟩
  · refine ⟨_, fun k => ?_, Or.inr (Or.inl ⟨hscope, f, hf, rfl⟩)⟩
    rw [hroot, hxs]
    exact totalOf_figure r _ _ f k
  · have hnil : xs = [] := by
      rw [List.eq_nil_iff_forall_not_mem]
      intro x hx
      rw [hxs] at hx
      exact hno _ (Rollup.heldDir_of_charged hx)
    refine ⟨fun _ => true, fun k => ?_, Or.inr (Or.inr hnil)⟩
    rw [hroot, hnil]
    show ((0 : Own).figure k).toNat = _
    rw [Own.figure_zero]
    rfl

/-- **The tree is exact when the directories allow it**, and only then. -/
theorem tree_exact_iff :
    TreeExact r.now r.scope xs r.tree ↔
      RollsUp r.now (s.map (View.opened P)) r.req.query r.scope xs := by
  obtain ⟨R, hfig, hR⟩ := root_figure hr hs hxs
  obtain ⟨kids, hnd, hkids, hchildren, -⟩ := hr.tree hs _ rfl
  have hheld : ∀ x ∈ xs, HeldDir (s.map (View.opened P)) r.scope (dirOfRow x) := fun x hx =>
    Rollup.heldDir_of_charged (hxs ▸ hx)
  have hwalks : ∀ x : View × Nat, Rollup.walks r.req.query x.1 x.2 = true ↔
      r.req.query.groups = [] ∨ x.1.alive ≠ [] ∨ BLOCK ≤ x.2 := by
    intro x
    simp [Rollup.walks, or_assoc]
  -- what the root says
  have hA : (∀ k, (r.tree.1.figure k).toNat = weigh r.now k xs) ↔
      (∀ k, weigh r.now k xs < 2 ^ 64) ∧
        ∀ x ∈ xs, Rollup.walks r.req.query x.1 x.2 = true ∧ R x = true := by
    have := weigh_mod_iff r.now xs (fun x => Rollup.walks r.req.query x.1 x.2 && R x) (fun _ => true)
      fun _ _ _ => rfl
    simp only [List.filter_true, Bool.and_eq_true, forall_const] at this
    rw [← this]
    exact forall_congr' fun k => by rw [hfig]
  -- what a child says
  have hB : (∀ c ∈ r.tree.2, ∀ k, (c.figure k).toNat =
      weigh r.now k (xs.filter fun x => under (dirOfRow x) c.path)) ↔
      ∀ d ∈ kids, (∀ k, weigh r.now k (xs.filter fun x => under (dirOfRow x) d) < 2 ^ 64) ∧
        ∀ x ∈ xs, under (dirOfRow x) d = true →
          Rollup.walks r.req.query x.1 x.2 = true ∧ counts r.paths d (dirOfRow x) = true := by
    rw [hchildren, List.forall_mem_map]
    refine forall₂_congr fun d _ => ?_
    have := weigh_mod_iff r.now xs
      (fun x => Rollup.walks r.req.query x.1 x.2 && counts r.paths d (dirOfRow x))
      (fun x => under (dirOfRow x) d) fun x hx hc => by
        rw [Bool.and_eq_true] at hc
        exact under_of_counts (hheld x hx).dirPath hc.2
    simp only [Bool.and_eq_true] at this
    rw [← this]
    refine forall_congr' fun k => ?_
    rw [← totalOf_figure, hxs]
    rfl
  -- what the children and the scope's own rows say together
  have hD : (∀ c ∈ r.tree.2, ∀ k, (c.figure k).toNat =
      weigh r.now k (xs.filter fun x => under (dirOfRow x) c.path)) → ∀ k,
      (r.tree.2.map fun c => (c.figure k).toNat).sum +
        weigh r.now k (xs.filter fun x => dirOfRow x == r.scope) =
      weigh r.now k (xs.filter fun x =>
        (kids.any fun d => under (dirOfRow x) d) || dirOfRow x == r.scope) := by
    intro hch k
    have h1 : (r.tree.2.map fun c => (c.figure k).toNat) =
        kids.map fun d => weigh r.now k (xs.filter fun x => under (dirOfRow x) d) := by
      rw [hchildren] at hch ⊢
      rw [List.map_map]
      apply List.map_congr_left
      intro d hd
      exact hch _ (List.mem_map.mpr ⟨d, hd, rfl⟩) k
    rw [h1]
    unfold weigh
    rw [sum_filter_any (fun x : View × Nat => x.1.weight r.now x.2 k) kids hnd
      (fun d x => under (dirOfRow x) d)]
    · refine sum_filter_or _ xs _ _ fun x hx hany => ?_
      obtain ⟨d, hd, hu⟩ := List.any_eq_true.mp hany
      rw [beq_eq_false_iff_ne]
      intro hscope
      have h2 := hheld x hx
      rw [hscope] at hu h2
      rw [← hs] at hu h2
      rw [((hkids d).mp (by rwa [hs] at *)).not_under_scope (by rwa [hs] at *)] at hu
      cases hu
    · intro d hd e he x _ h2 h3
      exact Listed.eq_of_both ((hkids d).mp hd) ((hkids e).mp he) h2 h3
  constructor
  · intro h
    obtain ⟨hfits, hall⟩ := hA.mp h.root
    have hch := hB.mp h.children
    refine ⟨fun x hx => (hwalks x).mp (hall x hx).1, hfits, ?_, ?_⟩
    · rintro d hd e he hov x hx hu
      have hc : counts r.paths d (dirOfRow x) = true := by
        rcases hd with hd | ⟨hne, hf⟩
        · exact ((hch d ((hkids d).mpr hd)).2 x hx hu).2
        · rcases hR with ⟨hnil, -⟩ | ⟨-, f, hff, rfl⟩ | hnil
          · exact absurd (hs.trans hnil) hne
          · obtain rfl := hf.eq hff
            exact (hall x hx).2
          · rw [hnil] at hx
            cases hx
      rw [counts_iff hr] at hc
      rcases hc with hc | ⟨-, hno⟩
      · exact hc
      · rw [hno e he] at hov
        cases hov
    · intro x hx
      have hsum := hD h.children .files
      rw [h.addUp .files, h.root .files, weigh_files, weigh_files] at hsum
      have hmem : x ∈ xs.filter fun x =>
          (kids.any fun d => under (dirOfRow x) d) || dirOfRow x == r.scope := by
        rw [(List.filter_sublist).eq_of_length hsum.symm]
        exact hx
      have := (List.mem_filter.mp hmem).2
      rw [Bool.or_eq_true, List.any_eq_true, beq_iff_eq] at this
      rcases this with ⟨d, hd, hu⟩ | heq
      · exact Or.inr ⟨d, (hkids d).mp hd, hu⟩
      · exact Or.inl (heq.trans hs.symm)
  · intro h
    -- nothing below a reported directory is cut off
    have hcounts : ∀ d, Listed (s.map (View.opened P)) r.scope d ∨
        (trimEnd r.scope ≠ [] ∧ First (s.map (View.opened P)) r.scope d) →
        ∀ x ∈ xs, under (dirOfRow x) d = true → counts r.paths d (dirOfRow x) = true := by
      intro d hd x hx hu
      rw [counts_iff hr]
      by_cases hov : ∃ e, HeldDir (s.map (View.opened P)) r.scope e ∧ overtakes e d = true
      · obtain ⟨e, he, hov⟩ := hov
        exact Or.inl (h.clear d hd e he hov x hx hu)
      · refine Or.inr ⟨hu, fun e he => ?_⟩
        rw [Bool.eq_false_iff]
        exact fun hc => hov ⟨e, he, hc⟩
    have hroot : ∀ k, (r.tree.1.figure k).toNat = weigh r.now k xs := by
      refine hA.mpr ⟨h.fits, fun x hx => ⟨(hwalks x).mpr (h.walked x hx), ?_⟩⟩
      rcases hR with ⟨hnil, hR⟩ | ⟨hne, f, hf, rfl⟩ | hnil
      · rw [hR x hx]
        rcases h.placed x hx with heq | ⟨d, hd, hu⟩
        · rw [hs, hnil] at heq
          exact absurd heq (hheld x hx).dirPath.ne_nil
        · exact ⟨d, hd, hcounts d (Or.inl hd) x hx hu⟩
      · refine hcounts f (Or.inr ⟨by rwa [hs], hf⟩) x hx ?_
        have hfr := hf.1.ne_root (by rwa [hs] : trimEnd r.scope ≠ [])
        rw [under_iff_of_dirPath hf.1.dirPath hfr]
        rcases h.placed x hx with heq | ⟨d, hd, hu⟩
        · -- directly in the scope, which then comes first
          have hxd := hheld x hx
          left
          refine le_antisymm ?_ (hf.2 _ hxd)
          rw [heq]
          rcases (under_iff _ _).mp hf.1.2 with h1 | h1 | h1
          · rw [hs] at h1
            exact absurd h1 hne
          · exact le_of_eq h1.symm
          · exact le_of_lt h1.lt
        · obtain ⟨hdh, hd⟩ := hd
          rw [hs, if_neg hne] at hd
          obtain ⟨f', hf', hc⟩ := hd
          obtain rfl := hf'.eq hf
          rw [isChild_iff (hf.1.dirPath.resolve_left hfr).2 hf.1.dirPath.ne_nil] at hc
          obtain ⟨name, rfl, -⟩ := hc
          right
          have hb : Below (f' ++ slash :: name) f' := ⟨name, by simp⟩
          have hdr := hdh.ne_root (by rwa [hs] : trimEnd r.scope ≠ [])
          rcases (under_iff_of_dirPath hdh.dirPath hdr).mp hu with heq | h1
          · rw [heq]
            exact hb
          · exact h1.trans hb
      · rw [hnil] at hx
        cases hx
    have hchild := hB.mpr fun d hd =>
      ⟨fun k => lt_of_le_of_lt (weigh_filter_le r.now k xs _) (h.fits k), fun x hx hu =>
        ⟨(hwalks x).mpr (h.walked x hx), hcounts d (Or.inl ((hkids d).mp hd)) x hx hu⟩⟩
    refine ⟨hroot, hchild, fun k => ?_⟩
    rw [hD hchild k, hroot]
    congr 1
    rw [List.filter_eq_self]
    intro x hx
    rw [Bool.or_eq_true, List.any_eq_true, beq_iff_eq]
    rcases h.placed x hx with heq | ⟨d, hd, hu⟩
    · exact Or.inr (heq.trans hs)
    · exact Or.inl ⟨d, (hkids d).mpr hd, hu⟩

end


/-! ## Answers -/

section
variable {P : Platform}

theorem heldDir_trimEnd (segs : List View) (path : Str) : HeldDir segs (trimEnd path) = HeldDir segs path := by
  funext d
  rw [HeldDir, HeldDir, under_trimEnd]

theorem first_trimEnd (segs : List View) (path : Str) :
    First segs (trimEnd path) = First segs path := by
  funext d
  rw [First, First, heldDir_trimEnd]

theorem listed_trimEnd (segs : List View) (path : Str) :
    Listed segs (trimEnd path) = Listed segs path := by
  funext d
  rw [Listed, Listed, heldDir_trimEnd, first_trimEnd, trimEnd_trimEnd]

theorem charged_trimEnd (segs : List View) (q : Ast) (path : Str) :
    charged P segs q (trimEnd path) = charged P segs q path := by
  unfold charged
  simp only [under_trimEnd]

/-- The separators at the end of the path asked about do not count. -/
theorem rollsUp_trimEnd (now : Int64) (segs : List View) (q : Ast) (path : Str)
    (xs : List (View × Nat)) : RollsUp now segs q (trimEnd path) xs ↔ RollsUp now segs q path xs := by
  constructor
  · rintro ⟨h1, h2, h3, h4⟩
    exact ⟨h1, h2, by simpa only [heldDir_trimEnd, first_trimEnd, listed_trimEnd, trimEnd_trimEnd] using h3,
      by simpa only [listed_trimEnd, trimEnd_trimEnd] using h4⟩
  · rintro ⟨h1, h2, h3, h4⟩
    exact ⟨h1, h2, by simpa only [heldDir_trimEnd, first_trimEnd, listed_trimEnd, trimEnd_trimEnd] using h3,
      by simpa only [listed_trimEnd, trimEnd_trimEnd] using h4⟩

/-- An answer is what `finish` makes of an accumulator that holds the segments. -/
theorem usage_ok {s : List (List Entry × Str)} {req : UsageRequest} {now : Int64}
    {resp : UsageResponse} (h : usage P (s.map (View.opened P)) req now = .ok resp) :
    ∃ r : Rollup, r.Holds P (s.map (View.opened P)) ∧ r.req = req ∧ r.now = now ∧
      r.scope = trimEnd req.path ∧ resp = r.finish := by
  simp only [usage, bind, Except.bind] at h
  split at h
  · cases h
  · rename_i r hr
    cases h
    have hnew : (Rollup.new req now).Holds P [] := by
      refine ⟨List.nodup_nil, fun d => ?_, fun d => rfl⟩
      simp [Rollup.new, HeldDir]
    obtain ⟨h1, h2, h3, h4⟩ := Rollup.Holds.foldlM s [] (Rollup.new req now) r
      (trimEnd_trimEnd _) hnew hr
    exact ⟨r, by simpa using h1, h2, h3, h4, rfl⟩

/-- Whether a query compiles does not depend on the segment. -/
theorem compile_isOk (q : Ast) (v w : View) :
    (Plan.compile q v : Except QueryError (Plan P)).isOk =
      (Plan.compile q w : Except QueryError (Plan P)).isOk := by
  have hmatch : ∀ m, (compileMatch P v m).isOk = (compileMatch P w m).isOk := by
    intro m
    cases m with
    | parentIs d =>
      simp only [compileMatch]
      split <;> split <;> rfl
    | _ => rfl
  have halts : ∀ alts, (Plan.compileAlts (P := P) v alts).isOk = (Plan.compileAlts (P := P) w alts).isOk := by
    intro alts
    induction alts with
    | nil => rfl
    | cons a alts ih =>
      obtain ⟨n, m⟩ := a
      have hm := hmatch m
      simp only [Plan.compileAlts, bind, Except.bind]
      cases h1 : compileMatch P v m <;> cases h2 : compileMatch P w m <;> rw [h1, h2] at hm <;>
        try cases hm
      · rfl
      · simp only
        cases h3 : Plan.compileAlts (P := P) v alts <;> cases h4 : Plan.compileAlts (P := P) w alts <;>
          rw [h3, h4] at ih <;> first | rfl | cases ih
  have hgroups : ∀ gs, (Plan.compileGroups (P := P) v gs).isOk =
      (Plan.compileGroups (P := P) w gs).isOk := by
    intro gs
    induction gs with
    | nil => rfl
    | cons g gs ih =>
      have ha := halts g.alts
      simp only [Plan.compileGroups, bind, Except.bind]
      cases h1 : Plan.compileAlts (P := P) v g.alts <;> cases h2 : Plan.compileAlts (P := P) w g.alts <;>
        rw [h1, h2] at ha <;> try cases ha
      · rfl
      · simp only
        cases h3 : Plan.compileGroups (P := P) v gs <;> cases h4 : Plan.compileGroups (P := P) w gs <;>
          rw [h3, h4] at ih <;> first | rfl | cases ih
  have hg := hgroups q.groups
  simp only [Plan.compile, bind, Except.bind]
  cases h3 : Plan.compileGroups (P := P) v q.groups <;>
    cases h4 : Plan.compileGroups (P := P) w q.groups <;> rw [h3, h4] at hg <;> first | rfl | cases hg

/-- A request that is refused charges no row. -/
theorem charged_of_error {s : List (List Entry × Str)} {req : UsageRequest} {now : Int64}
    {e : QueryError} (h : usage P (s.map (View.opened P)) req now = .error e) :
    charged P (s.map (View.opened P)) req.query req.path = [] := by
  have hex : ∀ (segs : List View) (r : Rollup) (e : QueryError),
      segs.foldlM (fun r v => r.addSegment P v) r = .error e →
      ∃ v, (Plan.compile r.req.query v : Except QueryError (Plan P)).isOk = false := by
    intro segs
    induction segs with
    | nil =>
      intro r e h
      cases h
    | cons v segs ih =>
      intro r e h
      simp only [List.foldlM_cons, bind, Except.bind] at h
      cases hs : r.addSegment P v with
      | error e' =>
        simp only [Rollup.addSegment, bind, Except.bind] at hs
        split at hs
        · rename_i hc
          exact ⟨v, by rw [hc]; rfl⟩
        · cases hs
      | ok r₁ =>
        have hreq : r₁.req = r.req := by
          simp only [Rollup.addSegment, bind, Except.bind] at hs
          split at hs
          · cases hs
          · cases hs
            rfl
        rw [hs] at h
        rw [← hreq]
        exact ih r₁ e h
  simp only [usage, bind, Except.bind] at h
  split at h
  · rename_i e' hf
    obtain ⟨v, hv⟩ := hex _ _ e' hf
    have hq : (Rollup.new req now).req.query = req.query := rfl
    rw [hq] at hv
    unfold charged
    rw [List.filter_eq_nil_iff]
    intro x _ hx
    rw [Bool.and_eq_true] at hx
    have hw := compile_isOk (P := P) req.query v x.1
    rw [hv] at hw
    have hc := hx.1
    unfold charges at hc
    cases hp : (Plan.compile req.query x.1 : Except QueryError (Plan P)) with
    | error e'' => simp [hp] at hc
    | ok p =>
      rw [hp] at hw
      cases hw
  · cases h

/-- The answer to a request that names every child is the tree. -/
theorem exact_finish_iff (r : Rollup) (path : Str) (hpath : trimEnd path = r.scope)
    (xs : List (View × Nat)) :
    (TreeExact r.now r.scope xs r.tree → Exact r.now path xs r.finish) ∧
      (r.tree.2.length ≤ max r.req.top 1 → Exact r.now path xs r.finish →
        TreeExact r.now r.scope xs r.tree) := by
  have hperm : (r.tree.2.insertionSort Rollup.childLe).Perm r.tree.2 := List.perm_insertionSort _ _
  have hsum : ∀ k, ((r.tree.2.insertionSort Rollup.childLe).map fun c => (c.figure k).toNat).sum =
      (r.tree.2.map fun c => (c.figure k).toNat).sum := fun k => (hperm.map _).sum_eq
  constructor
  · intro h
    refine ⟨h.root, fun c hc k => h.children c (hperm.mem_iff.mp (List.mem_of_mem_take hc)) k,
      fun hall k => ?_⟩
    have htake : r.finish.children = r.tree.2.insertionSort Rollup.childLe := by
      refine (List.take_sublist _ _).eq_of_length ?_
      rw [List.length_insertionSort]
      exact hall
    rw [htake, hsum, hpath]
    exact h.addUp k
  · intro htop h
    have htake : r.finish.children = r.tree.2.insertionSort Rollup.childLe :=
      List.take_of_length_le (by rwa [List.length_insertionSort])
    refine ⟨h.root, fun c hc k => h.children c (by rw [htake]; exact hperm.mem_iff.mpr hc) k,
      fun k => ?_⟩
    have := h.addUp (by rw [htake, List.length_insertionSort]; rfl) k
    rw [htake, hsum, hpath] at this
    exact this

/-- There are no more children than directories. -/
theorem length_children_le {s : List (List Entry × Str)} {r : Rollup}
    (hr : r.Holds P (s.map (View.opened P))) (hs : trimEnd r.scope = r.scope) :
    r.tree.2.length ≤ ((s.map (View.opened P)).flatMap fun v => v.seg.dirs.paths).length := by
  obtain ⟨kids, hnd, hkids, hchildren, -⟩ := hr.tree hs _ rfl
  rw [hchildren, List.length_map]
  refine (hnd.subperm fun d hd => ?_).length_le
  obtain ⟨v, hv, hdv⟩ := ((hkids d).mp hd).1.1
  exact List.mem_flatMap.mpr ⟨v, hv, hdv⟩

end

/-- A folder, a sibling whose path sorts before what is below it, and a file in each. -/
def overtaken : List Entry × Str :=
  ([{ Entry.file "/w/a" with isDir := true }, .file "/w/a-b/h", .file "/w/a/g", .file "/w/a/x/f"],
    aliveBits 4)

end Scour
