import Mathlib.Data.List.Sort
import Scour.Path

/-!
# `PrefixSet`: a set of paths, asked "is anything under you?"

Members are trimmed of separators at their end, and a member found under the last one kept is
dropped.  `covers` scans up to four members and looks the path's ancestors up in the table above
that; both answer `∃ m ∈ paths, under path m` (`covers_iff`), which is all the index relies on.

`reduce` compares a member with the last one kept only, so `/a`, `/a-b`, `/a/c` keeps all three:
`-` sorts below `/`.  The set is then not reduced, and it still covers what it should
(`covers_extend`).
-/

namespace Scour

/-! ## Reducing -/

/-- One round of the loop in `reduce`: drop what is under the last member kept. -/
def keepStep (kept : List Str) (p : Str) : List Str :=
  match kept.getLast? with
  | none => kept ++ [p]
  | some k => if under p k then kept else kept ++ [p]

def reduce (paths : List Str) : List Str :=
  (((paths.map trimEnd).insertionSort (· ≤ ·)).dedup).foldl keepStep []

theorem keepStep_subset (kept : List Str) (p m : Str) (hm : m ∈ keepStep kept p) :
    m ∈ kept ∨ m = p := by
  unfold keepStep at hm
  split at hm
  · simpa using hm
  · split at hm
    · exact Or.inl hm
    · simpa using hm

theorem keepStep_superset (kept : List Str) (p m : Str) (hm : m ∈ kept) : m ∈ keepStep kept p := by
  unfold keepStep
  split
  · simp [hm]
  · split <;> simp [hm]

theorem keepStep_covers (kept : List Str) (p : Str) (hp : trimEnd p = p) :
    ∃ k ∈ keepStep kept p, under p k = true := by
  have self : under p p = true := by
    have := under_self p
    rwa [hp] at this
  unfold keepStep
  split
  · exact ⟨p, by simp, self⟩
  · rename_i k hk
    split
    · rename_i h
      exact ⟨k, List.mem_of_getLast? hk, h⟩
    · exact ⟨p, by simp, self⟩

theorem foldl_keepStep (l : List Str) (hl : ∀ p ∈ l, trimEnd p = p) :
    ∀ kept : List Str,
      (∀ m ∈ l.foldl keepStep kept, m ∈ kept ∨ m ∈ l) ∧
      (∀ m ∈ kept, m ∈ l.foldl keepStep kept) ∧
      ∀ p ∈ l, ∃ k ∈ l.foldl keepStep kept, under p k = true := by
  induction l with
  | nil =>
    intro kept
    exact ⟨fun m hm => Or.inl hm, fun m hm => hm, fun p hp => by cases hp⟩
  | cons q l ih =>
    intro kept
    obtain ⟨hsub, hsup, hcov⟩ := ih (fun p hp => hl p (List.mem_cons_of_mem _ hp)) (keepStep kept q)
    refine ⟨fun m hm => ?_, fun m hm => hsup m (keepStep_superset kept q m hm), fun p hp => ?_⟩
    · rcases hsub m hm with h | h
      · rcases keepStep_subset kept q m h with h | rfl
        · exact Or.inl h
        · exact Or.inr List.mem_cons_self
      · exact Or.inr (List.mem_cons_of_mem _ h)
    · rcases List.mem_cons.mp hp with rfl | hp
      · obtain ⟨k, hk, hu⟩ := keepStep_covers kept p (hl p List.mem_cons_self)
        exact ⟨k, hsup k hk, hu⟩
      · exact hcov p hp

theorem mem_sorted_trimmed (paths : List Str) (m : Str) :
    m ∈ ((paths.map trimEnd).insertionSort (· ≤ ·)).dedup ↔ ∃ q ∈ paths, trimEnd q = m := by
  rw [List.mem_dedup, List.mem_insertionSort, List.mem_map]

theorem reduce_spec (paths : List Str) :
    (∀ m ∈ reduce paths, ∃ q ∈ paths, trimEnd q = m) ∧
      ∀ q ∈ paths, ∃ k ∈ reduce paths, under (trimEnd q) k = true := by
  have ht : ∀ p ∈ ((paths.map trimEnd).insertionSort (· ≤ ·)).dedup, trimEnd p = p := by
    intro p hp
    obtain ⟨q, -, rfl⟩ := (mem_sorted_trimmed paths p).mp hp
    exact trimEnd_trimEnd q
  obtain ⟨hsub, -, hcov⟩ := foldl_keepStep _ ht []
  refine ⟨fun m hm => ?_, fun q hq => ?_⟩
  · rcases hsub m hm with h | h
    · cases h
    · exact (mem_sorted_trimmed paths m).mp h
  · exact hcov _ ((mem_sorted_trimmed paths _).mpr ⟨q, hq, rfl⟩)

theorem reduce_trimmed (paths : List Str) : ∀ m ∈ reduce paths, trimEnd m = m := by
  intro m hm
  obtain ⟨q, -, rfl⟩ := (reduce_spec paths).1 m hm
  exact trimEnd_trimEnd q

/-! ## The set -/

/-- Paths, and the same paths for asking about one path's ancestors. -/
structure PrefixSet where
  paths : List Str
  lookup : List Str
  trimmed : ∀ m ∈ paths, trimEnd m = m
  same : ∀ m, m ∈ lookup ↔ m ∈ paths

namespace PrefixSet

def empty : PrefixSet := ⟨[], [], by simp, by simp⟩

instance : Inhabited PrefixSet := ⟨empty⟩

/-- `PrefixSet::new`. -/
def new (paths : List Str) : PrefixSet :=
  ⟨reduce paths, reduce paths, reduce_trimmed paths, fun _ => Iff.rfl⟩

def extend (s : PrefixSet) (paths : List Str) : PrefixSet := new (s.paths ++ paths)

def isEmpty (s : PrefixSet) : Bool := s.paths.isEmpty

/-- A path, then its parent, and so on down to the empty string. -/
def ancestorsFrom : Nat → Str → List Str
  | 0, p => [p]
  | fuel + 1, p =>
      if p.isEmpty then [p]
      else p :: ancestorsFrom fuel (match rsplitOnce p with
        | some (parent, _) => parent
        | none => [])

def ancestors (path : Str) : List Str := ancestorsFrom (trimEnd path).length (trimEnd path)

/-- Is `path` at or below any member? -/
def covers (s : PrefixSet) (path : Str) : Bool :=
  if s.paths.length = 0 then false
  -- below four members, hashing a dozen ancestors costs more than scanning
  else if s.paths.length ≤ 4 then s.paths.any fun m => under path m
  else (ancestors path).any fun a => s.lookup.contains a

/-- Drop one path, if it is a member in its own right. -/
def forget (s : PrefixSet) (path : Str) : PrefixSet :=
  let path := trimEnd path
  if s.lookup.contains path then
    { paths := s.paths.filter (· ≠ path)
      lookup := s.lookup.filter (· ≠ path)
      trimmed := fun m hm => s.trimmed m (List.mem_of_mem_filter hm)
      same := fun m => by simp only [List.mem_filter, s.same] }
  else s

/-! ### What `covers` answers -/

theorem mem_ancestorsFrom (a : Str) :
    ∀ (fuel : Nat) (p : Str), p.length ≤ fuel →
      (a ∈ ancestorsFrom fuel p ↔ a = p ∨ Below p a ∨ a = []) := by
  intro fuel
  induction fuel with
  | zero =>
    intro p hp
    have : p = [] := List.length_eq_zero_iff.mp (by omega)
    subst this
    simp [ancestorsFrom, Below]
  | succ fuel ih =>
    intro p hp
    unfold ancestorsFrom
    by_cases hpe : p = []
    · simp [hpe, Below]
    · have hpf : p.isEmpty = false := by simpa using hpe
      simp only [hpf, Bool.false_eq_true, if_false, List.mem_cons]
      cases h : rsplitOnce p with
      | none =>
        have hns := (rsplitOnce_eq_none_iff p).mp h
        rw [ih [] (by simp)]
        constructor
        · rintro (rfl | rfl | h | rfl)
          · exact Or.inl rfl
          · exact Or.inr (Or.inr rfl)
          · simp [Below] at h
          · exact Or.inr (Or.inr rfl)
        · rintro (rfl | h | rfl)
          · exact Or.inl rfl
          · obtain ⟨t, ht⟩ := h
            exact absurd (by simp [← ht]) hns
          · exact Or.inr (Or.inl rfl)
      | some lr =>
        obtain ⟨l, r⟩ := lr
        obtain ⟨hpl, hr⟩ := (rsplitOnce_eq_some_iff p l r).mp h
        have hlen : l.length ≤ fuel := by
          rw [hpl] at hp
          simp only [List.length_append, List.length_cons] at hp
          omega
        simp only
        rw [ih l hlen]
        -- an ancestor of `l ++ "/" ++ r` is the path itself, `l`, or one of `l`
        have key : Below p a ↔ a = l ∨ Below l a := by
          rw [hpl]
          unfold Below
          constructor
          · intro hb
            have hle : a.length ≤ l.length := by
              by_contra hlt
              obtain ⟨t, ht⟩ := hb
              have h1 : (l ++ slash :: r)[a.length]? = some slash := by rw [← ht]; simp
              rw [List.getElem?_append_right (by omega)] at h1
              obtain ⟨k, hk⟩ : ∃ k, a.length - l.length = k + 1 :=
                ⟨a.length - l.length - 1, by omega⟩
              rw [hk, List.getElem?_cons_succ] at h1
              exact hr (List.mem_of_getElem? h1)
            have hal : a <+: l :=
              List.prefix_of_prefix_length_le ((List.prefix_append a [slash]).trans hb)
                (List.prefix_append _ _) hle
            rcases Nat.lt_or_eq_of_le hle with hlt | heq
            · right
              exact List.prefix_of_prefix_length_le hb (List.prefix_append _ _) (by simp; omega)
            · left
              exact hal.eq_of_length heq
          · rintro (rfl | h)
            · exact ⟨r, by simp⟩
            · exact h.trans (List.prefix_append _ _)
        rw [key]
        tauto

theorem mem_ancestors (a path : Str) :
    a ∈ ancestors path ↔ a = trimEnd path ∨ Below (trimEnd path) a ∨ a = [] :=
  mem_ancestorsFrom a _ _ (Nat.le_refl _)

theorem eq_trimEnd_append (p : Str) : ∃ n, p = trimEnd p ++ List.replicate n slash := by
  refine ⟨(p.rtakeWhile (· == slash)).length, ?_⟩
  have h := List.rdropWhile_append_rtakeWhile (p := (· == slash)) (l := p)
  have hr : p.rtakeWhile (· == slash) = List.replicate (p.rtakeWhile (· == slash)).length slash := by
    rw [List.eq_replicate_iff]
    exact ⟨rfl, fun b hb => by simpa using List.mem_rtakeWhile_imp hb⟩
  conv => lhs; rw [← h, hr]
  rfl

/-- For a trimmed member, being under it is having it as an ancestor. -/
theorem under_iff_mem_ancestors (path m : Str) (hm : trimEnd m = m) :
    under path m = true ↔ m ∈ ancestors path := by
  rw [mem_ancestors, under_iff, hm]
  obtain ⟨n, hn⟩ := eq_trimEnd_append path
  constructor
  · rintro (h | rfl | h)
    · exact Or.inr (Or.inr h)
    · exact Or.inl hm.symm
    · by_cases hle : m.length < (trimEnd path).length
      · right; left
        exact List.prefix_of_prefix_length_le h (prefix_trimEnd path) (by simp; omega)
      · left
        have h1 : m <+: path := (List.prefix_append m [slash]).trans h
        have h2 : trimEnd path <+: m :=
          List.prefix_of_prefix_length_le (prefix_trimEnd path) h1 (by omega)
        obtain ⟨t, rfl⟩ := h2
        have ht : t <+: List.replicate n slash := by
          have h3 : trimEnd path ++ t <+: trimEnd path ++ List.replicate n slash := by
            rwa [← hn]
          exact (List.prefix_append_right_inj _).mp h3
        obtain ⟨u, hu⟩ := ht
        have hts : ∀ b ∈ t, b = slash := fun b hb =>
          List.eq_of_mem_replicate (hu ▸ List.mem_append_left u hb)
        rcases List.eq_nil_or_concat t with rfl | ⟨t', b, rfl⟩
        · simp
        · exfalso
          have hb := hts b (by simp)
          rw [trimEnd_eq_self_iff] at hm
          exact hm (trimEnd path ++ t') (by rw [hb]; simp)
  · rintro (rfl | h | h)
    · cases n with
      | zero => exact Or.inr (Or.inl (by simpa using hn))
      | succ n =>
        right; right
        unfold Below
        conv => rhs; rw [hn]
        exact ⟨List.replicate n slash, by simp [List.replicate_succ]⟩
    · exact Or.inr (Or.inr (List.IsPrefix.trans h (prefix_trimEnd path)))
    · exact Or.inl h

/-- Both strategies answer the same question. -/
theorem covers_iff (s : PrefixSet) (path : Str) :
    s.covers path = true ↔ ∃ m ∈ s.paths, under path m = true := by
  unfold covers
  split
  · rename_i h
    simp [List.length_eq_zero_iff.mp h]
  · split
    · simp
    · simp only [List.any_eq_true, List.contains_iff_mem, s.same]
      constructor
      · rintro ⟨m, ha, hm⟩
        exact ⟨m, hm, (under_iff_mem_ancestors path m (s.trimmed m hm)).mpr ha⟩
      · rintro ⟨m, hm, hu⟩
        exact ⟨m, (under_iff_mem_ancestors path m (s.trimmed m hm)).mp hu, hm⟩

theorem covers_of_mem {s : PrefixSet} {m : Str} (h : m ∈ s.paths) : s.covers m = true := by
  have := under_self m
  rw [s.trimmed m h] at this
  exact (covers_iff s m).mpr ⟨m, h, this⟩

@[simp] theorem covers_empty (path : Str) : empty.covers path = false := rfl

theorem covers_new (paths : List Str) (path : Str) :
    (new paths).covers path = true ↔ ∃ m ∈ paths, under path m = true := by
  rw [covers_iff]
  constructor
  · rintro ⟨m, hm, hu⟩
    obtain ⟨q, hq, rfl⟩ := (reduce_spec paths).1 m hm
    exact ⟨q, hq, by simpa using hu⟩
  · rintro ⟨q, hq, hu⟩
    obtain ⟨k, hk, hqk⟩ := (reduce_spec paths).2 q hq
    exact ⟨k, hk, under_trans hu hqk⟩

theorem covers_extend (s : PrefixSet) (paths : List Str) (path : Str) :
    (s.extend paths).covers path = true ↔
      s.covers path = true ∨ ∃ m ∈ paths, under path m = true := by
  rw [extend, covers_new, covers_iff]
  simp only [List.mem_append]
  constructor
  · rintro ⟨m, h | h, hu⟩
    · exact Or.inl ⟨m, h, hu⟩
    · exact Or.inr ⟨m, h, hu⟩
  · rintro (⟨m, h, hu⟩ | ⟨m, h, hu⟩)
    · exact ⟨m, Or.inl h, hu⟩
    · exact ⟨m, Or.inr h, hu⟩

theorem mem_forget (s : PrefixSet) (path m : Str) :
    m ∈ (s.forget path).paths ↔ m ∈ s.paths ∧ m ≠ trimEnd path := by
  unfold forget
  simp only
  split
  · simp
  · rename_i h
    constructor
    · intro hm
      refine ⟨hm, ?_⟩
      rintro rfl
      exact h (by simpa using (s.same _).mpr hm)
    · exact fun h => h.1

/-- What is left covers what a member other than `path` covered. -/
theorem covers_forget (s : PrefixSet) (path x : Str) :
    (s.forget path).covers x = true ↔ ∃ m ∈ s.paths, m ≠ trimEnd path ∧ under x m = true := by
  rw [covers_iff]
  simp only [mem_forget, and_assoc]

theorem isEmpty_iff (s : PrefixSet) : s.isEmpty = true ↔ s.paths = [] := by
  simp [isEmpty]

theorem covers_of_isEmpty (s : PrefixSet) (h : s.isEmpty = true) (x : Str) : s.covers x = false := by
  rw [isEmpty_iff] at h
  simp [covers, h]

end PrefixSet

theorem under_refl (p : Str) : under p p = true := by
  rw [under_iff]
  obtain ⟨n, hn⟩ := PrefixSet.eq_trimEnd_append p
  cases n with
  | zero => exact Or.inr (Or.inl (by simpa using hn))
  | succ n =>
    refine Or.inr (Or.inr ⟨List.replicate n slash, ?_⟩)
    conv_rhs => rw [hn]
    simp [List.replicate_succ]

end Scour
