import Mathlib.Data.List.GetD
import Scour.Lib.PartitionPoint
import Scour.Path

/-!
# The directory table

Every directory once, sorted and numbered.  Decoded here: the front coding of the rows is not, so
`get` is a list access and a restart is every sixteenth path.

`lowerBound` is the table's two-level search, a binary search over the restarts and a walk of the
one block that can hold the answer (`lowerBound_spec`).  `exact` and `subtree` follow from it: the
number of exactly this path, and the directories strictly below one as a range (`mem_below_iff`),
because `/` is the byte before `0`.
-/

namespace Scour

/-- Rows every `RESTART` restart the front coding from nothing. -/
def RESTART : Nat := 16

/-- A directory table, read in place. -/
structure DirTable where
  paths : List Str
deriving DecidableEq

/-- A directory and everything below it, as the two ranges it really is. -/
structure DirScope where
  /-- The directory's own number, when the table holds it. -/
  own : Option Nat
  /-- Its descendants, which are contiguous: first and one past last. -/
  below : Nat × Nat

namespace DirScope

def contains (s : DirScope) (id : Nat) : Bool :=
  s.own == some id || (s.below.1 ≤ id && id < s.below.2)

/-- Could any number between `lo` and `hi` be in this scope? -/
def intersects (s : DirScope) (lo hi : Nat) : Bool :=
  s.own.any (fun o => lo ≤ o && o ≤ hi) || (s.below.1 ≤ hi && lo < s.below.2)

/-- Nothing at all: what an unknown path resolves to. -/
def isEmpty (s : DirScope) : Bool := s.own.isNone && s.below.2 ≤ s.below.1

theorem contains_iff (s : DirScope) (id : Nat) :
    s.contains id = true ↔ s.own = some id ∨ (s.below.1 ≤ id ∧ id < s.below.2) := by
  simp [contains]

theorem not_contains_of_isEmpty (s : DirScope) (h : s.isEmpty = true) (id : Nat) :
    s.contains id = false := by
  simp only [isEmpty, Bool.and_eq_true, Option.isNone_iff_eq_none, decide_eq_true_eq] at h
  rw [Bool.eq_false_iff, ne_eq, contains_iff]
  rintro (h1 | h1)
  · rw [h.1] at h1
    cases h1
  · omega

theorem intersects_of_contains (s : DirScope) (id lo hi : Nat) (hlo : lo ≤ id) (hhi : id ≤ hi)
    (h : s.contains id = true) : s.intersects lo hi = true := by
  rw [contains_iff] at h
  simp only [intersects, Bool.or_eq_true, Bool.and_eq_true, decide_eq_true_eq]
  rcases h with h | h
  · left
    simp [h, hlo, hhi]
  · right
    omega

end DirScope

namespace DirTable

def get (t : DirTable) (id : Nat) : Option Str := t.paths[id]?

/-- The path stored at a restart. -/
def restartBytes (t : DirTable) (block : Nat) : Option Str := t.paths[block * RESTART]?

/-- The first number whose path is not less than `pfx`. -/
def lowerBound (t : DirTable) (pfx : Str) : Nat :=
  if t.paths.length = 0 then 0
  else
    let blocks := (t.paths.length + (RESTART - 1)) / RESTART
    let lo := Search.partitionPoint blocks fun mid => (t.restartBytes mid).any (· < pfx)
    -- `lo` is the first block starting at or after `pfx`: the answer is in the one before it
    let first := (lo - 1) * RESTART
    match (List.range RESTART).find? fun step => (t.paths[first + step]?).any (pfx ≤ ·) with
    | some step => first + step
    | none => min (first + RESTART) t.paths.length

/-- The number of exactly this path, if the table holds it. -/
def exact (t : DirTable) (path : Str) : Option Nat :=
  let path := trimEnd path
  let at_ := t.lowerBound path
  if t.get at_ = some path then some at_ else none

/-- Every directory number at or beneath `pfx`. -/
def subtree (t : DirTable) (pfx : Str) : DirScope :=
  let pfx := trimEnd pfx
  let first := t.lowerBound (pfx ++ [slash])
  let last := t.lowerBound (pfx ++ [slash + 1])
  ⟨t.exact pfx, (first, max last first)⟩

/-! ## The search -/

/-- What the writer leaves: each path once, in order. -/
def Sorted (t : DirTable) : Prop := t.paths.Pairwise (· < ·)

theorem getElem?_lt_of_lt {t : DirTable} (ht : t.Sorted) {i j : Nat} {p q : Str} (hij : i < j)
    (hi : t.paths[i]? = some p) (hj : t.paths[j]? = some q) : p < q := by
  obtain ⟨hi', rfl⟩ := List.getElem?_eq_some_iff.mp hi
  obtain ⟨hj', rfl⟩ := List.getElem?_eq_some_iff.mp hj
  exact List.pairwise_iff_getElem.mp ht i j hi' hj' hij

/-- The lower bound splits the table: what is below it is less, the rest is not. -/
theorem lowerBound_spec (t : DirTable) (ht : t.Sorted) (pfx : Str) :
    t.lowerBound pfx ≤ t.paths.length ∧
      ∀ i p, t.paths[i]? = some p → (i < t.lowerBound pfx ↔ p < pfx) := by
  unfold lowerBound
  split
  · rename_i h
    have : t.paths = [] := List.length_eq_zero_iff.mp h
    simp [this]
  · rename_i hne
    simp only
    generalize hb : (t.paths.length + (RESTART - 1)) / RESTART = blocks
    have hR : RESTART = 16 := rfl
    have hdown : Search.DownTo blocks fun mid => (t.restartBytes mid).any (· < pfx) := by
      intro i j hij hj h
      rcases Nat.lt_or_eq_of_le hij with hlt | rfl
      · simp only [restartBytes, Option.any_eq_true, decide_eq_true_eq] at h ⊢
        obtain ⟨q, hq, hqp⟩ := h
        have hi : i * RESTART < t.paths.length := by
          have := (List.getElem?_eq_some_iff.mp hq).1
          rw [hR] at *
          omega
        refine ⟨t.paths[i * RESTART], List.getElem?_eq_getElem hi, ?_⟩
        exact lt_trans (getElem?_lt_of_lt ht (by rw [hR]; omega) (List.getElem?_eq_getElem hi) hq) hqp
      · exact h
    have hle := Search.partitionPoint_le blocks _ hdown
    have hlt := Search.lt_partitionPoint_iff blocks _ hdown
    generalize Search.partitionPoint blocks (fun mid => (t.restartBytes mid).any (· < pfx)) = lo at hle hlt
    -- everything before the block is less than `pfx`
    have hbefore : ∀ i p, i < (lo - 1) * RESTART → t.paths[i]? = some p → p < pfx := by
      intro i p hi hp
      have h1 : lo - 1 < blocks := by rw [hR] at hi; omega
      have h2 := (hlt (lo - 1) h1).mp (by rw [hR] at hi; omega)
      simp only [restartBytes, Option.any_eq_true, decide_eq_true_eq] at h2
      obtain ⟨q, hq, hqp⟩ := h2
      exact lt_trans (getElem?_lt_of_lt ht hi hp hq) hqp
    -- and everything after it is not
    have hafter : ∀ i p, (lo - 1) * RESTART + RESTART ≤ i → t.paths[i]? = some p → pfx ≤ p := by
      intro i p hi hp
      have hil := (List.getElem?_eq_some_iff.mp hp).1
      rcases Nat.eq_zero_or_pos lo with h0 | h0
      · subst h0
        have h1 : 0 < blocks := by rw [← hb, hR]; omega
        have h2 : ¬ (t.restartBytes 0).any (· < pfx) = true := fun h => by
          have := (hlt 0 h1).mpr h
          omega
        have h3 : 0 < t.paths.length := by omega
        simp only [restartBytes, Nat.zero_mul, List.getElem?_eq_getElem h3, Option.any_some,
          decide_eq_true_eq, not_lt] at h2
        exact le_of_lt (lt_of_le_of_lt h2
          (getElem?_lt_of_lt ht (by rw [hR] at hi; omega) (List.getElem?_eq_getElem h3) hp))
      · have h1 : lo < blocks := by rw [← hb]; rw [hR] at *; omega
        have h2 : ¬ (t.restartBytes lo).any (· < pfx) = true := fun h => by
          have := (hlt lo h1).mpr h
          omega
        have hidx : lo * RESTART ≤ i := by rw [hR] at *; omega
        have h3 : lo * RESTART < t.paths.length := by omega
        simp only [restartBytes, List.getElem?_eq_getElem h3, Option.any_some,
          decide_eq_true_eq, not_lt] at h2
        rcases Nat.lt_or_eq_of_le hidx with h4 | h4
        · exact le_of_lt (lt_of_le_of_lt h2
            (getElem?_lt_of_lt ht h4 (List.getElem?_eq_getElem h3) hp))
        · rw [← h4, List.getElem?_eq_getElem h3, Option.some.injEq] at hp
          rwa [hp] at h2
    generalize (lo - 1) * RESTART = first at hbefore hafter
    cases hf : (List.range RESTART).find? fun step => (t.paths[first + step]?).any (pfx ≤ ·) with
    | some step =>
      obtain ⟨hstep, k, hk, hks, hprev⟩ := List.find?_eq_some_iff_getElem.mp hf
      simp only [List.getElem_range] at hks
      subst hks
      simp only [Option.any_eq_true, decide_eq_true_eq] at hstep
      obtain ⟨q, hq, hpq⟩ := hstep
      have hql := (List.getElem?_eq_some_iff.mp hq).1
      refine ⟨by simp only; omega, fun i p hp => ⟨fun hi => ?_, fun h => ?_⟩⟩
      · simp only at hi
        rcases Nat.lt_or_ge i first with h' | h'
        · exact hbefore i p h' hp
        · have := hprev (i - first) (by omega)
          simp only [List.getElem_range, show first + (i - first) = i by omega, hp,
            Option.any_some, Bool.not_eq_true', decide_eq_false_iff_not, not_le] at this
          exact this
      · simp only
        by_contra hge
        rcases Nat.lt_or_eq_of_le (Nat.le_of_not_lt hge) with h' | h'
        · exact absurd (lt_trans (lt_of_le_of_lt hpq (getElem?_lt_of_lt ht h' hq hp)) h) (lt_irrefl _)
        · rw [← h', hq, Option.some.injEq] at hp
          rw [← hp] at h
          exact absurd (lt_of_le_of_lt hpq h) (lt_irrefl _)
    | none =>
      have hnone := List.find?_eq_none.mp hf
      refine ⟨by simp only; omega, fun i p hp => ⟨fun hi => ?_, fun h => ?_⟩⟩
      · simp only at hi
        rcases Nat.lt_or_ge i first with h' | h'
        · exact hbefore i p h' hp
        · have := hnone (i - first) (by rw [List.mem_range]; omega)
          simpa [show first + (i - first) = i by omega, hp] using this
      · simp only
        have hil := (List.getElem?_eq_some_iff.mp hp).1
        rcases Nat.lt_or_ge i (first + RESTART) with h' | h'
        · omega
        · exact absurd (lt_of_le_of_lt (hafter i p h' hp) h) (lt_irrefl _)

theorem exact_eq_some_iff (t : DirTable) (ht : t.Sorted) (path : Str) (i : Nat) :
    t.exact path = some i ↔ t.paths[i]? = some (trimEnd path) := by
  obtain ⟨-, hlb⟩ := lowerBound_spec t ht (trimEnd path)
  unfold exact get
  simp only
  constructor
  · intro h
    split at h
    · rename_i hg
      rw [Option.some.injEq] at h
      rwa [← h]
    · cases h
  · intro h
    -- the lower bound is the position that holds it
    have h1 : ¬ i < t.lowerBound (trimEnd path) := fun hi => lt_irrefl _ ((hlb i _ h).mp hi)
    have hil := (List.getElem?_eq_some_iff.mp h).1
    have h2 : ¬ t.lowerBound (trimEnd path) < i := by
      intro hi
      have hp := List.getElem?_eq_getElem (show t.lowerBound (trimEnd path) < t.paths.length by omega)
      have := (hlb _ _ hp).mpr (getElem?_lt_of_lt ht hi hp h)
      omega
    have : t.lowerBound (trimEnd path) = i := by omega
    rw [this, if_pos h]

/-- `/` is the byte before `0`: what starts with `p/` is what sorts between the two. -/
theorem below_iff_between (x p : Str) :
    Below x p ↔ ¬ x < p ++ [slash] ∧ x < p ++ [slash + 1] := by
  unfold Below
  induction p generalizing x with
  | nil =>
    cases x with
    | nil => simp
    | cons b x =>
      have hs : (slash + 1 : UInt8) = 48 := by decide
      simp only [List.nil_append, List.cons_prefix_cons, List.nil_prefix, and_true,
        List.cons_lt_cons_iff, List.not_lt_nil, and_false, or_false, hs, slash]
      rw [UInt8.lt_iff_toNat_lt, UInt8.lt_iff_toNat_lt, ← UInt8.toNat_inj]
      simp only [UInt8.toNat_ofNat]
      omega
  | cons a p ih =>
    cases x with
    | nil => simp
    | cons b x =>
      simp only [List.cons_append, List.cons_prefix_cons, List.cons_lt_cons_iff]
      rw [ih]
      constructor
      · rintro ⟨rfl, h1, h2⟩
        exact ⟨by simpa using h1, by simpa using h2⟩
      · rintro ⟨h1, h2⟩
        push Not at h1
        rcases h2 with h2 | ⟨rfl, h2⟩
        · exact absurd h2 (not_lt.mpr h1.1)
        · exact ⟨rfl, not_lt.mpr (h1.2 rfl), h2⟩

theorem mem_below_iff (t : DirTable) (ht : t.Sorted) (pfx : Str) (i : Nat) (q : Str)
    (hi : t.paths[i]? = some q) :
    ((t.subtree pfx).below.1 ≤ i ∧ i < (t.subtree pfx).below.2) ↔ Below q (trimEnd pfx) := by
  obtain ⟨-, h1⟩ := lowerBound_spec t ht (trimEnd pfx ++ [slash])
  obtain ⟨-, h2⟩ := lowerBound_spec t ht (trimEnd pfx ++ [slash + 1])
  rw [below_iff_between, ← h1 i q hi, ← h2 i q hi]
  simp only [subtree]
  omega

/-- A directory is in the scope of a path when it is that path or below it. -/
theorem subtree_contains_iff (t : DirTable) (ht : t.Sorted) (pfx : Str) (i : Nat) (q : Str)
    (hi : t.paths[i]? = some q) :
    (t.subtree pfx).contains i = true ↔ q = trimEnd pfx ∨ Below q (trimEnd pfx) := by
  rw [DirScope.contains_iff, mem_below_iff t ht pfx i q hi]
  have : (t.subtree pfx).own = some i ↔ q = trimEnd pfx := by
    simp only [subtree]
    rw [exact_eq_some_iff t ht, hi, Option.some.injEq, trimEnd_trimEnd]
  rw [this]

theorem lowerBound_le (t : DirTable) (ht : t.Sorted) (pfx : Str) :
    t.lowerBound pfx ≤ t.paths.length := (lowerBound_spec t ht pfx).1

end DirTable

/-! ## Writing the table -/

/-- Builds the table.  `seen` is the position of a path in `paths`. -/
structure DirWriter where
  paths : List Str

namespace DirWriter

def empty : DirWriter := ⟨[]⟩

/-- The number for this directory, adding it if it is new.  Provisional. -/
def intern (w : DirWriter) (path : Str) : DirWriter × Nat :=
  if path ∈ w.paths then (w, w.paths.idxOf path) else (⟨w.paths ++ [path]⟩, w.paths.length)

/-- Interns every path in turn, collecting the numbers. -/
def internAll (w : DirWriter) : List Str → DirWriter × List Nat
  | [] => (w, [])
  | p :: ps =>
      let (w, id) := w.intern p
      let (w, ids) := w.internAll ps
      (w, id :: ids)

/-- The order of the provisional numbers by path. -/
def order (w : DirWriter) : List Nat :=
  (List.range w.paths.length).insertionSort fun a b => w.paths.getD a [] ≤ w.paths.getD b []

/-- The table, and the remapping from provisional numbers. -/
def finish (w : DirWriter) : DirTable × List Nat :=
  let order := w.order
  (⟨order.map fun p => w.paths.getD p []⟩, (List.range w.paths.length).map fun p => order.idxOf p)

theorem intern_nodup (w : DirWriter) (path : Str) (h : w.paths.Nodup) :
    (w.intern path).1.paths.Nodup := by
  unfold intern
  split
  · exact h
  · rename_i hp
    simp only
    rw [List.nodup_append]
    refine ⟨h, List.nodup_singleton _, ?_⟩
    rintro a ha b hb rfl
    exact hp (by rwa [List.mem_singleton.mp hb] at ha)

theorem prefix_intern (w : DirWriter) (path : Str) : w.paths <+: (w.intern path).1.paths := by
  unfold intern
  split
  · exact List.prefix_refl _
  · exact List.prefix_append _ _

theorem intern_getElem? (w : DirWriter) (path : Str) :
    (w.intern path).1.paths[(w.intern path).2]? = some path := by
  unfold intern
  split
  · rename_i h
    simp only
    rw [List.getElem?_eq_some_iff]
    exact ⟨List.idxOf_lt_length_iff.mpr h, List.getElem_idxOf _⟩
  · simp

theorem intern_mem (w : DirWriter) (path q : Str) :
    q ∈ (w.intern path).1.paths ↔ q ∈ w.paths ∨ q = path := by
  unfold intern
  split
  · rename_i h
    constructor
    · exact Or.inl
    · rintro (hq | rfl)
      · exact hq
      · exact h
  · simp

/-- Every number handed out names its path in the finished list of paths. -/
theorem internAll_spec (ps : List Str) :
    ∀ w : DirWriter, w.paths.Nodup →
      (w.internAll ps).1.paths.Nodup ∧ w.paths <+: (w.internAll ps).1.paths ∧
      (w.internAll ps).2.length = ps.length ∧
      (∀ (i : Nat) (p : Str), ps[i]? = some p → ∃ id : Nat, (w.internAll ps).2[i]? = some id ∧
        (w.internAll ps).1.paths[id]? = some p) ∧
      ∀ q, q ∈ (w.internAll ps).1.paths ↔ q ∈ w.paths ∨ q ∈ ps := by
  induction ps with
  | nil =>
    intro w hw
    exact ⟨hw, List.prefix_refl _, rfl, by simp, by simp [internAll]⟩
  | cons p ps ih =>
    intro w hw
    obtain ⟨hnd, hpre, hlen, hget, hmem⟩ := ih (w.intern p).1 (w.intern_nodup p hw)
    refine ⟨hnd, (w.prefix_intern p).trans hpre, by simp [internAll, hlen], ?_, ?_⟩
    · intro i q hi
      cases i with
      | zero =>
        simp only [List.getElem?_cons_zero, Option.some.injEq] at hi
        subst hi
        refine ⟨(w.intern p).2, by simp [internAll], ?_⟩
        obtain ⟨hlt, hp⟩ := List.getElem?_eq_some_iff.mp (w.intern_getElem? p)
        show ((w.intern p).1.internAll ps).1.paths[(w.intern p).2]? = some p
        rw [List.getElem?_eq_some_iff]
        exact ⟨Nat.lt_of_lt_of_le hlt hpre.length_le, (hpre.getElem hlt).symm.trans hp⟩
      | succ i =>
        obtain ⟨id, h1, h2⟩ := hget i q (by simpa using hi)
        exact ⟨id, by simpa [internAll] using h1, h2⟩
    · intro q
      simp only [internAll]
      rw [hmem, w.intern_mem, List.mem_cons, or_assoc]

theorem order_perm (w : DirWriter) : w.order.Perm (List.range w.paths.length) :=
  List.perm_insertionSort _ _

theorem finish_sorted (w : DirWriter) (hw : w.paths.Nodup) : w.finish.1.Sorted := by
  unfold DirTable.Sorted finish
  simp only
  rw [List.pairwise_map]
  have hs : w.order.Pairwise fun a b => w.paths.getD a [] ≤ w.paths.getD b [] :=
    @List.pairwise_insertionSort _ (fun a b => w.paths.getD a [] ≤ w.paths.getD b [])
      (fun _ _ => inferInstance) ⟨fun _ _ => le_total _ _⟩ ⟨fun _ _ _ => le_trans⟩ _
  have hnd : w.order.Nodup := w.order_perm.nodup_iff.mpr List.nodup_range
  refine (List.pairwise_iff_getElem.mpr fun i j hi hj hij => lt_of_le_of_ne
    (List.pairwise_iff_getElem.mp hs i j hi hj hij) fun heq => ?_)
  -- two numbers with one path are one number
  have hb : ∀ k, (hk : k < w.order.length) → w.order[k] < w.paths.length := fun k hk =>
    List.mem_range.mp (w.order_perm.mem_iff.mp (List.getElem_mem hk))
  rw [List.getD_eq_getElem _ _ (hb i hi), List.getD_eq_getElem _ _ (hb j hj)] at heq
  have h1 := (List.Nodup.getElem_inj_iff hw).mp heq
  have h2 := (List.Nodup.getElem_inj_iff hnd).mp h1
  omega

/-- The remapped number of an interned path names it in the table. -/
theorem finish_remap (w : DirWriter) (id : Nat) (p : Str) (h : w.paths[id]? = some p) :
    w.finish.1.paths[w.finish.2.getD id 0]? = some p := by
  obtain ⟨hid, hp⟩ := List.getElem?_eq_some_iff.mp h
  have hmem : id ∈ w.order := w.order_perm.mem_iff.mpr (List.mem_range.mpr hid)
  have hlt := List.idxOf_lt_length_iff.mpr hmem
  simp only [finish]
  rw [List.getD_eq_getElem _ _ (by simpa using hid), List.getElem_map, List.getElem_range,
    List.getElem?_eq_some_iff]
  refine ⟨by simpa using hlt, ?_⟩
  rw [List.getElem_map, List.getElem_idxOf, List.getD_eq_getElem _ _ hid, hp]

theorem mem_finish (w : DirWriter) (q : Str) : q ∈ w.finish.1.paths ↔ q ∈ w.paths := by
  simp only [finish, List.mem_map]
  constructor
  · rintro ⟨i, hi, rfl⟩
    have := List.mem_range.mp (w.order_perm.mem_iff.mp hi)
    rw [List.getD_eq_getElem _ _ this]
    exact List.getElem_mem _
  · intro hq
    obtain ⟨i, hi, rfl⟩ := List.mem_iff_getElem.mp hq
    exact ⟨i, w.order_perm.mem_iff.mpr (List.mem_range.mpr hi), List.getD_eq_getElem _ _ hi⟩

end DirWriter

end Scour
