import Mathlib.Data.List.DropRight
import Mathlib.Data.List.Infix
import Mathlib.Data.List.Lex
import Mathlib.Data.UInt

/-!
# Paths as the index spells them

A Rust `str` is its bytes here (`Str`), and `str` comparison is the byte order.  `under path pfx`
is `scour_core::under`: a separator boundary, not a string prefix.  `Path` is what a source hands
over: absolute, `/`-separated, never a doubled separator.

`joinPath` puts together what `splitPath` takes apart (`joinPath_splitPath`), and a row lies below
a directory exactly when the row's own directory is that directory or below it
(`below_iff_dir`).
-/

namespace Scour

/-- The bytes of a `str`. -/
abbrev Str := List UInt8

/-- A literal, encoded. -/
def str (s : String) : Str := s.toList.flatMap String.utf8EncodeChar

/-- `'/'`. -/
abbrev slash : UInt8 := 47

instance linearOrderUInt8 : LinearOrder UInt8 where
  le_refl := UInt8.le_refl
  le_trans _ _ _ := UInt8.le_trans
  le_antisymm _ _ := UInt8.le_antisymm
  le_total := UInt8.le_total
  lt_iff_le_not_ge a b := by
    rw [UInt8.lt_iff_toNat_lt, UInt8.le_iff_toNat_le, UInt8.le_iff_toNat_le]
    omega
  toDecidableLE := inferInstance
  toDecidableLT := inferInstance
  toDecidableEq := inferInstance

/-- `str::trim_end_matches('/')`. -/
def trimEnd (p : Str) : Str := p.rdropWhile (· == slash)

/-- `str::rsplit_once('/')`. -/
def rsplitOnce : Str → Option (Str × Str)
  | [] => none
  | b :: rest =>
      match rsplitOnce rest with
      | some (l, r) => some (b :: l, r)
      | none => if b = slash then some ([], rest) else none

/-- Is `path` at or below `pfx`?  A separator boundary, not a string prefix. -/
def under (path pfx : Str) : Bool :=
  let p := trimEnd pfx
  if p.isEmpty then true
  else path == p ||
    (p.length < path.length && p.isPrefixOf path && path[p.length]? == some slash)

/-- `path` is strictly below `p`. -/
def Below (path p : Str) : Prop := p ++ [slash] <+: path

instance (path p : Str) : Decidable (Below path p) := by unfold Below; infer_instance

/-- The directory and the name of a path, as a row stores them (`Entry::parent`, `Entry::name`,
`Segment::split_path`). -/
def splitPath (path : Str) : Str × Str :=
  match rsplitOnce path with
  | some ([], name) => ([slash], name)
  | some (parent, name) => (parent, name)
  | none => ([], path)

/-- `Segment::path`: a row's directory joined to its name. -/
def joinPath (dir name : Str) : Str :=
  if dir = [] then name
  else if dir = [slash] then slash :: name
  else dir ++ slash :: name

/-- No two separators side by side. -/
def noDouble : Str → Bool
  | a :: b :: rest => !(a == slash && b == slash) && noDouble (b :: rest)
  | _ => true

/-- Absolute, `/`-separated, no doubled separator. -/
def isPath (p : Str) : Bool := p.head? == some slash && noDouble p

/-- A path as a source hands it over. -/
structure Path where
  bytes : Str
  ok : isPath bytes = true
deriving DecidableEq

/-! ## `trim_end_matches` and `rsplit_once` -/

@[simp] theorem trimEnd_nil : trimEnd [] = [] := rfl

theorem prefix_trimEnd (p : Str) : trimEnd p <+: p := List.rdropWhile_prefix _ _

@[simp] theorem trimEnd_trimEnd (p : Str) : trimEnd (trimEnd p) = trimEnd p :=
  List.rdropWhile_idempotent _ _

theorem trimEnd_eq_self_iff (p : Str) : trimEnd p = p ↔ ∀ q, p ≠ q ++ [slash] := by
  unfold trimEnd
  rw [List.rdropWhile_eq_self_iff]
  constructor
  · rintro h q rfl
    exact h (by simp) (by simp)
  · intro h hne hlast
    have hl : p.getLast hne = slash := by simpa using hlast
    exact h p.dropLast (by rw [← hl, List.dropLast_append_getLast])

theorem trimEnd_concat_slash (p : Str) : trimEnd (p ++ [slash]) = trimEnd p :=
  List.rdropWhile_concat_pos _ _ _ (by simp)

theorem trimEnd_concat_of_ne (p : Str) {b : UInt8} (hb : b ≠ slash) :
    trimEnd (p ++ [b]) = p ++ [b] :=
  List.rdropWhile_concat_neg _ _ _ (by simpa using hb)

theorem rsplitOnce_eq_none_iff (p : Str) : rsplitOnce p = none ↔ slash ∉ p := by
  induction p with
  | nil => simp [rsplitOnce]
  | cons b rest ih =>
    unfold rsplitOnce
    cases h : rsplitOnce rest with
    | some lr =>
      have : slash ∈ rest := by
        by_contra hc
        rw [ih.mpr hc] at h
        cases h
      simp [this]
    | none =>
      have hr := ih.mp h
      by_cases hb : b = slash
      · simp [hb]
      · simp [hb, hr, Ne.symm hb]

theorem rsplitOnce_append (l r : Str) (hr : slash ∉ r) :
    rsplitOnce (l ++ slash :: r) = some (l, r) := by
  induction l with
  | nil => simp [rsplitOnce, (rsplitOnce_eq_none_iff r).mpr hr]
  | cons b l ih => simp [rsplitOnce, ih]

theorem rsplitOnce_eq_some_iff (p l r : Str) :
    rsplitOnce p = some (l, r) ↔ p = l ++ slash :: r ∧ slash ∉ r := by
  constructor
  · intro h
    induction p generalizing l with
    | nil => cases h
    | cons b rest ih =>
      unfold rsplitOnce at h
      cases hs : rsplitOnce rest with
      | some lr =>
        obtain ⟨l', r'⟩ := lr
        simp only [hs, Option.some.injEq, Prod.mk.injEq] at h
        obtain ⟨rfl, rfl⟩ := h
        obtain ⟨rfl, hr⟩ := ih l' hs
        exact ⟨rfl, hr⟩
      | none =>
        simp only [hs] at h
        split at h
        · rename_i hb
          simp only [Option.some.injEq, Prod.mk.injEq] at h
          obtain ⟨rfl, rfl⟩ := h
          exact ⟨by rw [hb]; rfl, (rsplitOnce_eq_none_iff _).mp hs⟩
        · cases h
  · rintro ⟨rfl, hr⟩
    exact rsplitOnce_append l r hr

/-! ## `under` -/

theorem prefix_iff_lt_getElem (path p : Str) :
    p ++ [slash] <+: path ↔
      p.length < path.length ∧ p.isPrefixOf path = true ∧ path[p.length]? = some slash := by
  rw [List.isPrefixOf_iff_prefix]
  constructor
  · rintro ⟨t, rfl⟩
    exact ⟨by simp, ⟨slash :: t, by simp⟩, by simp⟩
  · rintro ⟨-, ⟨t, rfl⟩, h⟩
    cases t with
    | nil => simp at h
    | cons b t =>
      have hb : b = slash := by simpa using h
      exact ⟨t, by simp [hb]⟩

theorem under_iff (path pfx : Str) :
    under path pfx = true ↔
      trimEnd pfx = [] ∨ path = trimEnd pfx ∨ Below path (trimEnd pfx) := by
  unfold under Below
  rw [prefix_iff_lt_getElem]
  by_cases h : trimEnd pfx = []
  · simp [h]
  · have : (trimEnd pfx).isEmpty = false := by simpa using h
    simp [this, h, and_assoc]

@[simp] theorem under_trimEnd (path pfx : Str) : under path (trimEnd pfx) = under path pfx := by
  rw [Bool.eq_iff_iff, under_iff, under_iff, trimEnd_trimEnd]

theorem Below.trans {x p q : Str} (hxp : Below x p) (hpq : Below p q) : Below x q :=
  List.IsPrefix.trans hpq (List.IsPrefix.trans (List.prefix_append p [slash]) hxp)

theorem under_trans {x p q : Str} (hxp : under x p = true) (hpq : under (trimEnd p) q = true) :
    under x q = true := by
  rw [under_iff] at *
  rcases hpq with hq | hpq | hpq
  · exact Or.inl hq
  · rw [← hpq]
    exact hxp
  · rcases hxp with hp | rfl | hxp
    · rw [hp] at hpq
      obtain ⟨t, ht⟩ := hpq
      simp at ht
    · exact Or.inr (Or.inr hpq)
    · exact Or.inr (Or.inr (hxp.trans hpq))

theorem under_self (p : Str) : under (trimEnd p) p = true := by
  rw [under_iff]
  exact Or.inr (Or.inl rfl)

/-! ## Splitting and joining -/

theorem splitPath_name_slash (p : Str) : slash ∉ (splitPath p).2 := by
  unfold splitPath
  split
  · rename_i name h
    exact ((rsplitOnce_eq_some_iff _ _ _).mp h).2
  · rename_i parent name _ h
    exact ((rsplitOnce_eq_some_iff _ _ _).mp h).2
  · rename_i h
    exact (rsplitOnce_eq_none_iff _).mp h

theorem noDouble_append_cons (l r : Str) (h : noDouble (l ++ slash :: slash :: r) = true) : False := by
  induction l with
  | nil => simp [noDouble] at h
  | cons b l ih =>
    cases l with
    | nil => simp [noDouble] at h
    | cons c l =>
      simp only [List.cons_append, noDouble, Bool.and_eq_true] at h
      exact ih h.2

theorem Path.head (p : Path) : ∃ t, p.bytes = slash :: t := by
  have h := p.ok
  cases hp : p.bytes with
  | nil => simp [isPath, hp] at h
  | cons b t =>
    simp only [isPath, hp, List.head?_cons, Bool.and_eq_true, beq_iff_eq, Option.some.injEq] at h
    exact ⟨t, by rw [h.1]⟩

theorem Path.noDouble (p : Path) : Scour.noDouble p.bytes = true := by
  have h := p.ok
  rw [isPath, Bool.and_eq_true] at h
  exact h.2

/-- The last separator of a path, and the two cases of its directory. -/
theorem Path.split (p : Path) :
    ∃ l r, p.bytes = l ++ slash :: r ∧ slash ∉ r ∧
      splitPath p.bytes = (if l = [] then [slash] else l, r) ∧ l ≠ [slash] := by
  obtain ⟨t, ht⟩ := p.head
  cases h : rsplitOnce p.bytes with
  | none => exact absurd ((rsplitOnce_eq_none_iff _).mp h) (by simp [ht])
  | some lr =>
    obtain ⟨l, r⟩ := lr
    obtain ⟨hp, hr⟩ := (rsplitOnce_eq_some_iff _ _ _).mp h
    refine ⟨l, r, hp, hr, ?_, ?_⟩
    · unfold splitPath
      rw [h]
      cases l <;> rfl
    · rintro rfl
      exact noDouble_append_cons [] r (by simpa [hp] using p.noDouble)

theorem joinPath_splitPath (p : Path) : joinPath (splitPath p.bytes).1 (splitPath p.bytes).2 = p.bytes := by
  obtain ⟨l, r, hp, -, hs, hl⟩ := p.split
  rw [hs, hp]
  unfold joinPath
  by_cases h : l = []
  · simp [h]
  · simp [h, hl]

/-- Splitting is injective on paths. -/
theorem splitPath_injective {p q : Path} (h : splitPath p.bytes = splitPath q.bytes) :
    p.bytes = q.bytes := by
  rw [← joinPath_splitPath p, ← joinPath_splitPath q, h]

theorem splitPath_dir_ne_nil (p : Path) : (splitPath p.bytes).1 ≠ [] := by
  obtain ⟨l, r, -, -, hs, -⟩ := p.split
  rw [hs]
  by_cases h : l = [] <;> simp [h]

/-- Below a directory other than the root: the row's own directory is it, or below it. -/
theorem below_iff_dir (p : Path) (q : Str) (hq : q ≠ []) (hqt : trimEnd q = q) :
    Below p.bytes q ↔ (splitPath p.bytes).1 = q ∨ Below (splitPath p.bytes).1 q := by
  obtain ⟨l, r, hp, hr, hs, hl⟩ := p.split
  have hq1 : q ≠ [slash] := by
    intro h
    rw [h] at hqt
    exact absurd hqt (by decide)
  rw [hs, hp]
  unfold Below
  constructor
  · -- the separator after `q` is at or before the last one
    intro h
    have hle : q.length ≤ l.length := by
      by_contra hlt
      obtain ⟨t, ht⟩ := h
      have h1 : (l ++ slash :: r)[q.length]? = some slash := by rw [← ht]; simp
      rw [List.getElem?_append_right (by omega)] at h1
      obtain ⟨k, hk⟩ : ∃ k, q.length - l.length = k + 1 := ⟨q.length - l.length - 1, by omega⟩
      rw [hk, List.getElem?_cons_succ] at h1
      exact hr (List.mem_of_getElem? h1)
    have hl0 : l ≠ [] := by
      rintro rfl
      exact hq (List.length_eq_zero_iff.mp (by simpa using hle))
    simp only [hl0, if_false]
    have hql : q <+: l := by
      refine List.prefix_of_prefix_length_le ((List.prefix_append q [slash]).trans h)
        (List.prefix_append _ _) hle
    rcases Nat.lt_or_eq_of_le hle with hlt | heq
    · right
      exact List.prefix_of_prefix_length_le h (List.prefix_append _ _) (by simp; omega)
    · left
      exact (hql.eq_of_length heq).symm
  · intro h
    have hl0 : l ≠ [] := by
      rintro rfl
      rcases h with h | h
      · exact hq1 (by simpa using h.symm)
      · obtain ⟨t, ht⟩ := h
        cases q with
        | nil => exact hq rfl
        | cons b q => simp at ht
    simp only [hl0, if_false] at h
    rcases h with rfl | h
    · exact ⟨r, by simp⟩
    · exact h.trans (List.prefix_append _ _)

end Scour
