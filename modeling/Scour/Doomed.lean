import Scour.Lib.Intervals
import Scour.Live

/-!
# Removing subtrees from one segment

`Doomed` turns a batch of removals into directory ranges and parent-and-name pairs, `killUnder`
scans for them by blocks, `killLeaves` looks up by identity the ones that name a file, and
`killHidden` does both as a flush does.

What they kill is said by path: the scan takes what `under` says, except a removed path's own row
where that row sits directly under the root (`entries_killUnder`), since `exact("/")` looks the
empty path up; the lookup takes the path itself for the sources it was given (`entries_killHidden`).
-/

namespace Scour

/-- Which rows of one segment a batch of subtree removals takes. -/
structure Doomed where
  /-- Half-open ranges of directory numbers, disjoint and sorted. -/
  inside : List (Nat × Nat)
  /-- `(parent number, name)`, sorted by parent. -/
  named : List (Nat × Str)

namespace Doomed

/-- The ranges one removed path asks for. -/
def rangesOf (seg : Segment) (p : Str) : List (Nat × Nat) :=
  let scope := seg.dirs.subtree p
  (scope.own.map fun own => (own, own + 1)).toList ++
    if scope.below.1 < scope.below.2 then [scope.below] else []

/-- The parent and the name one removed path asks for. -/
def namesOf (seg : Segment) (p : Str) : List (Nat × Str) :=
  match rsplitOnce (trimEnd p) with
  | none => []
  | some (parent, name) =>
      let parent := if parent.isEmpty then [slash] else parent
      match seg.dirs.exact parent with
      | none => []
      | some pd => [(pd, name)]

def nameLe (a b : Nat × Str) : Prop := a.1 < b.1 ∨ (a.1 = b.1 ∧ a.2 ≤ b.2)

instance : DecidableRel nameLe := fun a b => by unfold nameLe; infer_instance

def new (seg : Segment) (prefixes : PrefixSet) : Doomed where
  inside := Search.mergeRanges (prefixes.paths.flatMap (rangesOf seg))
  named := (prefixes.paths.flatMap (namesOf seg)).insertionSort nameLe

def isEmpty (d : Doomed) : Bool := d.inside.isEmpty && d.named.isEmpty

def takes (d : Doomed) (seg : Segment) (row dir : Nat) : Bool :=
  if Search.inRanges d.inside dir then true
  else if d.named.isEmpty then false
  else
    let at_ := Search.partitionPoint d.named.length fun i => (d.named[i]?).any (·.1 < dir)
    if !(d.named[at_]?).any (·.1 == dir) then false
    else
      match seg.names[row]? with
      | none => false
      | some name => ((d.named.drop at_).takeWhile (·.1 = dir)).any (·.2 == name)

/-- Could any row in a block of directory numbers `lo ..= hi` be taken? -/
def touches (d : Doomed) (lo hi : Nat) : Bool :=
  if d.inside.any fun r => r.1 ≤ hi && lo < r.2 then true
  else
    let at_ := Search.partitionPoint d.named.length fun i => (d.named[i]?).any (·.1 < lo)
    (d.named[at_]?).any (·.1 ≤ hi)

/-- A block whose directory numbers all fall outside every removal. -/
def skips (d : Doomed) (seg : Segment) (block : Nat) : Bool :=
  match seg.blockRange .dirId block with
  | some (lo, hi) => 0 ≤ lo && !d.touches lo.toNat hi.toNat
  | none => false

end Doomed

namespace Live

/-- Remove what the removals cover, by scanning the blocks they touch. -/
def killUnder (l : Live) (prefixes : PrefixSet) : Live × Nat :=
  let doomed := Doomed.new l.seg prefixes
  if doomed.isEmpty then (l, 0)
  else
    l.killAll <| Segment.scanBlocks l.rows (doomed.skips l.seg) fun row =>
      l.isAlive row && doomed.takes l.seg row (l.seg.dirId row)

/-- Does this removed path name a file as far as the segment can tell? -/
def isLeaf (seg : Segment) (sources : List SourceId) (p : Str) : Bool :=
  !(sources.isEmpty || (trimEnd p).isEmpty || !(seg.dirs.subtree p).isEmpty)

/-- Remove paths that name a file, touching no other row; returns the ones that still need the
scan. -/
def killLeaves (l : Live) (prefixes : PrefixSet) (sources : List SourceId) :
    (Live × Nat) × PrefixSet :=
  let keep := prefixes.paths.filter fun p => !isLeaf l.seg sources p
  let wanted : List Wanted := (prefixes.paths.filter (isLeaf l.seg sources)).flatMap fun p =>
    sources.map fun source => (keyOf source (trimEnd p), source, trimEnd p)
  let rest := PrefixSet.new keep
  if wanted.isEmpty then ((l, 0), rest)
  else (l.killPaths (wanted.insertionSort fun a b => a.1 ≤ b.1), rest)

/-- One segment's share of a flush's removals. -/
def killHidden (l : Live) (prefixes : PrefixSet) (sources : List SourceId) : Live × Nat :=
  let ((l, leaves), rest) := l.killLeaves prefixes sources
  if rest.isEmpty then (l, leaves)
  else
    let (l, gone) := l.killUnder rest
    (l, leaves + gone)

end Live

/-! ## What the removals mean -/

/-- Does the path sit directly under the root? -/
def rootChild (q : Str) : Bool := (rsplitOnce q).any (·.1.isEmpty)

/-- What the scan takes for one removed path. -/
def hits (q : Str) (e : Entry) : Bool :=
  under e.path.bytes q && !(e.path.bytes == q && rootChild q)

/-- What the scan takes for a batch of them. -/
def scanned (prefixes : PrefixSet) (e : Entry) : Bool := prefixes.paths.any fun q => hits q e

/-- What a flush takes out of one segment. -/
def reached (seg : Segment) (sources : List SourceId) (prefixes : PrefixSet) (e : Entry) : Bool :=
  prefixes.paths.any fun q =>
    if Live.isLeaf seg sources q then e.path.bytes == q && sources.contains e.source
    else hits q e

/-- Every member is the whole tree or a path, as removals are. -/
def PrefixSet.Clean (s : PrefixSet) : Prop := ∀ q ∈ s.paths, q = [] ∨ isPath q = true

namespace PrefixSet

theorem clean_empty : PrefixSet.empty.Clean := by intro q hq; cases hq

theorem noDouble_of_append (l r : Str) (h : noDouble (l ++ r) = true) : noDouble l = true := by
  induction l with
  | nil => rfl
  | cons a l ih =>
    cases l with
    | nil => rfl
    | cons b l =>
      simp only [List.cons_append, noDouble, Bool.and_eq_true] at h ⊢
      exact ⟨h.1, ih h.2⟩

/-- Trimming a path leaves a path, or the whole tree. -/
theorem clean_trimEnd (p : Path) : trimEnd p.bytes = [] ∨ isPath (trimEnd p.bytes) = true := by
  obtain ⟨t, ht⟩ := prefix_trimEnd p.bytes
  cases h : trimEnd p.bytes with
  | nil => exact Or.inl rfl
  | cons b rest =>
    right
    obtain ⟨s, hs⟩ := p.head
    have hb : b = slash := by
      rw [h, hs] at ht
      simpa using congrArg List.head? ht
    have hnd := noDouble_of_append (trimEnd p.bytes) t (by rw [ht]; exact p.noDouble)
    rw [h] at hnd
    simp [isPath, hb]
    exact hb ▸ hnd

theorem Clean.new {paths : List Str} (h : ∀ p ∈ paths, trimEnd p = [] ∨ isPath (trimEnd p) = true) :
    (PrefixSet.new paths).Clean := by
  intro q hq
  obtain ⟨p, hp, rfl⟩ := (reduce_spec paths).1 q hq
  exact h p hp

theorem Clean.extend {s : PrefixSet} (hs : s.Clean) {paths : List Str}
    (h : ∀ p ∈ paths, trimEnd p = [] ∨ isPath (trimEnd p) = true) : (s.extend paths).Clean := by
  refine Clean.new fun p hp => ?_
  rcases List.mem_append.mp hp with hp | hp
  · rw [s.trimmed p hp]
    exact hs p hp
  · exact h p hp

theorem Clean.trimmed {s : PrefixSet} (hs : s.Clean) :
    ∀ p ∈ s.paths, trimEnd p = [] ∨ isPath (trimEnd p) = true := fun p hp => by
  rw [s.trimmed p hp]
  exact hs p hp

theorem Clean.forget {s : PrefixSet} (hs : s.Clean) (path : Str) : (s.forget path).Clean :=
  fun q hq => hs q ((mem_forget s path q).mp hq).1

end PrefixSet

theorem Below.length_lt {x p : Str} (h : Below x p) : p.length < x.length := by
  have := h.length_le
  simp only [List.length_append, List.length_singleton] at this
  omega

theorem Path.bytes_ne_nil (p : Path) : p.bytes ≠ [] := by
  obtain ⟨t, ht⟩ := p.head
  simp [ht]

theorem hits_under {q : Str} {e : Entry} (h : hits q e = true) : under e.path.bytes q = true := by
  unfold hits at h
  rw [Bool.and_eq_true] at h
  exact h.1

/-- Reducing the batch changes nothing the scan takes. -/
theorem scanned_new (paths : List Str) (e : Entry) :
    scanned (PrefixSet.new paths) e = true ↔ ∃ p ∈ paths, hits (trimEnd p) e = true := by
  simp only [scanned, List.any_eq_true]
  constructor
  · rintro ⟨q, hq, hh⟩
    obtain ⟨p, hp, rfl⟩ := (reduce_spec paths).1 q hq
    exact ⟨p, hp, hh⟩
  · rintro ⟨p, hp, hh⟩
    obtain ⟨k, hk, hu⟩ := (reduce_spec paths).2 p hp
    have hkt := reduce_trimmed paths k hk
    have huk : under e.path.bytes k = true :=
      under_trans (by simpa using hits_under hh) hu
    by_cases hkp : k = trimEnd p
    · exact ⟨k, hk, hkp ▸ hh⟩
    · refine ⟨k, hk, ?_⟩
      unfold hits
      rw [huk, Bool.true_and, Bool.not_eq_true', Bool.and_eq_false_iff]
      left
      -- the entry is below `trimEnd p`, which is strictly below `k`
      rw [beq_eq_false_iff_ne]
      intro hek
      have h1 := hits_under hh
      rw [hek, under_iff, trimEnd_trimEnd] at h1
      rw [under_iff, hkt] at hu
      rcases hu with hu | hu | hu
      · exact e.path.bytes_ne_nil (hek.trans hu)
      · exact hkp hu.symm
      · rcases h1 with h1 | h1 | h1
        · rw [h1] at hu
          exact absurd hu.length_lt (by simp)
        · exact hkp h1
        · exact absurd h1.length_lt (not_lt.mpr hu.length_lt.le)

theorem scanned_extend (s : PrefixSet) (paths : List Str) (e : Entry) :
    scanned (s.extend paths) e = true ↔
      scanned s e = true ∨ ∃ p ∈ paths, hits (trimEnd p) e = true := by
  rw [PrefixSet.extend, scanned_new]
  simp only [List.mem_append, scanned, List.any_eq_true]
  constructor
  · rintro ⟨p, hp | hp, h⟩
    · exact Or.inl ⟨p, hp, by rwa [s.trimmed p hp] at h⟩
    · exact Or.inr ⟨p, hp, h⟩
  · rintro (⟨p, hp, h⟩ | ⟨p, hp, h⟩)
    · exact ⟨p, Or.inl hp, by rwa [s.trimmed p hp]⟩
    · exact ⟨p, Or.inr hp, h⟩

theorem scanned_covers {s : PrefixSet} {e : Entry} (h : scanned s e = true) :
    s.covers e.path.bytes = true := by
  simp only [scanned, List.any_eq_true] at h
  obtain ⟨q, hq, hh⟩ := h
  exact (s.covers_iff _).mpr ⟨q, hq, hits_under hh⟩

theorem reached_covers {seg : Segment} {sources : List SourceId} {s : PrefixSet} {e : Entry}
    (h : reached seg sources s e = true) : s.covers e.path.bytes = true := by
  simp only [reached, List.any_eq_true] at h
  obtain ⟨q, hq, hh⟩ := h
  refine (s.covers_iff _).mpr ⟨q, hq, ?_⟩
  split at hh
  · rw [Bool.and_eq_true, beq_iff_eq] at hh
    rw [hh.1]
    have := under_self q
    rwa [s.trimmed q hq] at this
  · exact hits_under hh

/-! ## What the scan takes -/

namespace Doomed

theorem nameLe_trans {a b c : Nat × Str} (h1 : nameLe a b) (h2 : nameLe b c) : nameLe a c := by
  rcases h1 with h1 | ⟨h1, h1'⟩ <;> rcases h2 with h2 | ⟨h2, h2'⟩
  · exact Or.inl (lt_trans h1 h2)
  · exact Or.inl (h2 ▸ h1)
  · exact Or.inl (h1 ▸ h2)
  · exact Or.inr ⟨h1.trans h2, le_trans h1' h2'⟩

theorem nameLe_total (a b : Nat × Str) : nameLe a b ∨ nameLe b a := by
  unfold nameLe
  rcases lt_trichotomy a.1 b.1 with h | h | h
  · exact Or.inl (Or.inl h)
  · rcases le_total a.2 b.2 with h' | h'
    · exact Or.inl (Or.inr ⟨h, h'⟩)
    · exact Or.inr (Or.inr ⟨h.symm, h'⟩)
  · exact Or.inr (Or.inl h)

theorem named_byKey (seg : Segment) (prefixes : PrefixSet) :
    Search.ByKey (new seg prefixes).named := by
  have h : (new seg prefixes).named.Pairwise nameLe :=
    @List.pairwise_insertionSort _ nameLe _ ⟨nameLe_total⟩ ⟨fun _ _ _ => nameLe_trans⟩ _
  refine h.imp fun {a b} hab => ?_
  rcases hab with hab | hab
  · exact hab.le
  · exact hab.1.le

theorem ranges_lt (seg : Segment) (prefixes : PrefixSet) :
    ∀ r ∈ prefixes.paths.flatMap (rangesOf seg), r.1 < r.2 := by
  intro r hr
  obtain ⟨p, -, hr⟩ := List.mem_flatMap.mp hr
  unfold rangesOf at hr
  rcases List.mem_append.mp hr with hr | hr
  · obtain ⟨own, -, rfl⟩ := by simpa using hr
    exact Nat.lt_succ_self own
  · split at hr
    · rename_i h
      rw [List.mem_singleton.mp hr]
      exact h
    · cases hr

theorem inRanges_new_iff (seg : Segment) (prefixes : PrefixSet) (dir : Nat) :
    Search.inRanges (new seg prefixes).inside dir = true ↔
      ∃ p ∈ prefixes.paths, (seg.dirs.subtree p).contains dir = true := by
  obtain ⟨h1, h2, h3⟩ := Search.mergeRanges_spec _ (ranges_lt seg prefixes)
  show Search.inRanges (Search.mergeRanges _) dir = true ↔ _
  rw [Search.inRanges_iff _ h1 h2, h3]
  simp only [Search.Covered, List.mem_flatMap, DirScope.contains_iff]
  constructor
  · rintro ⟨r, ⟨p, hp, hr⟩, hlo, hhi⟩
    refine ⟨p, hp, ?_⟩
    unfold rangesOf at hr
    rcases List.mem_append.mp hr with hr | hr
    · obtain ⟨own, hown, rfl⟩ := by simpa using hr
      left
      rw [hown]
      congr 1
      simp only at hlo hhi
      omega
    · split at hr
      · rw [List.mem_singleton.mp hr] at hlo hhi
        exact Or.inr ⟨hlo, hhi⟩
      · cases hr
  · rintro ⟨p, hp, h | h⟩
    · exact ⟨(dir, dir + 1), ⟨p, hp, by simp [rangesOf, h]⟩, le_refl _, Nat.lt_succ_self _⟩
    · refine ⟨(seg.dirs.subtree p).below, ⟨p, hp, ?_⟩, h⟩
      unfold rangesOf
      simp only [List.mem_append]
      right
      rw [if_pos (by omega)]
      simp

theorem mem_named_iff (seg : Segment) (hs : seg.dirs.Sorted) (prefixes : PrefixSet) (dir : Nat)
    (name : Str) :
    (dir, name) ∈ (new seg prefixes).named ↔ ∃ p ∈ prefixes.paths, ∃ parent,
      rsplitOnce p = some (parent, name) ∧
        seg.dirs.paths[dir]? = some (trimEnd (if parent = [] then [slash] else parent)) := by
  unfold new
  simp only [List.mem_insertionSort, List.mem_flatMap]
  constructor
  · rintro ⟨p, hp, hm⟩
    unfold namesOf at hm
    rw [prefixes.trimmed p hp] at hm
    split at hm
    · cases hm
    · rename_i parent n hsplit
      simp only [List.isEmpty_iff] at hm
      split at hm
      · cases hm
      · rename_i pd hpd
        simp only [List.mem_singleton, Prod.mk.injEq] at hm
        obtain ⟨rfl, rfl⟩ := hm
        exact ⟨p, hp, parent, hsplit, (DirTable.exact_eq_some_iff _ hs _ _).mp hpd⟩
  · rintro ⟨p, hp, parent, hsplit, hd⟩
    refine ⟨p, hp, ?_⟩
    unfold namesOf
    rw [prefixes.trimmed p hp, hsplit]
    simp only [List.isEmpty_iff]
    rw [(DirTable.exact_eq_some_iff _ hs _ _).mpr hd]
    simp

/-- The lookup by parent and name, as a search of the sorted list. -/
theorem takes_iff (seg : Segment) (prefixes : PrefixSet) (row dir : Nat) (name : Str)
    (hname : seg.names[row]? = some name) :
    (new seg prefixes).takes seg row dir = true ↔
      Search.inRanges (new seg prefixes).inside dir = true ∨
        (dir, name) ∈ (new seg prefixes).named := by
  have hkey := named_byKey seg prefixes
  generalize new seg prefixes = d at hkey
  have hdown : Search.DownTo d.named.length fun i => (d.named[i]?).any (·.1 < dir) :=
    Search.downTo_of_pairwise d.named hkey (fun x => decide (x.1 < dir)) fun a b hab hb => by
      simp only [decide_eq_true_eq] at hb ⊢
      exact lt_of_le_of_lt hab hb
  have hlt := Search.lt_partitionPoint_iff d.named.length _ hdown
  unfold takes
  by_cases hin : Search.inRanges d.inside dir = true
  · simp [hin]
  · rw [Bool.not_eq_true] at hin
    simp only [hin, Bool.false_eq_true, if_false, false_or, hname]
    generalize Search.partitionPoint d.named.length (fun i => (d.named[i]?).any (·.1 < dir)) = at_
      at hlt
    have hge : ∀ x ∈ d.named.drop at_, dir ≤ x.1 := by
      intro x hx
      obtain ⟨j, hj, rfl⟩ := List.mem_iff_getElem.mp hx
      simp only [List.getElem_drop]
      rw [List.length_drop] at hj
      by_contra hc
      have := (hlt (at_ + j) (by omega)).mpr
        (by simp only [List.getElem?_eq_getElem (show at_ + j < d.named.length by omega),
              Option.any_some, decide_eq_true_eq]; omega)
      omega
    have hdrop : Search.ByKey (d.named.drop at_) :=
      List.Pairwise.sublist (List.drop_sublist _ _) hkey
    have hrun := hdrop.mem_takeWhile_iff hge
    have hmem : ∀ n, (dir, n) ∈ d.named → (dir, n) ∈ d.named.drop at_ := by
      intro n hm
      obtain ⟨j, hj, hjx⟩ := List.mem_iff_getElem.mp hm
      have hjat : at_ ≤ j := by
        by_contra hc
        have := (hlt j hj).mp (by omega)
        simp [List.getElem?_eq_getElem hj, hjx] at this
      rw [List.mem_iff_getElem]
      exact ⟨j - at_, by rw [List.length_drop]; omega,
        by simp [hjx, show at_ + (j - at_) = j by omega]⟩
    have hany : ((d.named.drop at_).takeWhile (·.1 = dir)).any (·.2 == name) = true ↔
        (dir, name) ∈ d.named := by
      simp only [List.any_eq_true, beq_iff_eq]
      constructor
      · rintro ⟨⟨k, n⟩, hx, rfl⟩
        obtain ⟨h1, h2⟩ := (hrun _).mp hx
        simp only at h2
        subst h2
        exact List.mem_of_mem_drop h1
      · intro hm
        exact ⟨(dir, name), (hrun _).mpr ⟨hmem _ hm, rfl⟩, rfl⟩
    rw [← hany]
    by_cases hne : d.named.isEmpty = true
    · rw [List.isEmpty_iff] at hne
      simp [hne]
    · simp only [hne, Bool.false_eq_true, if_false]
      by_cases hfirst : (d.named[at_]?).any (·.1 == dir) = true
      · simp [hfirst]
      · simp only [hfirst, Bool.not_false, if_true, Bool.false_eq_true, false_iff]
        -- the first candidate already has another parent
        intro hc
        rw [hany] at hc
        have hm := hmem _ hc
        apply hfirst
        have hlen : at_ < d.named.length := by
          by_contra hge'
          rw [List.drop_eq_nil_of_le (by omega)] at hm
          cases hm
        rw [List.getElem?_eq_getElem hlen, Option.any_some, beq_iff_eq]
        have h0 : d.named[at_] ∈ d.named.drop at_ := by
          rw [List.mem_iff_getElem]
          exact ⟨0, by rw [List.length_drop]; omega, by simp⟩
        have h1 := hge _ h0
        rw [List.drop_eq_getElem_cons hlen] at hm hdrop
        have h2 := hdrop.le_of_cons (h := d.named[at_].1) (a := d.named[at_].2) hm
        exact le_antisymm h2 h1

/-- The zone map never skips a row the removal takes. -/
theorem touches_of_takes (seg : Segment) (prefixes : PrefixSet) (row dir lo hi : Nat) (name : Str)
    (hname : seg.names[row]? = some name) (hlo : lo ≤ dir) (hhi : dir ≤ hi)
    (h : (new seg prefixes).takes seg row dir = true) :
    (new seg prefixes).touches lo hi = true := by
  rw [takes_iff seg prefixes row dir name hname] at h
  obtain ⟨h1, h2, -⟩ := Search.mergeRanges_spec _ (ranges_lt seg prefixes)
  unfold touches
  split
  · rfl
  · rename_i hno
    rcases h with h | h
    · exfalso
      obtain ⟨r, hr, hr1, hr2⟩ := (Search.inRanges_iff _ h1 h2 dir).mp h
      apply hno
      rw [List.any_eq_true]
      refine ⟨r, hr, ?_⟩
      simp only [Bool.and_eq_true, decide_eq_true_eq]
      omega
    · have hkey := named_byKey seg prefixes
      generalize (new seg prefixes).named = named at h hkey
      have hdown : Search.DownTo named.length fun i => (named[i]?).any (·.1 < lo) :=
        Search.downTo_of_pairwise named hkey (fun x => decide (x.1 < lo)) fun a b hab hb => by
          simp only [decide_eq_true_eq] at hb ⊢
          exact lt_of_le_of_lt hab hb
      have hlt := Search.lt_partitionPoint_iff named.length _ hdown
      simp only
      generalize Search.partitionPoint named.length (fun i => (named[i]?).any (·.1 < lo)) = at_
        at hlt
      obtain ⟨j, hj, hjx⟩ := List.mem_iff_getElem.mp h
      have hjat : at_ ≤ j := by
        by_contra hc
        have := (hlt j hj).mp (by omega)
        simp only [List.getElem?_eq_getElem hj, hjx, Option.any_some, decide_eq_true_eq] at this
        omega
      rw [List.getElem?_eq_getElem (by omega), Option.any_some, decide_eq_true_eq]
      rcases Nat.lt_or_eq_of_le hjat with hlt' | rfl
      · have := List.pairwise_iff_getElem.mp hkey at_ j (by omega) hj hlt'
        rw [hjx] at this
        exact this.trans hhi
      · rw [hjx]
        exact hhi

end Doomed

/-! ## By path -/

/-- The ranges and the names together, said by path. -/
theorem hits_iff (q : Str) (hq : q = [] ∨ isPath q = true) (hqt : trimEnd q = q) (e : Entry) :
    hits q e = true ↔ (e.parent = q ∨ Below e.parent q) ∨
      ∃ parent, rsplitOnce q = some (parent, e.name) ∧
        e.parent = trimEnd (if parent = [] then [slash] else parent) := by
  have hpar : e.parent ≠ [] := splitPath_dir_ne_nil e.path
  unfold hits
  rw [Bool.and_eq_true, under_iff, hqt, Bool.not_eq_true', Bool.and_eq_false_iff,
    beq_eq_false_iff_ne]
  rcases hq with rfl | hq
  · have h1 : e.path.bytes ≠ [] := e.path.bytes_ne_nil
    have h2 : Below e.parent [] := by
      obtain ⟨l, r, -, -, hs, -⟩ := e.path.split
      obtain ⟨t, ht⟩ := e.path.head
      unfold Entry.parent
      unfold Below
      by_cases hl : l = []
      · rw [hs]
        simp [hl]
      · have hj := joinPath_splitPath e.path
        rw [hs] at hj ⊢
        simp only [hl, if_false] at hj ⊢
        cases l with
        | nil => exact absurd rfl hl
        | cons b l =>
          have hb : b = slash := by
            unfold joinPath at hj
            rw [if_neg (List.cons_ne_nil b l), ht] at hj
            split at hj
            · rename_i h0
              exact (List.cons.injEq _ _ _ _ ▸ h0).1
            · exact (List.cons.injEq _ _ _ _ ▸ hj).1
          simp [hb]
    simp [h1, h2]
  · have hq0 : q ≠ [] := by
      rintro rfl
      cases hq
    obtain ⟨l, r, hqe, hr, hsplit, hl⟩ := Path.split ⟨q, hq⟩
    simp only at hqe hsplit
    have hrs : rsplitOnce q = some (l, r) := by rw [hqe]; exact rsplitOnce_append l r hr
    have hltrim : l ≠ [] → trimEnd l = l := by
      intro _
      rw [trimEnd_eq_self_iff]
      rintro l' rfl
      have := Path.noDouble ⟨q, hq⟩
      simp only at this
      rw [hqe] at this
      exact noDouble_append_cons l' r (by simpa using this)
    have hbelow := below_iff_dir e.path q hq0 hqt
    have hbe : Below e.path.bytes q ↔ e.parent = q ∨ Below e.parent q := hbelow
    have hroot : rootChild q = l.isEmpty := by
      unfold rootChild
      rw [hrs]
      rfl
    -- the entry is the removed path: same directory, same name
    have hself : l ≠ [] → (e.path.bytes = q ↔ e.name = r ∧ e.parent = l) := by
      intro hl0
      constructor
      · rintro heq
        unfold Entry.name Entry.parent
        rw [heq, hsplit]
        simp [hl0]
      · rintro ⟨h1, h2⟩
        have : splitPath e.path.bytes = splitPath (⟨q, hq⟩ : Path).bytes := by
          rw [hsplit]
          simp only [hl0, if_false]
          exact Prod.ext h2 h1
        exact splitPath_injective this
    rw [hbe, hroot, hrs]
    simp only [hq0, false_or, Option.some.injEq, Prod.mk.injEq]
    by_cases hl0 : l = []
    · have hno : ¬ ∃ parent, (l = parent ∧ r = e.name) ∧
          e.parent = trimEnd (if parent = [] then [slash] else parent) := by
        rintro ⟨parent, ⟨rfl, -⟩, h⟩
        rw [if_pos hl0] at h
        exact hpar (by rw [h]; decide)
      rw [or_iff_left hno]
      simp only [hl0, List.isEmpty_nil, Bool.true_eq_false, or_false]
      constructor
      · rintro ⟨h1 | h1, h2⟩
        · exact absurd h1 h2
        · exact h1
      · intro h1
        refine ⟨Or.inr h1, fun hc => ?_⟩
        have := (hbe.mpr h1).length_lt
        rw [hc] at this
        exact absurd this (lt_irrefl _)
    · have hemp : l.isEmpty = false := by simpa using hl0
      simp only [hemp, or_true, and_true]
      rw [hself hl0]
      constructor
      · rintro (⟨h1, h2⟩ | h)
        · refine Or.inr ⟨l, ⟨rfl, h1.symm⟩, ?_⟩
          rw [if_neg hl0, hltrim hl0, h2]
        · exact Or.inl h
      · rintro (h | ⟨parent, ⟨rfl, h1⟩, h2⟩)
        · exact Or.inr h
        · rw [if_neg hl0, hltrim hl0] at h2
          exact Or.inl ⟨h1.symm, h2⟩

/-- On a row of a segment the two lookups take what `scanned` says. -/
theorem takes_iff_scanned {l : Live} (hl : l.Ok) (prefixes : PrefixSet) (hc : prefixes.Clean)
    {row : Nat} {e : Entry} (he : l.seg.entry row = some e) :
    (Doomed.new l.seg prefixes).takes l.seg row (l.seg.dirId row) = true ↔
      scanned prefixes e = true := by
  obtain ⟨es, hseg, -⟩ := hl
  have hi : es[row]? = some e := by rw [hseg, buildSorted_entry_eq] at he; exact he
  have hs : l.seg.dirs.Sorted := by rw [hseg]; exact buildSorted_dirs_sorted es
  have hname : l.seg.names[row]? = some e.name := by rw [hseg]; exact buildSorted_name hi
  have hdir : l.seg.dirs.paths[l.seg.dirId row]? = some e.parent := by
    rw [hseg]; exact buildSorted_dirId hi
  rw [Doomed.takes_iff _ _ _ _ _ hname, Doomed.inRanges_new_iff, Doomed.mem_named_iff _ hs]
  simp only [scanned, List.any_eq_true]
  constructor
  · rintro (⟨q, hq, h⟩ | ⟨q, hq, parent, h1, h2⟩)
    · rw [DirTable.subtree_contains_iff _ hs _ _ _ hdir, prefixes.trimmed q hq] at h
      exact ⟨q, hq, (hits_iff q (hc q hq) (prefixes.trimmed q hq) e).mpr (Or.inl h)⟩
    · rw [hdir, Option.some.injEq] at h2
      exact ⟨q, hq, (hits_iff q (hc q hq) (prefixes.trimmed q hq) e).mpr
        (Or.inr ⟨parent, h1, h2⟩)⟩
  · rintro ⟨q, hq, h⟩
    rcases (hits_iff q (hc q hq) (prefixes.trimmed q hq) e).mp h with h | ⟨parent, h1, h2⟩
    · left
      refine ⟨q, hq, ?_⟩
      rw [DirTable.subtree_contains_iff _ hs _ _ _ hdir, prefixes.trimmed q hq]
      exact h
    · right
      exact ⟨q, hq, parent, h1, by rw [hdir, h2]⟩

namespace Live

theorem killUnder_later (l : Live) (hl : l.Ok) (prefixes : PrefixSet) :
    l.Later (l.killUnder prefixes).1 := by
  unfold killUnder
  simp only
  split
  · exact Later.refl l
  · exact killAll_later _ l hl.length_le

theorem killUnder_eq_self (l : Live) (hl : l.Ok) (prefixes : PrefixSet)
    (h : (l.killUnder prefixes).2 = 0) : (l.killUnder prefixes).1 = l := by
  unfold killUnder at h ⊢
  simp only at h ⊢
  split at h <;> rename_i hc
  · simp [hc]
  · simp only [hc] at h ⊢
    exact killAll_eq_self _ l hl.length_le h

/-- The scan drops what is under a removed path, but for a removed path's own row directly under
the root. -/
theorem entries_killUnder (l : Live) (hl : l.Ok) (prefixes : PrefixSet) (hc : prefixes.Clean) :
    (l.killUnder prefixes).1.entries = l.entries.filter fun e => !scanned prefixes e := by
  have hok := hl
  obtain ⟨es, hseg, hlen⟩ := hl
  unfold killUnder
  simp only
  split
  · rename_i hempty
    symm
    rw [List.filter_eq_self]
    intro e he
    obtain ⟨row, -, hr⟩ := (mem_entries_iff l hok e).mp he
    rw [Bool.not_eq_true', ← Bool.not_eq_true, ← takes_iff_scanned hok prefixes hc hr]
    have hi : es[row]? = some e := by rw [hseg, buildSorted_entry_eq] at hr; exact hr
    have hname : l.seg.names[row]? = some e.name := by rw [hseg]; exact buildSorted_name hi
    rw [Doomed.takes_iff _ _ _ _ _ hname]
    simp only [Doomed.isEmpty, Bool.and_eq_true, List.isEmpty_iff] at hempty
    rw [hempty.1, hempty.2]
    simp [Search.inRanges]
  · refine entries_killAll l hok _ _ fun row e ha hr => ?_
    have hi : es[row]? = some e := by rw [hseg, buildSorted_entry_eq] at hr; exact hr
    have hname : l.seg.names[row]? = some e.name := by rw [hseg]; exact buildSorted_name hi
    have hrow : row < l.rows := by
      unfold Live.rows
      rw [hseg, buildSorted_rows]
      exact (List.getElem?_eq_some_iff.mp hi).1
    rw [← takes_iff_scanned hok prefixes hc hr]
    rw [mem_scanBlocks_iff]
    · simp [hrow, ha]
    · intro _ ht
      rw [ha, Bool.true_and] at ht
      have hnum : (l.seg.num .dirId row) = (l.seg.dirId row : Int) := by
        have h0 : 0 ≤ l.seg.num .dirId row := by rw [hseg]; exact buildSorted_num_dirId hi
        unfold Segment.dirId
        omega
      have hcols : row < l.seg.cols.length := by
        obtain ⟨dir, h1, -⟩ := buildSorted_cols hi
        rw [hseg]
        exact (List.getElem?_eq_some_iff.mp h1).1
      have hB : BLOCK = 32 := rfl
      unfold Doomed.skips
      split
      · rename_i lo hi' hrange
        have hz := num_mem_blockRange l.seg .dirId (row / BLOCK) row lo hi' hrange
          (by rw [hB]; omega) (by rw [hB]; omega) hcols
        rw [Doomed.touches_of_takes l.seg prefixes row _ lo.toNat hi'.toNat _ hname
          (by omega) (by omega) ht]
        simp
      · rfl

/-! ### A flush's removals -/

theorem isLeaf_trimmed {seg : Segment} {sources : List SourceId} {q : Str}
    (h : isLeaf seg sources q = true) : sources ≠ [] ∧ trimEnd q ≠ [] ∧
      (seg.dirs.subtree q).isEmpty = true := by
  simp only [isLeaf, Bool.not_eq_true', Bool.or_eq_false_iff, List.isEmpty_eq_false_iff,
    Bool.not_eq_false'] at h
  exact ⟨h.1.1, h.1.2, h.2⟩

theorem keyed_leaves (l : Live) (prefixes : PrefixSet) (hc : prefixes.Clean)
    (sources : List SourceId) :
    Keyed (((prefixes.paths.filter (isLeaf l.seg sources)).flatMap fun p =>
      sources.map fun source => (keyOf source (trimEnd p), source, trimEnd p)).insertionSort
        fun a b => a.1 ≤ b.1) := by
  refine ⟨?_, fun w hw => ?_⟩
  · exact @List.pairwise_insertionSort _ (fun a b : Wanted => a.1 ≤ b.1) _
      ⟨fun _ _ => le_total _ _⟩ ⟨fun _ _ _ => le_trans⟩ _
  · rw [List.mem_insertionSort, List.mem_flatMap] at hw
    obtain ⟨p, hp, hw⟩ := hw
    obtain ⟨s, -, rfl⟩ := List.mem_map.mp hw
    obtain ⟨hp1, hp2⟩ := List.mem_filter.mp hp
    refine ⟨rfl, ?_⟩
    rw [prefixes.trimmed p hp1]
    rcases hc p hp1 with h0 | h0
    · have := (isLeaf_trimmed hp2).2.1
      rw [prefixes.trimmed p hp1] at this
      exact absurd h0 this
    · exact h0

theorem clean_rest {prefixes : PrefixSet} (hc : prefixes.Clean) (f : Str → Bool) :
    (PrefixSet.new (prefixes.paths.filter f)).Clean :=
  PrefixSet.Clean.new fun p hp => hc.trimmed p (List.mem_of_mem_filter hp)

/-- The lookup and the scan share the removals out between them. -/
theorem reached_iff (l : Live) (prefixes : PrefixSet) (sources : List SourceId) (e : Entry) :
    reached l.seg sources prefixes e = true ↔
      isWanted ((prefixes.paths.filter (isLeaf l.seg sources)).flatMap fun p =>
        sources.map fun source => (keyOf source (trimEnd p), source, trimEnd p)) e = true ∨
      scanned (PrefixSet.new (prefixes.paths.filter fun p => !isLeaf l.seg sources p)) e = true := by
  rw [scanned_new]
  simp only [reached, List.any_eq_true, isWanted, List.mem_flatMap, List.mem_filter, List.mem_map,
    Bool.and_eq_true, beq_iff_eq]
  constructor
  · rintro ⟨q, hq, h⟩
    split at h
    · rename_i hleaf
      simp only [Bool.and_eq_true, beq_iff_eq, List.contains_iff_mem] at h
      exact Or.inl ⟨_, ⟨q, ⟨hq, hleaf⟩, e.source, h.2, rfl⟩, rfl, by
        simp only [prefixes.trimmed q hq, h.1]⟩
    · rename_i hleaf
      exact Or.inr ⟨q, ⟨hq, by simpa using hleaf⟩, by rwa [prefixes.trimmed q hq]⟩
  · rintro (⟨w, ⟨q, ⟨hq, hleaf⟩, s, hs, rfl⟩, h1, h2⟩ | ⟨q, ⟨hq, hleaf⟩, h⟩)
    · refine ⟨q, hq, ?_⟩
      simp only at h1 h2
      rw [if_pos hleaf]
      simp only [Bool.and_eq_true, beq_iff_eq, List.contains_iff_mem]
      exact ⟨by rw [← h2, prefixes.trimmed q hq], h1 ▸ hs⟩
    · refine ⟨q, hq, ?_⟩
      rw [if_neg (by simpa using hleaf)]
      rwa [prefixes.trimmed q hq] at h

theorem killLeaves_later (l : Live) (hl : l.Ok) (prefixes : PrefixSet) (sources : List SourceId) :
    l.Later (l.killLeaves prefixes sources).1.1 := by
  unfold killLeaves
  simp only
  split
  · exact Later.refl l
  · exact killPaths_later l hl _

theorem killHidden_later (l : Live) (hl : l.Ok) (prefixes : PrefixSet) (sources : List SourceId) :
    l.Later (l.killHidden prefixes sources).1 := by
  have h1 := killLeaves_later l hl prefixes sources
  unfold killHidden
  simp only
  split
  · exact h1
  · exact h1.trans (killUnder_later _ (h1.ok hl) _)

theorem killHidden_eq_self (l : Live) (hl : l.Ok) (prefixes : PrefixSet) (sources : List SourceId)
    (h : (l.killHidden prefixes sources).2 = 0) : (l.killHidden prefixes sources).1 = l := by
  have h1 : (l.killLeaves prefixes sources).1.2 = 0 → (l.killLeaves prefixes sources).1.1 = l := by
    unfold killLeaves
    simp only
    split
    · exact fun _ => rfl
    · exact killPaths_eq_self l hl _
  unfold killHidden at h ⊢
  simp only at h ⊢
  split at h <;> rename_i hc
  · rw [if_pos hc]
    exact h1 h
  · rw [if_neg hc]
    obtain ⟨h2, h3⟩ := Nat.add_eq_zero_iff.mp h
    rw [h1 h2] at h3
    simp only [h1 h2]
    exact killUnder_eq_self l hl (l.killLeaves prefixes sources).2 h3

/-- Everything a flush's removals take out of one segment. -/
theorem entries_killHidden (l : Live) (hl : l.Ok) (prefixes : PrefixSet) (hc : prefixes.Clean)
    (sources : List SourceId) :
    (l.killHidden prefixes sources).1.entries =
      l.entries.filter fun e => !reached l.seg sources prefixes e := by
  have hleaves : (l.killLeaves prefixes sources).1.1.entries = l.entries.filter fun e =>
      !isWanted ((prefixes.paths.filter (isLeaf l.seg sources)).flatMap fun p =>
        sources.map fun source => (keyOf source (trimEnd p), source, trimEnd p)) e := by
    unfold killLeaves
    simp only
    split
    · rename_i h
      rw [List.isEmpty_iff] at h
      rw [h]
      simp [isWanted]
    · rw [entries_killPaths l hl _ (keyed_leaves l prefixes hc sources)]
      apply List.filter_congr
      intro e _
      congr 1
      rw [Bool.eq_iff_iff]
      simp only [isWanted, List.any_eq_true, List.mem_insertionSort]
  have hlater := killLeaves_later l hl prefixes sources
  have hrest : (l.killLeaves prefixes sources).2 =
      PrefixSet.new (prefixes.paths.filter fun p => !isLeaf l.seg sources p) := by
    unfold killLeaves
    simp only
    split <;> rfl
  have hboth : (l.killHidden prefixes sources).1.entries =
      ((l.killLeaves prefixes sources).1.1.entries).filter fun e =>
        !scanned (l.killLeaves prefixes sources).2 e := by
    unfold killHidden
    simp only
    split
    · rename_i h
      symm
      rw [List.filter_eq_self]
      intro e _
      rw [PrefixSet.isEmpty_iff] at h
      simp [scanned, h]
    · rw [hrest]
      exact entries_killUnder _ (hlater.ok hl) _ (clean_rest hc _)
  rw [hboth, hleaves, List.filter_filter, hrest]
  apply List.filter_congr
  intro e _
  have := reached_iff l prefixes sources e
  rw [← Bool.or_eq_true, ← Bool.eq_iff_iff] at this
  rw [this, Bool.not_or, Bool.and_comm]

end Live

end Scour
