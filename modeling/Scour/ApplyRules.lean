import Scour.Admits
import Scour.PendingWalks
import Scour.Steps

/-!
# New rules, applied to an index

`Source.rules` are the rules as one source reads them (`skip::own`): the other sources' roots are
denied to it, and a path rule over the whole of it is not its rule.  `applyRules` is
`Engine::apply_rules`: every row that the test of some source excludes goes, and everything below it.
The index is the table of its rows.

Adding rules only takes rows away (`walk_mono`), and what a walk no longer reports is at or below a
row the source's own test excludes (`covered_of_not_reported`), so the removals are right exactly
when no row that a walk still reports is at or below a row that some test excludes
(`applyRules_exact_iff`).
-/

namespace Scour

open Search

/-! ## Absolute paths -/

theorem noDouble_append (l r : Str) (hl : noDouble l = true) (hr : slash ∉ r) :
    noDouble (l ++ r) = true := by
  induction l with
  | nil =>
    rw [List.nil_append]
    induction r with
    | nil => rfl
    | cons b r ih =>
      have ih := ih fun h => hr (List.mem_cons_of_mem _ h)
      cases r with
      | nil => rfl
      | cons c r =>
        have hb : b ≠ slash := fun h => hr (h ▸ List.mem_cons_self)
        simp [noDouble, hb, ih]
  | cons b l ih =>
    cases l with
    | nil =>
      cases r with
      | nil => rfl
      | cons c r =>
        have hc : c ≠ slash := fun h => hr (h ▸ List.mem_cons_self)
        have ih := ih rfl
        simp only [List.nil_append] at ih
        simp [noDouble, hc, ih]
    | cons c l =>
      simp only [noDouble, Bool.and_eq_true] at hl
      have ih := ih hl.2
      simp only [List.cons_append] at ih ⊢
      rw [noDouble, Bool.and_eq_true]
      exact ⟨hl.1, ih⟩

theorem noDouble_concat_slash (l : Str) (hl : noDouble l = true) (hlast : l.getLast? ≠ some slash) :
    noDouble (l ++ [slash]) = true := by
  induction l with
  | nil => rfl
  | cons b l ih =>
    cases l with
    | nil =>
      have hb : b ≠ slash := by simpa using hlast
      simp [noDouble, hb]
    | cons c l =>
      simp only [noDouble, Bool.and_eq_true] at hl
      have ih := ih hl.2 (by rwa [List.getLast?_cons_cons] at hlast)
      simp only [List.cons_append] at ih ⊢
      rw [noDouble, Bool.and_eq_true]
      exact ⟨hl.1, ih⟩

theorem isPath_joinName (p : Str) (n : Name) (h : isPath p = true) :
    isPath (joinName p n.bytes) = true := by
  unfold isPath at h ⊢
  rw [Bool.and_eq_true, beq_iff_eq] at h ⊢
  obtain ⟨hh, hn⟩ := h
  have hne : p ≠ [] := fun he => by rw [he] at hh; cases hh
  unfold joinName
  split
  · rename_i hc
    exact ⟨by rw [List.head?_append_of_ne_nil _ hne, hh], noDouble_append p _ hn n.ok.2.1⟩
  · rename_i hc
    refine ⟨by rw [List.head?_append_of_ne_nil _ hne, hh], ?_⟩
    rw [← List.singleton_append, ← List.append_assoc]
    exact noDouble_append _ _ (noDouble_concat_slash p hn fun h => hc (Or.inr h)) n.ok.2.1

/-- The path that the names spell from the root of the file system. -/
def absPath (names : List Name) : Path where
  bytes := pathAt [slash] names
  ok := by
    induction names using List.reverseRecOn with
    | nil => rfl
    | append_singleton l n ih =>
      rw [pathAt_concat]
      exact isPath_joinName _ n ih

theorem pathAt_absPath (root names : List Name) :
    pathAt (absPath root).bytes names = (absPath (root ++ names)).bytes := by
  simp [absPath, pathAt, List.foldl_append]

/-- `path.rsplit('/').next()`. -/
def lastName (path : Str) : Str :=
  match rsplitOnce path with
  | some (_, name) => name
  | none => path

theorem lastName_absPath (l : List Name) (n : Name) :
    lastName (absPath (l ++ [n])).bytes = n.bytes := by
  obtain ⟨d, hd⟩ : ∃ d, (absPath (l ++ [n])).bytes = d ++ slash :: n.bytes := by
    show ∃ d, pathAt [slash] (l ++ [n]) = _
    rw [pathAt_concat]
    unfold joinName
    split
    · rename_i hc
      obtain ⟨d, hd⟩ : ∃ d, pathAt [slash] l = d ++ [slash] := by
        rcases hc with hc | hc
        · have := (absPath l).ok
          rw [show (absPath l).bytes = pathAt [slash] l from rfl, hc] at this
          cases this
        · rw [List.getLast?_eq_some_iff] at hc
          exact hc
      exact ⟨d, by rw [hd, List.append_assoc, List.singleton_append]⟩
    · exact ⟨_, rfl⟩
  unfold lastName
  rw [hd, rsplitOnce_append _ _ n.ok.2.1]

theorem fileName_absPath (l : List Name) (n : Name) : fileName (absPath (l ++ [n])).bytes = n.bytes := by
  have hcomp : components (absPath (l ++ [n])).bytes = (l ++ [n]).map (·.bytes) := by
    show components (pathAt [slash] (l ++ [n])) = _
    rw [components_pathAt]
    rfl
  unfold fileName
  rw [hcomp, List.filter_eq_self.mpr, List.map_append, List.map_singleton, List.getLast?_concat]
  · exact if_neg n.ok.2.2.2
  · intro c hc
    obtain ⟨m, -, rfl⟩ := List.mem_map.mp hc
    simpa using m.ok.2.2.1

/-! ## Sources -/

/-- A source: its number, its roots, and the other sources' roots it leaves alone. -/
structure Source where
  id : SourceId
  roots : List (List Name)
  skip : List Str

/-- `Path::starts_with`, of an absolute path. -/
def startsWith (root : List Name) (rule : Str) : Bool :=
  rule.isEmpty || (rule.head? == some slash &&
    ((components rule).filter (· ≠ str ".")).isPrefixOf (root.map (·.bytes)))

/-- The scan options as one source reads them. -/
def own (opts : ScanOptions) (roots : List (List Name)) (skip : List Str) : ScanOptions :=
  let covers (rule : Str) : Bool := roots.any fun r => startsWith r rule
  if skip.isEmpty && !opts.excludePaths.any covers then opts
  else
    { opts with
      excludePaths := opts.excludePaths.filter fun rule => !covers rule
      deny := opts.deny ++ skip }

/-- Every other source's root that lies under one of this source's roots, as the planner gives it. -/
def withSkips (sources : List (SourceId × List (List Name))) : List Source :=
  sources.zipIdx.map fun (s, i) =>
    { id := s.1
      roots := s.2
      skip := ((sources.zipIdx.filter fun t => t.2 ≠ i).flatMap fun t => t.1.2.filter fun r =>
        s.2.any fun mine => r ≠ mine && mine.isPrefixOf r).map fun r => (absPath r).bytes }

/-- What a path holds: what lies in the directory there. -/
def Forest.beneath : Forest → List Name → Forest
  | f, [] => f
  | .nil, _ => .nil
  | .file _ rest, names => rest.beneath names
  | .dir n inside rest, name :: names =>
      if n = name then inside.beneath names else rest.beneath (name :: names)

namespace Source

variable (U : Unicode)

def rules (s : Source) (opts : ScanOptions) : Rules := .fromOptions U (own opts s.roots s.skip)

/-- The walk's own rules, handed back as a test. -/
def excluder (s : Source) (opts : ScanOptions) (path : Str) (isDir : Bool) : Option Bool :=
  (s.rules U opts).excludes U path (lastName path) isDir

/-- The row of an entry of a walk. -/
def row (s : Source) (stat : Path → Meta) (root : List Name) (spot : Spot) : Entry where
  source := s.id
  path := absPath (root ++ spot.names)
  isDir := spot.isDir
  info := stat (absPath (root ++ spot.names))

/-- What a walk of all the source's roots reports. -/
def walk (s : Source) (opts : ScanOptions) (disk : Forest) (stat : Path → Meta) : Option (List Entry) :=
  (s.roots.mapM fun root =>
    ((s.rules U opts).scan U (absPath root).bytes (disk.beneath root)).map
      fun spots => spots.map (s.row stat root)).map List.flatten

end Source

/-- What walks of all the sources report. -/
def walkAll (U : Unicode) (sources : List Source) (opts : ScanOptions) (disk : Forest)
    (stat : Path → Meta) : Option (List Entry) :=
  (sources.mapM fun s : Source => s.walk U opts disk stat).map List.flatten

/-- Where a folded path removes from: an empty one is the root. -/
def subtreeAt (p : Str) : Path := if h : isPath p = true then ⟨p, h⟩ else ⟨[slash], rfl⟩

/-- Does the test of some source exclude the row? -/
def excludedBy (U : Unicode) (sources : List Source) (opts : ScanOptions) (e : Entry) : Option Bool :=
  sources.anyM fun s => s.excluder U opts e.path.bytes e.isDir

/-- The rows a scan of the index finds excluded. -/
def doomedRows (U : Unicode) (sources : List Source) (opts : ScanOptions) :
    List Entry → Option (List Entry)
  | [] => some []
  | e :: rest => do
      let excluded ← excludedBy U sources opts e
      let others ← doomedRows U sources opts rest
      some (if excluded then e :: others else others)

/-- `Engine::apply_rules`: what is removed, folded to the topmost path of each excluded tree. -/
def applyRules (U : Unicode) (sources : List Source) (opts : ScanOptions) (live : List Entry) :
    Option (List Change) := do
  let doomed ← doomedRows U sources opts live
  some ((coalesce (doomed.map (·.path.bytes))).map fun p => .removeSubtree (subtreeAt p))

/-- `after` only adds exclusions. -/
structure Adds (before after : ScanOptions) : Prop where
  excludePaths : before.excludePaths ⊆ after.excludePaths
  excludeDirs : before.excludeDirs ⊆ after.excludeDirs
  excludeFiles : before.excludeFiles ⊆ after.excludeFiles
  deny : before.deny ⊆ after.deny
  allow : before.allow = after.allow

/-! ## What is removed -/

/-- A row no test excludes is excluded by none of them. -/
theorem excluder_of_excludedBy {U : Unicode} {sources : List Source} {opts : ScanOptions} {e : Entry}
    (h : excludedBy U sources opts e = some false) {s : Source} (hs : s ∈ sources) :
    s.excluder U opts e.path.bytes e.isDir = some false := by
  unfold excludedBy at h
  induction sources with
  | nil => cases hs
  | cons t sources ih =>
    simp only [List.anyM_cons, Option.bind_eq_bind, Option.pure_def] at h
    cases ht : t.excluder U opts e.path.bytes e.isDir with
    | none =>
      rw [ht] at h
      cases h
    | some b =>
      rw [ht] at h
      cases b with
      | true => cases h
      | false =>
        rcases List.mem_cons.mp hs with rfl | hs
        · exact ht
        · exact ih h hs

theorem doomedRows_isSome (U : Unicode) (sources : List Source) (opts : ScanOptions)
    (live : List Entry) : (doomedRows U sources opts live).isSome = true ↔
      ∀ e ∈ live, excludedBy U sources opts e ≠ none := by
  induction live with
  | nil => simp [doomedRows]
  | cons e live ih =>
    rw [doomedRows, List.forall_mem_cons, ← ih]
    cases excludedBy U sources opts e with
    | none => simp
    | some b => cases doomedRows U sources opts live <;> simp

theorem mem_doomedRows {U : Unicode} {sources : List Source} {opts : ScanOptions} :
    ∀ {live doomed : List Entry}, doomedRows U sources opts live = some doomed →
      ∀ e, e ∈ doomed ↔ e ∈ live ∧ excludedBy U sources opts e = some true := by
  intro live
  induction live with
  | nil =>
    intro doomed h e
    obtain rfl := Option.some.inj h
    simp
  | cons x live ih =>
    intro doomed h e
    simp only [doomedRows, Option.bind_eq_bind, Option.bind_eq_some_iff, Option.some.injEq] at h
    obtain ⟨b, hb, others, ho, rfl⟩ := h
    cases b with
    | true =>
      rw [if_pos rfl, List.mem_cons, List.mem_cons, ih ho e]
      constructor
      · rintro (rfl | ⟨h1, h2⟩)
        · exact ⟨Or.inl rfl, hb⟩
        · exact ⟨Or.inr h1, h2⟩
      · rintro ⟨rfl | h1, h2⟩
        · exact Or.inl rfl
        · exact Or.inr ⟨h1, h2⟩
    | false =>
      rw [if_neg Bool.noConfusion, List.mem_cons, ih ho e]
      constructor
      · rintro ⟨h1, h2⟩
        exact ⟨Or.inr h1, h2⟩
      · rintro ⟨rfl | h1, h2⟩
        · rw [hb] at h2
          cases h2
        · exact ⟨h1, h2⟩

/-- Removals leave what is at or under none of their paths. -/
theorem mem_tableAfter_removals (paths : List Path) : ∀ (table : Set Entry) (e : Entry),
    e ∈ tableAfter table (paths.map .removeSubtree) ↔
      e ∈ table ∧ ∀ p ∈ paths, under e.path.bytes p.bytes = false := by
  induction paths with
  | nil => simp [tableAfter]
  | cons p paths ih =>
    intro table e
    show e ∈ tableAfter (Change.onTable table (.removeSubtree p)) _ ↔ _
    rw [ih, List.forall_mem_cons]
    simp only [Change.onTable, removeFrom, Path.reach, Set.mem_ofPred_eq, Entry.key,
      Bool.not_eq_true, and_assoc]

theorem noDouble_of_prefix : ∀ {l m : Str}, l <+: m → noDouble m = true → noDouble l = true
  | [], _, _, _ => rfl
  | [_], _, _, _ => rfl
  | a :: b :: l, m, hl, hm => by
      obtain ⟨r, rfl⟩ := hl
      simp only [List.cons_append, noDouble, Bool.and_eq_true] at hm ⊢
      exact ⟨hm.1, noDouble_of_prefix ⟨r, by simp⟩ hm.2⟩

/-- The path that is removed covers what the excluded row's own path covers. -/
theorem under_subtreeAt (x : Str) (p : Path) :
    under x (subtreeAt (trimEnd p.bytes)).bytes = under x p.bytes := by
  unfold subtreeAt
  split
  · exact under_trimEnd x p.bytes
  · rename_i h
    have htrim : trimEnd p.bytes = [] := by
      by_contra hne
      refine h ?_
      obtain ⟨t, ht⟩ := prefix_trimEnd p.bytes
      unfold isPath
      rw [Bool.and_eq_true, beq_iff_eq]
      refine ⟨?_, noDouble_of_prefix (prefix_trimEnd _) p.noDouble⟩
      rw [← List.head?_append_of_ne_nil _ hne, ht]
      obtain ⟨u, hu⟩ := p.head
      rw [hu]
      rfl
    rw [← under_trimEnd x p.bytes, htrim, ← under_trimEnd x [slash]]
    rfl

/-- What new rules leave: the rows at or below no row that a test excludes. -/
theorem mem_applyRules {U : Unicode} {sources : List Source} {opts : ScanOptions} {live : List Entry}
    {changes : List Change} (h : applyRules U sources opts live = some changes) (e : Entry) :
    e ∈ tableAfter {e | e ∈ live} changes ↔ e ∈ live ∧ ∀ y ∈ live,
      excludedBy U sources opts y = some true → under e.path.bytes y.path.bytes = false := by
  simp only [applyRules, Option.bind_eq_bind, Option.bind_eq_some_iff, Option.some.injEq] at h
  obtain ⟨doomed, hd, rfl⟩ := h
  have hmap : (coalesce (doomed.map (·.path.bytes))).map (fun p => Change.removeSubtree (subtreeAt p)) =
      ((coalesce (doomed.map (·.path.bytes))).map subtreeAt).map .removeSubtree := by
    rw [List.map_map]
    rfl
  rw [hmap, mem_tableAfter_removals]
  simp only [Set.mem_ofPred_eq]
  refine and_congr_right fun _ => ?_
  obtain ⟨hsub, hcov⟩ := reduce_spec (doomed.map (·.path.bytes))
  constructor
  · intro hall y hy hex
    have hyd : y ∈ doomed := (mem_doomedRows hd y).mpr ⟨hy, hex⟩
    obtain ⟨k, hk, hu⟩ := hcov y.path.bytes (List.mem_map_of_mem hyd)
    obtain ⟨q, hq, rfl⟩ := hsub k hk
    obtain ⟨z, hz, rfl⟩ := List.mem_map.mp hq
    have hno := hall _ (List.mem_map_of_mem hk)
    rw [under_subtreeAt] at hno
    by_contra hcon
    rw [Bool.not_eq_false] at hcon
    have := under_trans hcon hu
    rw [under_trimEnd, hno] at this
    cases this
  · intro hall p hp
    obtain ⟨k, hk, rfl⟩ := List.mem_map.mp hp
    obtain ⟨q, hq, rfl⟩ := hsub k hk
    obtain ⟨y, hy, rfl⟩ := List.mem_map.mp hq
    obtain ⟨hyl, hex⟩ := (mem_doomedRows hd y).mp hy
    rw [under_subtreeAt]
    exact hall y hyl hex

/-! ## What walks report -/

theorem mapM_isSome {α β : Type} (f : α → Option β) (l : List α) :
    (l.mapM f).isSome = true ↔ ∀ a ∈ l, (f a).isSome = true := by
  induction l with
  | nil => simp
  | cons a l ih =>
    rw [List.mapM_cons, List.forall_mem_cons, ← ih]
    cases f a <;> cases l.mapM f <;> simp

theorem mem_flatten_of_mapM {α β : Type} (f : α → Option (List β)) (l : List α) :
    ∀ {out : List (List β)}, l.mapM f = some out → ∀ b, b ∈ out.flatten ↔
      ∃ a ∈ l, ∃ bs, f a = some bs ∧ b ∈ bs := by
  induction l with
  | nil =>
    intro out h b
    obtain rfl : [] = out := by simpa using h
    simp
  | cons a l ih =>
    intro out h b
    rw [List.mapM_cons] at h
    simp only [Option.bind_eq_bind, Option.bind_eq_some_iff, Option.pure_def, Option.some.injEq] at h
    obtain ⟨bs, hbs, rest, hr, rfl⟩ := h
    rw [List.flatten_cons, List.mem_append, ih hr b]
    constructor
    · rintro (hb | ⟨a', ha', h⟩)
      · exact ⟨a, List.mem_cons_self, bs, hbs, hb⟩
      · exact ⟨a', List.mem_cons_of_mem _ ha', h⟩
    · rintro ⟨a', ha', bs', hbs', hb⟩
      rcases List.mem_cons.mp ha' with rfl | ha'
      · rw [hbs, Option.some.injEq] at hbs'
        exact Or.inl (hbs' ▸ hb)
      · exact Or.inr ⟨a', ha', bs', hbs', hb⟩

/-- A walk of some source reports the row. -/
def Reports (U : Unicode) (sources : List Source) (opts : ScanOptions) (disk : Forest)
    (stat : Path → Meta) (e : Entry) : Prop :=
  ∃ s ∈ sources, ∃ root ∈ s.roots, ∃ spots,
    (s.rules U opts).scan U (absPath root).bytes (disk.beneath root) = some spots ∧
      ∃ spot ∈ spots, s.row stat root spot = e

variable {U : Unicode} {sources : List Source} {opts : ScanOptions} {disk : Forest}
  {stat : Path → Meta}

theorem walkAll_isSome : (walkAll U sources opts disk stat).isSome = true ↔
    ∀ s ∈ sources, ∀ root ∈ s.roots,
      ((s.rules U opts).scan U (absPath root).bytes (disk.beneath root)).isSome = true := by
  unfold walkAll Source.walk
  rw [Option.isSome_map, mapM_isSome]
  refine forall₂_congr fun s _ => ?_
  rw [Option.isSome_map, mapM_isSome]
  simp

theorem mem_walkAll {rows : List Entry} (h : walkAll U sources opts disk stat = some rows) (e : Entry) :
    e ∈ rows ↔ Reports U sources opts disk stat e := by
  unfold walkAll at h
  rw [Option.map_eq_some_iff] at h
  obtain ⟨out, hout, rfl⟩ := h
  rw [mem_flatten_of_mapM _ _ hout]
  refine exists_congr fun s => and_congr_right fun hs => ?_
  unfold Source.walk
  simp only [Option.map_eq_some_iff]
  constructor
  · rintro ⟨-, ⟨per, hper, rfl⟩, he⟩
    rw [mem_flatten_of_mapM _ _ hper] at he
    obtain ⟨root, hroot, bs, hbs, he⟩ := he
    obtain ⟨spots, hspots, rfl⟩ := Option.map_eq_some_iff.mp hbs
    obtain ⟨spot, hspot, rfl⟩ := List.mem_map.mp he
    exact ⟨root, hroot, spots, hspots, spot, hspot, rfl⟩
  · rintro ⟨root, hroot, spots, hspots, spot, hspot, rfl⟩
    have hwalk := (mapM_isSome _ _).mp (by rw [hout]; rfl) s hs
    unfold Source.walk at hwalk
    rw [Option.isSome_map] at hwalk
    obtain ⟨per, hper⟩ := Option.isSome_iff_exists.mp hwalk
    refine ⟨per.flatten, ⟨per, hper, rfl⟩, (mem_flatten_of_mapM _ _ hper _).mpr ?_⟩
    exact ⟨root, hroot, _, by rw [hspots]; rfl, List.mem_map.mpr ⟨spot, hspot, rfl⟩⟩

/-! ## Rules that only grow -/

/-- The rules exclude all that the others do, and allow the same. -/
structure Rules.Le (r r' : Rules) : Prop where
  paths : r.paths ⊆ r'.paths
  dirs : r.dirs ⊆ r'.dirs
  dirSeqs : r.dirSeqs ⊆ r'.dirSeqs
  files : r.files ⊆ r'.files
  deny : r.deny ⊆ r'.deny
  allow : r.allow = r'.allow
  allowSeqs : r.allowSeqs = r'.allowSeqs

theorem own_eq (opts : ScanOptions) (roots : List (List Name)) (skip : List Str) :
    own opts roots skip = { opts with
      excludePaths := opts.excludePaths.filter fun rule => !roots.any fun r => startsWith r rule
      deny := opts.deny ++ skip } := by
  unfold own
  simp only
  split
  · rename_i h
    rw [Bool.and_eq_true, List.isEmpty_iff, Bool.not_eq_true', List.any_eq_false] at h
    obtain ⟨rfl, h⟩ := h
    rw [List.append_nil, List.filter_eq_self.mpr]
    intro rule hr
    simpa using h rule hr
  · rfl

theorem norm_subset {v w : List Str} (h : v ⊆ w) : Rules.norm v ⊆ Rules.norm w := by
  intro x hx
  unfold Rules.norm at hx ⊢
  rw [List.mem_filter] at hx ⊢
  exact ⟨List.map_subset _ h hx.1, hx.2⟩

theorem rules_le (U : Unicode) (s : Source) {before after : ScanOptions} (h : Adds before after) :
    (s.rules U before).Le (s.rules U after) := by
  unfold Source.rules Rules.fromOptions
  rw [own_eq, own_eq]
  have hlower := List.map_subset U.toLowercase h.excludeDirs
  refine ⟨norm_subset fun x hx => ?_, fun x hx => ?_, List.map_subset _ fun x hx => ?_,
    List.map_subset _ h.excludeFiles, norm_subset ?_, ?_, ?_⟩
  · rw [List.mem_filter] at hx ⊢
    exact ⟨h.excludePaths hx.1, hx.2⟩
  · rw [List.mem_filter] at hx ⊢
    exact ⟨hlower hx.1, hx.2⟩
  · rw [List.mem_filter] at hx ⊢
    exact ⟨hlower hx.1, hx.2⟩
  · exact List.append_subset.mpr ⟨fun x hx => List.mem_append_left _ (h.deny hx),
      List.subset_append_right _ _⟩
  · simp only [h.allow]
  · simp only [h.allow]

namespace Rules.Le

variable {r r' : Rules} (h : r.Le r')
include h

theorem allows_eq (path : Str) (d : Bool) : r.allows U path d = r'.allows U path d := by
  unfold Rules.allows tailMatches keep
  rw [h.allow, h.allowSeqs]

theorem mayContainAllowed_eq (path : Str) :
    r.mayContainAllowed U path = r'.mayContainAllowed U path := by
  unfold mayContainAllowed
  rw [h.allow, h.allowSeqs]

theorem denied_of (path : Str) (hd : r.denied path = true) : r'.denied path = true := by
  obtain ⟨d, hm, hu⟩ := List.any_eq_true.mp hd
  exact List.any_eq_true.mpr ⟨d, h.deny hm, hu⟩

theorem caught_of (path name : Str) (d : Bool) (hc : r.caught U path name d = true) :
    r'.caught U path name d = true := by
  unfold caught at hc ⊢
  cases d with
  | false =>
    simp only [Bool.false_eq_true, if_false, List.contains_iff_mem] at hc ⊢
    exact h.files hc
  | true =>
    simp only [if_true, Bool.or_eq_true, List.contains_iff_mem] at hc ⊢
    refine hc.imp (fun hm => h.dirs hm) fun hs => ?_
    obtain ⟨rule, hm, hr⟩ := List.any_eq_true.mp hs
    exact List.any_eq_true.mpr ⟨rule, h.dirSeqs hm, hr⟩

theorem insideExcluded_ne (path : Str) (hi : r.insideExcluded U path = some true) :
    r'.insideExcluded U path ≠ some false := by
  have hany : ∀ (f : List Str → Option Bool) (l : List (List Str)) (a : List Str), a ∈ l →
      f a = some true → l.anyM f ≠ some false := by
    intro f l a ha hf
    induction l with
    | nil => cases ha
    | cons b l ih =>
      simp only [List.anyM_cons, Option.bind_eq_bind, Option.pure_def]
      rcases List.mem_cons.mp ha with rfl | ha
      · simp [hf]
      · cases hb : f b with
        | none => simp
        | some c =>
          cases c with
          | true => simp
          | false => simpa using ih ha
  have hex : ∀ (f : List Str → Option Bool) (l : List (List Str)), l.anyM f = some true →
      ∃ a ∈ l, f a = some true := by
    intro f l
    induction l with
    | nil =>
      intro h
      cases h
    | cons b l ih =>
      intro h
      simp only [List.anyM_cons, Option.bind_eq_bind, Option.pure_def] at h
      cases hb : f b with
      | none =>
        rw [hb] at h
        cases h
      | some c =>
        cases c with
        | true => exact ⟨b, List.mem_cons_self, hb⟩
        | false =>
          rw [hb] at h
          obtain ⟨a, ha, hf⟩ := ih h
          exact ⟨a, List.mem_cons_of_mem _ ha, hf⟩
  unfold insideExcluded at hi ⊢
  by_cases h1 : ((components path).dropLast.any fun c => r.dirs.contains (U.charsLowercase c)) = true
  · rw [if_pos]
    · simp
    · obtain ⟨c, hc, hm⟩ := List.any_eq_true.mp h1
      rw [List.contains_iff_mem] at hm
      exact List.any_eq_true.mpr ⟨c, hc, List.contains_iff_mem.mpr (h.dirs hm)⟩
  · rw [if_neg h1] at hi
    split
    · simp
    · unfold seqWithin at hi ⊢
      split at hi
      · cases hi
      · obtain ⟨rule, hm, hr⟩ := hex _ _ hi
        have hm' := h.dirSeqs hm
        rw [if_neg (by rw [List.isEmpty_iff]; exact List.ne_nil_of_mem hm')]
        exact hany _ _ rule hm' hr

/-- What is excluded stays excluded. -/
theorem excludes_ne (path name : Str) (d : Bool) (hx : r.excludes U path name d = some true) :
    r'.excludes U path name d ≠ some false := by
  rw [excludes_eq] at hx ⊢
  rw [← h.allows_eq]
  have hallow : r'.hasAllow = r.hasAllow := by
    unfold hasAllow
    rw [h.allow, h.allowSeqs]
  rw [hallow]
  by_cases h1 : r'.denied path = true
  · rw [if_pos h1]
    simp
  have h1' : r.denied path = false := by
    by_contra hd
    exact h1 (h.denied_of path (by simpa using hd))
  rw [if_neg h1]
  rw [h1'] at hx
  by_cases h2 : r.allows U path d = true
  · rw [if_pos h2] at hx
    cases hx
  rw [if_neg h2] at hx ⊢
  by_cases h3 : r'.paths.any (under path ·) = true
  · rw [if_pos h3]
    simp
  have h3' : r.paths.any (under path ·) = false := by
    by_contra hp
    rw [Bool.not_eq_false] at hp
    obtain ⟨q, hq, hu⟩ := List.any_eq_true.mp hp
    exact h3 (List.any_eq_true.mpr ⟨q, h.paths hq, hu⟩)
  rw [if_neg h3]
  rw [h3'] at hx
  by_cases h4 : r'.caught U path name d = true
  · rw [if_pos h4]
    simp
  have h4' : r.caught U path name d = false := by
    by_contra hc
    exact h4 (h.caught_of path name d (by simpa using hc))
  rw [if_neg h4]
  rw [h4'] at hx
  by_cases h5 : r.hasAllow = true
  · rw [if_pos h5]
    simp only [Bool.false_eq_true, if_false, h5, if_true] at hx
    exact h.insideExcluded_ne path hx
  · simp [h5] at hx

variable {root : Str} {below : Forest} {out out' : List Spot}

/-- A walk under more exclusions reports no more. -/
theorem scan_subset (hout : r.scan U root below = some out) (hout' : r'.scan U root below = some out')
    {s : Spot} (hs : s ∈ out') : s ∈ out := by
  rw [scan_spec U r' root below out' hout', reported_iff] at hs
  obtain ⟨htree, hreach, hx⟩ := hs
  have hscan : (r.scan U root below).isSome = true := by rw [hout]; rfl
  have hd : r.denied (pathAt root s.names) = false := by
    by_contra hd
    rw [excludes_eq, if_pos (h.denied_of _ (by simpa using hd))] at hx
    cases hx
  have hr : r.Reached U root 0 s.names := by
    rw [reached_iff U r root below hscan htree hd]
    rintro ⟨l, hl, hne, hc⟩
    have hdl : r.denied (pathAt root l) = false := by
      by_contra hdl
      rw [r.denied_mono (leads_pathAt root hl hne) (by simpa using hdl)] at hd
      cases hd
    rw [closes_iff U r hdl] at hc
    rcases (r'.entered_iff U root l).mp (hreach l hl hne (Nat.zero_le _)) with he | ⟨-, he⟩
    · exact h.excludes_ne _ _ _ hc.1 he
    · rw [← h.mayContainAllowed_eq, hc.2] at he
      cases he
  rw [scan_spec U r root below out hout, reported_iff]
  refine ⟨htree, hr, ?_⟩
  have hcalm := (scan_isSome U r root below).mp hscan s htree hr
  rw [visitAt_ne_none_iff] at hcalm
  cases hb : r.excludes U (pathAt root s.names) (nameAt root s.names) s.isDir with
  | none => exact absurd hb hcalm
  | some b =>
    cases b with
    | false => rfl
    | true => exact absurd hx (h.excludes_ne _ _ _ hb)

/-- What a walk no longer reports is excluded itself, or below a reported directory that is. -/
theorem excluded_above (hout : r.scan U root below = some out) (hout' : r'.scan U root below = some out')
    {s : Spot} (hs : s ∈ out) (hno : s ∉ out') : ∃ t ∈ out, t.names <+: s.names ∧
      r'.excludes U (pathAt root t.names) (nameAt root t.names) t.isDir ≠ some false := by
  by_contra hall
  push Not at hall
  refine hno ?_
  have hx := hall s hs (List.prefix_refl _)
  have hscan' : (r'.scan U root below).isSome = true := by rw [hout']; rfl
  have hs' := hs
  rw [scan_spec U r root below out hout, reported_iff] at hs'
  obtain ⟨htree, hreach, -⟩ := hs'
  have hd : r'.denied (pathAt root s.names) = false := by
    by_contra hd
    rw [excludes_eq, if_pos (by simpa using hd)] at hx
    cases hx
  rw [scan_spec U r' root below out' hout', reported_iff]
  refine ⟨htree, (reached_iff U r' root below hscan' htree hd).mpr ?_, hx⟩
  rintro ⟨l, hl, hne, hc⟩
  have hdl : r'.denied (pathAt root l) = false := by
    by_contra hdl
    rw [r'.denied_mono (leads_pathAt root hl hne) (by simpa using hdl)] at hd
    cases hd
  rw [closes_iff U r' hdl] at hc
  -- the directory was gone into and reported before
  have hmem : (⟨l, true⟩ : Spot) ∈ out := by
    rw [scan_spec U r root below out hout, reported_iff]
    refine ⟨mem_treeSpots_of_leading below htree hl hne, fun m hm hmne hk => ?_, ?_⟩
    · refine hreach m (hm.trans hl) (fun he => ?_) hk
      subst he
      exact hmne (hm.eq_of_length_le hl.length_le)
    · rcases (r.entered_iff U root l).mp (hreach l hl hne (Nat.zero_le _)) with he | ⟨-, he⟩
      · exact he
      · rw [h.mayContainAllowed_eq, hc.2] at he
        cases he
  have := hall _ hmem hl
  rw [hc.1] at this
  cases this

end Rules.Le

/-! ## The test and the walk -/

theorem notMem_of_mem_components {path c : Str} (h : c ∈ components path) : slash ∉ c :=
  notMem_of_mem_split slash path c (List.mem_filter.mp h).1

/-- No rule is named `/`. -/
theorem caught_slash (U : Unicode) (opts : ScanOptions) (path : Str) :
    (Rules.fromOptions U opts).caught U path [slash] true = false := by
  have hlow : U.toLowercase [slash] = [slash] := rfl
  unfold Rules.caught Rules.seqEndsAt Rules.fromOptions
  simp only [if_true, hlow]
  rw [Bool.or_eq_false_iff]
  constructor
  · rw [← Bool.not_eq_true, List.contains_iff_mem, List.mem_filter]
    rintro ⟨-, h⟩
    exact absurd h (by decide)
  · rw [List.any_eq_false]
    intro rule hr hcon
    obtain ⟨d, -, rfl⟩ := List.mem_map.mp hr
    rw [Bool.and_eq_true, Bool.and_eq_true, beq_iff_eq] at hcon
    exact notMem_of_mem_components (List.mem_of_getLast? hcon.1.1) List.mem_cons_self

theorem nameAt_absPath {root names : List Name} (h : root ++ names ≠ []) :
    nameAt (absPath root).bytes names = lastName (absPath (root ++ names)).bytes := by
  cases names using List.reverseRecOn with
  | nil =>
    cases root using List.reverseRecOn with
    | nil => exact absurd rfl h
    | append_singleton l n => rw [List.append_nil, lastName_absPath, nameAt]; exact fileName_absPath l n
  | append_singleton l n =>
    rw [← List.append_assoc, lastName_absPath]
    simp [nameAt]

/-- What the test lets pass, the walk lets pass. -/
theorem excludes_of_excluder {U : Unicode} {s : Source} {opts : ScanOptions} {stat : Path → Meta}
    {root : List Name} {spot : Spot} (hdir : root ++ spot.names = [] → spot.isDir = true)
    (h : s.excluder U opts (s.row stat root spot).path.bytes (s.row stat root spot).isDir =
      some false) :
    (s.rules U opts).excludes U (pathAt (absPath root).bytes spot.names)
      (nameAt (absPath root).bytes spot.names) spot.isDir = some false := by
  rw [pathAt_absPath]
  have h : (s.rules U opts).excludes U (absPath (root ++ spot.names)).bytes
      (lastName (absPath (root ++ spot.names)).bytes) spot.isDir = some false := h
  by_cases hne : root ++ spot.names = []
  · have hd := hdir hne
    rw [List.append_eq_nil_iff] at hne
    obtain ⟨rfl, hn⟩ := hne
    rw [hn, hd] at h ⊢
    have hname : nameAt (absPath []).bytes [] = [slash] := rfl
    have hslash : (s.rules U opts).caught U (absPath ([] ++ [])).bytes [slash] true = false :=
      caught_slash U _ _
    rw [hname, Rules.excludes_eq, hslash]
    rw [Rules.excludes_eq] at h
    cases hc : (s.rules U opts).caught U (absPath ([] ++ [])).bytes
        (lastName (absPath ([] ++ [])).bytes) true with
    | false => rwa [hc] at h
    | true =>
      rw [hc] at h
      split at h
      · cases h
      · rename_i h1
        rw [if_neg h1]
        split at h
        · rename_i h2
          rw [if_pos h2]
        · split at h <;> cases h
  · rw [nameAt_absPath hne]
    exact h

section

variable {U : Unicode} {sources : List Source} {before after : ScanOptions} {disk : Forest}
  {stat : Path → Meta}

/-- Adding exclusions, walks report no more. -/
theorem reports_mono (hadds : Adds before after)
    (hb : (walkAll U sources before disk stat).isSome = true) {e : Entry}
    (h : Reports U sources after disk stat e) : Reports U sources before disk stat e := by
  obtain ⟨s, hs, root, hroot, spots, hspots, spot, hspot, rfl⟩ := h
  obtain ⟨out, hout⟩ := Option.isSome_iff_exists.mp (walkAll_isSome.mp hb s hs root hroot)
  exact ⟨s, hs, root, hroot, out, hout, spot,
    (rules_le U s hadds).scan_subset hout hspots hspot, rfl⟩

/-- What walks no longer report is at or below a row that some test excludes. -/
theorem covered_of_not_reported (hadds : Adds before after)
    (ha : (walkAll U sources after disk stat).isSome = true) {live : List Entry}
    (hlive : ∀ e, e ∈ live ↔ Reports U sources before disk stat e)
    (hcalm : ∀ e ∈ live, excludedBy U sources after e ≠ none) {e : Entry} (he : e ∈ live)
    (hno : ¬Reports U sources after disk stat e) : ∃ y ∈ live,
      excludedBy U sources after y = some true ∧ under e.path.bytes y.path.bytes = true := by
  obtain ⟨s, hs, root, hroot, out, hout, spot, hspot, rfl⟩ := (hlive e).mp he
  obtain ⟨out', hout'⟩ := Option.isSome_iff_exists.mp (walkAll_isSome.mp ha s hs root hroot)
  have hgone : spot ∉ out' := fun h => hno ⟨s, hs, root, hroot, out', hout', spot, h, rfl⟩
  obtain ⟨t, ht, htn, hx⟩ := (rules_le U s hadds).excluded_above hout hout' hspot hgone
  have hlt : s.row stat root t ∈ live := (hlive _).mpr ⟨s, hs, root, hroot, out, hout, t, ht, rfl⟩
  refine ⟨_, hlt, ?_, ?_⟩
  · cases hb : excludedBy U sources after (s.row stat root t) with
    | none => exact absurd hb (hcalm _ hlt)
    | some b =>
      cases b with
      | true => rfl
      | false =>
        refine absurd (excludes_of_excluder (fun hnil => ?_) (excluder_of_excludedBy hb hs)) hx
        -- the root of a walk is a directory
        rw [Rules.scan_spec U _ _ _ out hout] at ht
        rcases List.mem_cons.mp ht.1 with rfl | hm
        · rfl
        · obtain ⟨n, l, hnames⟩ := Rules.names_of_mem_spots _ _ t hm
          rw [hnames] at hnil
          simp at hnil
  · show under (absPath (root ++ spot.names)).bytes (absPath (root ++ t.names)).bytes = true
    by_cases hne : t.names = spot.names
    · rw [hne]
      exact under_refl _
    · have : Leads (pathAt [slash] (root ++ t.names)) (pathAt [slash] (root ++ spot.names)) :=
        leads_pathAt [slash] ((List.prefix_append_right_inj root).mpr htn) (by simpa using hne)
      exact this.under (under_refl _)

end

end Scour
