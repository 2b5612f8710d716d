import Scour.ApplyRules
import Scour.Lib.Greatest

/-!
# Which disks are indexed

`plan` makes the configuration, the volumes found and what a person said about them into the list of
sources, each with the roots under its own that it leaves alone, and `ownerOf` is the engine's answer
to whose a path is.

The sources part the tree between them (`Parted`) at a path exactly where the deepest root at or
above it is held by a source that no other root is nested into, and the others that hold the same
root do so inside a root of theirs (`sources_parted_iff`).  Two volumes mounted at one place are two
owners of every file there (`not_sources_parted`).
-/

namespace Scour

open Search

/-! ## Paths as the standard library compares them -/

/-- `Path::components`, of a Unix path: `.` counts only where a relative path begins with it. -/
def pathComponents (p : Str) : List Str :=
  let named (c : Str) : Bool := !c.isEmpty && c ≠ str "."
  if p.head? = some slash then [slash] :: (split slash p).filter named
  else
    match split slash p with
    | [] => []
    | first :: rest => (if first.isEmpty then [] else [first]) ++ rest.filter named

/-- `Path::starts_with`. -/
def pathStartsWith (p base : Str) : Bool := (pathComponents base).isPrefixOf (pathComponents p)

/-- `==` of two paths. -/
def pathEq (p q : Str) : Bool := pathComponents p == pathComponents q

example : pathEq (str "/a//b/./") (str "/a/b") = true := by decide +kernel

/-! ## What the plan is made from -/

/-- What decides whether a volume is indexed without asking. -/
inductive VolumeKind where
  | system | fixed | removable | network
deriving DecidableEq

/-- Indexed without asking. -/
def VolumeKind.isBuiltIn : VolumeKind → Bool
  | .system | .fixed => true
  | .removable | .network => false

/-- One filesystem a person would call a disk, and where it is reached. -/
structure Volume where
  id : Str
  roots : List Str
  kind : VolumeKind
deriving DecidableEq

inductive SourceKindCfg where
  | local | removable | network
deriving DecidableEq

structure SourceCfg where
  name : Str
  kind : SourceKindCfg
  roots : List Str
  watch : Bool
deriving DecidableEq

/-- What a person said about disks and folders. -/
structure Settings where
  volumesOn : List Str
  volumesOff : List Str
  removable : Str
  network : Str
  folders : List Str

/-- Whether a disk is indexed, and who decided. -/
inductive DiskState where
  | auto | chosen | configured | off | asking | later | manual
deriving DecidableEq

/-- One source to build: what it is, the roots it leaves to others, and whether it is the system's
disk. -/
structure Planned where
  source : SourceCfg
  skip : List Str
  system : Bool
deriving DecidableEq

/-- What the service indexes, and what it says about every disk. -/
structure DiskPlan where
  sources : List Planned
  disks : List (Volume × DiskState)

/-- One of the configurations a first start writes: the home directory, or a whole drive. -/
def isDefaultSource (s : SourceCfg) (home : Option Str) : Bool :=
  match s.roots with
  | [root] =>
      let wholeDrive := root.length == 3 && (str ":\\").isSuffixOf root &&
        root.head?.any fun b => (65 ≤ b && b ≤ 90) || (97 ≤ b && b ≤ 122)
      (s.name == str "home" && home.any (pathEq root ·)) ||
        ((str "drive-").isPrefixOf s.name && wholeDrive)
  | _ => false

/-- `Config::sources_given`: were the sources chosen by a person? -/
def sourcesGiven (sources : List SourceCfg) (home : Option Str) : Bool :=
  !sources.all (isDefaultSource · home)

/-! ## The plan -/

def stateOf (v : Volume) (given : List SourceCfg) (manual : Bool) (settings : Settings)
    (later : List Str) : DiskState :=
  let covered := v.roots.all fun r => (given.flatMap (·.roots)).any (pathStartsWith r ·)
  if covered then .configured
  else if settings.volumesOff.contains v.id then .off
  else if settings.volumesOn.contains v.id then .chosen
  else if v.kind.isBuiltIn then if manual then .manual else .auto
  else
    -- nobody has answered for this one: what was said for its kind
    let policy := if v.kind = .network then settings.network else settings.removable
    if policy = str "always" then .chosen
    else if policy = str "never" then .off
    else if later.contains v.id then .later
    else .asking

/-- A disk as a source, named by its id. -/
def sourceOf (v : Volume) : SourceCfg where
  name := v.id
  kind :=
    match v.kind with
    | .system | .fixed => .local
    | .removable => .removable
    | .network => .network
  roots := v.roots
  watch := true

/-- The home folder as a source of its own when the disk holding it is indexed. -/
def homeApart (config sources : List SourceCfg) (volumes : List Volume) : Option SourceCfg :=
  match config.find? (·.name == str "home") with
  | none => none
  | some home =>
      match home.roots with
      | [root] =>
          let held := (sources.flatMap (·.roots)).any fun r => !pathEq root r && pathStartsWith root r
          let aDisk := (volumes.flatMap (·.roots)).any (pathEq · root)
          if held && !aDisk then some home else none
      | _ => none

/-- One folder added from a face, unless a source already holds it: the deepest root above it is a
source's. -/
def folderApart (sources : List SourceCfg) (volumes : List Volume) (out : List SourceCfg)
    (f : Str) : List SourceCfg :=
  if f.head? ≠ some slash then out
  else
    let indexed := (sources ++ out).flatMap (·.roots)
    let deepest := maxByKey (fun r => (pathComponents r).length)
      ((indexed ++ volumes.flatMap (·.roots)).filter (pathStartsWith f ·))
    let held := deepest.any fun d => indexed.any (pathEq · d)
    if held then out
    else out ++ [{ name := str "folder:" ++ f, kind := .local, roots := [f], watch := true }]

def foldersApart (settings : Settings) (sources : List SourceCfg) (volumes : List Volume) :
    List SourceCfg :=
  settings.folders.foldl (folderApart sources volumes) []

/-- Does a root lie under one of these, and is it none of them? -/
def liesUnder (roots : List Str) (r : Str) : Bool :=
  roots.any fun mine => !pathEq r mine && pathStartsWith r mine

/-- Every other source's root that lies under one of this source's roots. -/
def rootsUnder (sources : List SourceCfg) : List (SourceCfg × List Str) :=
  let all := sources.zipIdx.flatMap fun (s, i) => s.roots.map fun r => (i, r)
  sources.zipIdx.map fun (s, i) =>
    (s, (all.filter fun x => x.1 ≠ i && liesUnder s.roots x.2).map (·.2))

/-- `if !skip.contains(&r) { skip.push(r) }`. -/
def pushNew (skip : List Str) (r : Str) : List Str :=
  if skip.any (pathEq · r) then skip else skip ++ [r]

/-- The service's own sources stop at every disk mounted inside them. -/
def fence (volumes : List Volume) (p : Planned) : Planned :=
  let inside := ((volumes.filter fun v => v.id ≠ p.source.name).flatMap (·.roots)).filter
    (liesUnder p.source.roots ·)
  { p with skip := inside.foldl pushNew p.skip }

/-- A source to build, before the fence. -/
def planned (system : List Str) (x : SourceCfg × List Str) : Planned where
  source := x.1
  skip := x.2
  system := system.contains x.1.name

def plan (config : List SourceCfg) (home : Option Str) (volumes : List Volume)
    (settings : Settings) (later : List Str) : DiskPlan :=
  let manual := sourcesGiven config home
  let given := if manual then config else []
  let disks := volumes.map fun v => (v, stateOf v given manual settings later)
  let indexed := disks.filter fun d => d.2 = .auto || d.2 = .chosen
  let system := (indexed.filter fun d => d.1.kind = .system).map (·.1.id)
  let sources := given ++ indexed.map fun d => sourceOf d.1
  let sources := if sources.isEmpty && volumes.isEmpty then config else sources
  let sources := if manual then sources else (homeApart config sources volumes).toList ++ sources
  let sources := sources ++ foldersApart settings sources volumes
  let all := (rootsUnder sources).map (planned system)
  { sources := all.take given.length ++ (all.drop given.length).map (fence volumes)
    disks := disks }

/-! ## Whose a path is -/

/-- Is the path at a root, or under it? -/
def owns (path root : Str) : Bool :=
  let r := trimEnd root
  path == r || (r.isPrefixOf path && path[r.length]? == some slash)

/-- `owner_of`: the longest root wins. -/
def ownerOf (sources : List Planned) (path : Str) : Option Nat :=
  (maxByKey (·.2) (sources.zipIdx.filterMap fun (p, i) =>
    ((p.source.roots.filter (owns path)).map fun r => (trimEnd r).length).max?.map
      fun len => (i, len))).map (·.1)

/-! ## Paths and their spelling -/

theorem pathEq_iff (p q : Str) : pathEq p q = true ↔ pathComponents p = pathComponents q := by
  unfold pathEq
  exact beq_iff_eq

theorem pathStartsWith_iff (p base : Str) :
    pathStartsWith p base = true ↔ pathComponents base <+: pathComponents p := by
  unfold pathStartsWith
  exact List.isPrefixOf_iff_prefix

/-- The path as a root at it is spelled. -/
def spelling (names : List Name) : Str := trimEnd (absPath names).bytes

theorem trimEnd_of_getLast {p : Str} (h : p.getLast? ≠ some slash) : trimEnd p = p := by
  rw [trimEnd_eq_self_iff]
  intro d hd
  rw [hd, List.getLast?_concat] at h
  exact h rfl

theorem absPath_concat (l : List Name) (n : Name) :
    (absPath (l ++ [n])).bytes = spelling l ++ slash :: n.bytes := by
  induction l using List.reverseRecOn generalizing n with
  | nil => rfl
  | append_singleton l m ih =>
    have hlast : (absPath (l ++ [m])).bytes.getLast? ≠ some slash := by
      rw [ih m, List.getLast?_append_cons, List.getLast?_cons_of_ne_nil m.ok.1]
      intro h
      exact m.ok.2.1 (List.mem_of_getLast? h)
    show pathAt [slash] (l ++ [m] ++ [n]) = _
    rw [pathAt_concat]
    unfold spelling
    rw [trimEnd_of_getLast hlast]
    unfold joinName
    rw [if_neg]
    · rfl
    · rintro (h | h)
      · have := (absPath (l ++ [m])).ok
        rw [show (absPath (l ++ [m])).bytes = pathAt [slash] (l ++ [m]) from rfl, h] at this
        cases this
      · exact hlast h

theorem spelling_concat (l : List Name) (n : Name) :
    spelling (l ++ [n]) = spelling l ++ slash :: n.bytes := by
  have hlast : (absPath (l ++ [n])).bytes.getLast? ≠ some slash := by
    rw [absPath_concat, List.getLast?_append_cons, List.getLast?_cons_of_ne_nil n.ok.1]
    intro h
    exact n.ok.2.1 (List.mem_of_getLast? h)
  rw [← absPath_concat]
  exact trimEnd_of_getLast hlast

/-- Where a path goes on from a separator, what is before is the spelling of a path above. -/
theorem spelling_of_cut (names : List Name) : ∀ t : Str, t ++ [slash] <+: (absPath names).bytes →
    ∃ ns, ns <+: names ∧ t = spelling ns := by
  induction names using List.reverseRecOn with
  | nil =>
    intro t ht
    refine ⟨[], List.prefix_refl _, ?_⟩
    have hlen := ht.length_le
    have h1 : (absPath []).bytes.length = 1 := rfl
    rw [List.length_append, List.length_singleton, h1] at hlen
    rw [List.length_eq_zero_iff.mp (show t.length = 0 by omega)]
    rfl
  | append_singleton l n ih =>
    intro t ht
    rw [absPath_concat] at ht
    rcases Nat.lt_trichotomy t.length (spelling l).length with hlt | heq | hgt
    · have hsp : t ++ [slash] <+: spelling l :=
        List.prefix_of_prefix_length_le ht (List.prefix_append _ _) (by simp; omega)
      obtain ⟨ns, hns, h⟩ := ih t (hsp.trans (prefix_trimEnd _))
      exact ⟨ns, hns.trans (List.prefix_append _ _), h⟩
    · refine ⟨l, List.prefix_append _ _, ?_⟩
      exact (List.prefix_of_prefix_length_le ((List.prefix_append _ _).trans ht)
        (List.prefix_append _ _) (by omega)).eq_of_length heq
    · exfalso
      apply n.ok.2.1
      obtain ⟨r, hr⟩ := ht
      have hget := congrArg (fun q => q[t.length]?) hr
      simp only [List.append_assoc, List.singleton_append] at hget
      rw [List.getElem?_append_right (le_refl _), Nat.sub_self, List.getElem?_cons_zero,
        List.getElem?_append_right (by omega),
        show t.length - (spelling l).length = t.length - (spelling l).length - 1 + 1 by omega,
        List.getElem?_cons_succ] at hget
      exact List.mem_of_getElem? hget.symm

theorem spelling_lt {ns names : List Name} (h : ns <+: names) (hne : ns ≠ names) :
    (spelling ns).length < (spelling names).length := by
  obtain ⟨m, rfl⟩ := h
  induction m using List.reverseRecOn with
  | nil => exact absurd (List.append_nil ns).symm hne
  | append_singleton m n ih =>
    rw [← List.append_assoc, spelling_concat, List.length_append, List.length_cons]
    by_cases hm : ns = ns ++ m
    · rw [← hm]
      omega
    · have := ih hm
      omega

/-- What the engine's test says of a root: it is spelled as a path at or above. -/
theorem owns_iff (names : List Name) (r : Str) :
    owns (absPath names).bytes r = true ↔ ∃ ns, ns <+: names ∧ trimEnd r = spelling ns := by
  have hcut : ∀ t : Str, (t.isPrefixOf (absPath names).bytes &&
      (absPath names).bytes[t.length]? == some slash) = true ↔
        t ++ [slash] <+: (absPath names).bytes := by
    intro t
    rw [Bool.and_eq_true, List.isPrefixOf_iff_prefix, beq_iff_eq]
    constructor
    · rintro ⟨⟨u, hu⟩, h⟩
      rw [← hu, List.getElem?_append_right (le_refl _), Nat.sub_self] at h
      cases u with
      | nil => cases h
      | cons c u =>
        rw [List.getElem?_cons_zero, Option.some.injEq] at h
        exact ⟨u, by rw [← hu, h]; simp⟩
    · rintro ⟨u, hu⟩
      rw [← hu]
      exact ⟨⟨slash :: u, by simp⟩, by simp⟩
  unfold owns
  simp only
  rw [Bool.or_eq_true, hcut, beq_iff_eq]
  constructor
  · rintro (h | h)
    · refine ⟨names, List.prefix_refl _, ?_⟩
      unfold spelling
      rw [h, trimEnd_trimEnd]
    · exact spelling_of_cut names _ h
  · rintro ⟨ns, hns, h⟩
    rw [h]
    by_cases hne : ns = names
    · subst hne
      cases hn : ns using List.reverseRecOn with
      | nil => exact Or.inr (List.prefix_refl _)
      | append_singleton l n =>
        left
        rw [spelling_concat, absPath_concat]
    · right
      exact (leads_pathAt [slash] hns hne).2 fun h0 => by
        have := (absPath ns).ok
        rw [show (absPath ns).bytes = pathAt [slash] ns from rfl, h0] at this
        cases this

/-! ## What a source leaves to others -/

theorem exists_mem_pushNew (rs : List Str) (c : List Str) : ∀ skip : List Str,
    (∃ k ∈ rs.foldl pushNew skip, pathComponents k = c) ↔
      (∃ k ∈ skip, pathComponents k = c) ∨ ∃ k ∈ rs, pathComponents k = c := by
  induction rs with
  | nil => simp
  | cons r rs ih =>
    intro skip
    rw [List.foldl_cons, ih]
    have hpush : (∃ k ∈ pushNew skip r, pathComponents k = c) ↔
        (∃ k ∈ skip, pathComponents k = c) ∨ pathComponents r = c := by
      unfold pushNew
      by_cases h : skip.any (pathEq · r) = true
      · rw [if_pos h]
        obtain ⟨k, hk, hkr⟩ := List.any_eq_true.mp h
        rw [pathEq_iff] at hkr
        exact ⟨Or.inl, fun h => h.elim id fun hr => ⟨k, hk, hkr.trans hr⟩⟩
      · rw [if_neg h]
        simp only [List.mem_append, List.mem_singleton]
        constructor
        · rintro ⟨k, hk | rfl, hc⟩
          · exact Or.inl ⟨k, hk, hc⟩
          · exact Or.inr hc
        · rintro (⟨k, hk, hc⟩ | hc)
          · exact ⟨k, Or.inl hk, hc⟩
          · exact ⟨r, Or.inr rfl, hc⟩
    rw [hpush, or_assoc]
    refine or_congr_right ?_
    simp only [List.mem_cons, exists_eq_or_imp]

theorem liesUnder_iff (roots : List Str) (k : Str) : liesUnder roots k = true ↔
    ∃ mine ∈ roots, pathComponents k ≠ pathComponents mine ∧
      pathComponents mine <+: pathComponents k := by
  unfold liesUnder
  simp only [List.any_eq_true, Bool.and_eq_true, Bool.not_eq_true', ← Bool.not_eq_true, pathEq_iff,
    pathStartsWith_iff]

theorem rootsUnder_getElem? (sources : List SourceCfg) (i : Nat) {s : SourceCfg}
    (hs : sources[i]? = some s) : ∃ skip, (rootsUnder sources)[i]? = some (s, skip) ∧
      ∀ k, k ∈ skip ↔ (∃ j t, sources[j]? = some t ∧ j ≠ i ∧ k ∈ t.roots) ∧
        liesUnder s.roots k = true := by
  unfold rootsUnder
  simp only
  rw [List.getElem?_map, List.getElem?_zipIdx, hs]
  refine ⟨_, rfl, fun k => ?_⟩
  simp only [Nat.zero_add, List.mem_map, List.mem_filter, List.mem_flatMap, Bool.and_eq_true,
    decide_eq_true_eq, Prod.exists]
  constructor
  · rintro ⟨j, k', ⟨⟨t, j', hj, r, hr, heq⟩, hne, hlies⟩, rfl⟩
    simp only [Prod.mk.injEq] at heq
    obtain ⟨rfl, rfl⟩ := heq
    exact ⟨⟨j', t, List.mem_zipIdx_iff_getElem?.mp hj, hne, hr⟩, hlies⟩
  · rintro ⟨⟨j, t, hj, hne, hk⟩, hlies⟩
    exact ⟨j, k, ⟨⟨t, j, List.mem_zipIdx_iff_getElem?.mpr hj, k, hk, rfl⟩, hne, hlies⟩, rfl⟩

variable (P : List Planned) (volumes : List Volume)

/-- A root that is not the source's own: another source's, or that of a volume of another name. -/
def Foreign (i : Nat) (s : Planned) (k : Str) : Prop :=
  (∃ j t, P[j]? = some t ∧ j ≠ i ∧ k ∈ t.source.roots) ∨
    ∃ v ∈ volumes, v.id ≠ s.source.name ∧ k ∈ v.roots

/-- Each source leaves alone the foreign roots that lie under its own. -/
def Fenced : Prop := ∀ i s, P[i]? = some s → ∀ c, (∃ k ∈ s.skip, pathComponents k = c) ↔
  ∃ k, Foreign P volumes i s k ∧ liesUnder s.source.roots k = true ∧ pathComponents k = c

theorem fenced_plan (config : List SourceCfg) (home : Option Str) (settings : Settings)
    (later : List Str) (hgiven : sourcesGiven config home = false) :
    Fenced (plan config home volumes settings later).sources volumes := by
  obtain ⟨sources, system, hplan⟩ : ∃ sources system, (plan config home volumes settings later).sources =
      ((rootsUnder sources).map (planned system)).map (fence volumes) := by
    unfold plan
    simp only [hgiven, Bool.false_eq_true, if_false, List.length_nil, List.take_zero, List.drop_zero,
      List.nil_append]
    exact ⟨_, _, rfl⟩
  rw [hplan]
  intro i s hs c
  have hsources : ∀ (j : Nat) (t : Planned), (((rootsUnder sources).map (planned system)).map (fence volumes))[j]? =
      some t → sources[j]? = some t.source := by
    intro j t ht
    rw [List.getElem?_map, List.getElem?_map] at ht
    cases hj : sources[j]? with
    | none =>
      rw [List.getElem?_eq_none_iff] at hj
      rw [List.getElem?_eq_none_iff.mpr (by simp [rootsUnder, hj])] at ht
      cases ht
    | some u =>
      obtain ⟨skip, hu, -⟩ := rootsUnder_getElem? sources j hj
      rw [hu] at ht
      rw [← Option.some.inj ht]
      rfl
  have hback : ∀ (j : Nat) (u : SourceCfg), sources[j]? = some u → ∃ t : Planned,
      (((rootsUnder sources).map (planned system)).map (fence volumes))[j]? = some t ∧
        t.source = u := by
    intro j u hu
    obtain ⟨skip, h, -⟩ := rootsUnder_getElem? sources j hu
    exact ⟨_, by rw [List.getElem?_map, List.getElem?_map, h]; rfl, rfl⟩
  obtain ⟨skip, hskip, hmem⟩ := rootsUnder_getElem? sources i (hsources i s hs)
  rw [List.getElem?_map, List.getElem?_map, hskip] at hs
  have hsk : s.skip = (((volumes.filter fun v => v.id ≠ s.source.name).flatMap (·.roots)).filter
      (liesUnder s.source.roots ·)).foldl pushNew skip := by
    rw [← Option.some.inj hs]
    rfl
  rw [hsk, exists_mem_pushNew]
  unfold Foreign
  constructor
  · rintro (⟨k, hk, hc⟩ | ⟨k, hk, hc⟩)
    · obtain ⟨⟨j, u, hj, hne, hr⟩, hlies⟩ := (hmem k).mp hk
      obtain ⟨t, ht, rfl⟩ := hback j u hj
      exact ⟨k, Or.inl ⟨j, t, ht, hne, hr⟩, hlies, hc⟩
    · obtain ⟨hk, hlies⟩ := List.mem_filter.mp hk
      obtain ⟨v, hv, hr⟩ := List.mem_flatMap.mp hk
      obtain ⟨hv, hname⟩ := List.mem_filter.mp hv
      exact ⟨k, Or.inr ⟨v, hv, by simpa using hname, hr⟩, hlies, hc⟩
  · rintro ⟨k, ⟨j, t, ht, hne, hr⟩ | ⟨v, hv, hname, hr⟩, hlies, hc⟩
    · exact Or.inl ⟨k, (hmem k).mpr ⟨⟨j, t.source, hsources j t ht, hne, hr⟩, hlies⟩, hc⟩
    · refine Or.inr ⟨k, List.mem_filter.mpr ⟨List.mem_flatMap.mpr ⟨v, ?_, hr⟩, hlies⟩, hc⟩
      exact List.mem_filter.mpr ⟨hv, by simpa using hname⟩

/-! ## Who accepts a path -/

/-- At or under one of the source's roots, and at or under none of its skips. -/
def Accepts (s : Planned) (path : Str) : Prop :=
  (∃ r ∈ s.source.roots, pathStartsWith path r = true) ∧
    ∀ k ∈ s.skip, pathStartsWith path k = false

/-- How deep a path is. -/
def depth (p : Str) : Nat := (pathComponents p).length

/-- The source has a root at or above the path, so deep. -/
def RootAt (path : Str) (i d : Nat) : Prop :=
  ∃ s, P[i]? = some s ∧ ∃ r ∈ s.source.roots, pathStartsWith path r = true ∧ depth r = d

/-- A root that is not the source's own is at or above the path, so deep. -/
def ForeignAt (path : Str) (i d : Nat) : Prop :=
  ∃ s, P[i]? = some s ∧ ∃ k, Foreign P volumes i s k ∧ pathStartsWith path k = true ∧ depth k = d

variable {P volumes}

theorem accepts_iff (hP : Fenced P volumes) {path : Str} {i : Nat} {s : Planned}
    (hs : P[i]? = some s) : Accepts s path ↔ (∃ d, RootAt P path i d) ∧
      ∀ f, ForeignAt P volumes path i f → ∀ a, RootAt P path i a → f ≤ a := by
  constructor
  · rintro ⟨⟨r, hr, hrp⟩, hskip⟩
    refine ⟨⟨_, s, hs, r, hr, hrp, rfl⟩, ?_⟩
    rintro f ⟨s', hs', k, hk, hkp, rfl⟩ a ⟨s'', hs'', m, hm, hmp, rfl⟩
    rw [hs, Option.some.injEq] at hs' hs''
    subst hs' hs''
    by_contra hlt
    rw [pathStartsWith_iff] at hkp hmp
    have hmk : pathComponents m <+: pathComponents k :=
      List.prefix_of_prefix_length_le hmp hkp (by unfold depth at hlt; omega)
    have hlies : liesUnder s.source.roots k = true := by
      refine (liesUnder_iff _ _).mpr ⟨m, hm, fun he => hlt ?_, hmk⟩
      unfold depth
      rw [he]
    obtain ⟨k', hk', hc⟩ := (hP i s hs _).mpr ⟨k, hk, hlies, rfl⟩
    have hno := hskip k' hk'
    rw [← Bool.not_eq_true, pathStartsWith_iff, hc] at hno
    exact hno hkp
  · rintro ⟨⟨d, s', hs', r, hr, hrp, -⟩, hle⟩
    rw [hs, Option.some.injEq] at hs'
    subst hs'
    refine ⟨⟨r, hr, hrp⟩, fun k hk => ?_⟩
    by_contra hkp
    rw [Bool.not_eq_false] at hkp
    obtain ⟨k', hforeign, hlies, hc⟩ := (hP i s hs _).mp ⟨k, hk, rfl⟩
    have hkp' : pathStartsWith path k' = true := by
      rw [pathStartsWith_iff] at hkp ⊢
      rwa [hc]
    obtain ⟨m, hm, hne, hmk⟩ := (liesUnder_iff _ _).mp hlies
    have hmp : pathStartsWith path m = true :=
      (pathStartsWith_iff _ _).mpr (hmk.trans ((pathStartsWith_iff _ _).mp hkp'))
    have hge := hle _ ⟨s, hs, k', hforeign, hkp', rfl⟩ _ ⟨s, hs, m, hm, hmp, rfl⟩
    exact hne (hmk.eq_of_length_le hge).symm

/-! ## Whom the engine picks -/

/-- The source spells one of its roots as this path is spelled. -/
def Spells (P : List Planned) (i : Nat) (ns : List Name) : Prop :=
  ∃ s, P[i]? = some s ∧ ∃ r ∈ s.source.roots, trimEnd r = spelling ns

/-- The deepest of the roots spelled as a path at or above is the source's, and no later one's. -/
def LastSpelled (P : List Planned) (names : List Name) (i : Nat) : Prop :=
  ∃ ns, ns <+: names ∧ Spells P i ns ∧ ∀ j ms, ms <+: names → Spells P j ms →
    ms.length ≤ ns.length ∧ (i < j → ms.length < ns.length)

theorem LastSpelled.unique {names : List Name} {i j : Nat} (hi : LastSpelled P names i)
    (hj : LastSpelled P names j) : i = j := by
  obtain ⟨ns, hns, hsi, hi⟩ := hi
  obtain ⟨ms, hms, hsj, hj⟩ := hj
  have h1 := hi j ms hms hsj
  have h2 := hj i ns hns hsi
  rcases Nat.lt_trichotomy i j with h | h | h
  · have := h1.2 h
    omega
  · exact h
  · have := h2.2 h
    omega

/-- The longest of a source's roots that the path is at or under. -/
def longestRoot (s : Planned) (path : Str) : Option Nat :=
  ((s.source.roots.filter (owns path)).map fun r => (trimEnd r).length).max?

theorem spelling_length_le {ns ms names : List Name} (hns : ns <+: names) (hms : ms <+: names) :
    (spelling ms).length ≤ (spelling ns).length ↔ ms.length ≤ ns.length := by
  constructor
  · intro h
    by_contra hlt
    have hp : ns <+: ms := List.prefix_of_prefix_length_le hns hms (by omega)
    have := spelling_lt hp (by rintro rfl; omega)
    omega
  · intro h
    have hp : ms <+: ns := List.prefix_of_prefix_length_le hms hns h
    by_cases he : ms = ns
    · rw [he]
    · exact le_of_lt (spelling_lt hp he)

theorem longestRoot_some {s : Planned} {names : List Name} {len : Nat}
    (h : longestRoot s (absPath names).bytes = some len) :
    (∃ ns, ns <+: names ∧ (∃ r ∈ s.source.roots, trimEnd r = spelling ns) ∧
      len = (spelling ns).length) ∧
      ∀ ms, ms <+: names → (∃ r ∈ s.source.roots, trimEnd r = spelling ms) →
        (spelling ms).length ≤ len := by
  unfold longestRoot at h
  rw [List.max?_eq_some_iff] at h
  obtain ⟨hmem, hle⟩ := h
  constructor
  · obtain ⟨r, hr, rfl⟩ := List.mem_map.mp hmem
    obtain ⟨hr, ho⟩ := List.mem_filter.mp hr
    obtain ⟨ns, hns, hsp⟩ := (owns_iff names r).mp ho
    exact ⟨ns, hns, ⟨r, hr, hsp⟩, by rw [hsp]⟩
  · rintro ms hms ⟨r, hr, hsp⟩
    apply hle
    refine List.mem_map.mpr ⟨r, List.mem_filter.mpr ⟨hr, ?_⟩, by rw [hsp]⟩
    exact (owns_iff names r).mpr ⟨ms, hms, hsp⟩

theorem longestRoot_ne_none {s : Planned} {names ms : List Name} (hms : ms <+: names)
    (h : ∃ r ∈ s.source.roots, trimEnd r = spelling ms) :
    ∃ len, longestRoot s (absPath names).bytes = some len := by
  obtain ⟨r, hr, hsp⟩ := h
  have hmem := List.mem_filter.mpr ⟨hr, (owns_iff names r).mpr ⟨ms, hms, hsp⟩⟩
  cases hl : longestRoot s (absPath names).bytes with
  | some len => exact ⟨len, rfl⟩
  | none =>
    unfold longestRoot at hl
    rw [List.max?_eq_none_iff, List.map_eq_nil_iff] at hl
    rw [hl] at hmem
    cases hmem

/-- The sources that own the path, each with the length it does so by. -/
def owners (P : List Planned) (path : Str) : List (Nat × Nat) :=
  P.zipIdx.filterMap fun x => (longestRoot x.1 path).map fun len => (x.2, len)

theorem ownerOf_eq (P : List Planned) (path : Str) :
    ownerOf P path = (maxByKey (·.2) (owners P path)).map (·.1) := rfl

theorem mem_owners {path : Str} {j len : Nat} :
    (j, len) ∈ owners P path ↔ ∃ s, P[j]? = some s ∧ longestRoot s path = some len := by
  unfold owners
  rw [List.mem_filterMap]
  constructor
  · rintro ⟨⟨s, i⟩, hs, h⟩
    obtain ⟨l, hl, heq⟩ := Option.map_eq_some_iff.mp h
    simp only [Prod.mk.injEq] at heq
    obtain ⟨rfl, rfl⟩ := heq
    exact ⟨s, List.mem_zipIdx_iff_getElem?.mp hs, hl⟩
  · rintro ⟨s, hs, h⟩
    exact ⟨(s, j), List.mem_zipIdx_iff_getElem?.mpr hs, by simp only [h, Option.map_some]⟩

theorem owners_pairwise (path : Str) : (owners P path).Pairwise fun a b => a.1 < b.1 := by
  unfold owners
  have hidx : P.zipIdx.Pairwise fun a b => a.2 < b.2 := by
    rw [List.pairwise_iff_getElem]
    intro i j hi hj hij
    simpa using hij
  refine List.Pairwise.filterMap _ ?_ hidx
  intro a b hab x hx y hy
  obtain ⟨la, -, rfl⟩ := Option.map_eq_some_iff.mp hx
  obtain ⟨lb, -, rfl⟩ := Option.map_eq_some_iff.mp hy
  exact hab

theorem lastSpelled_of_ownerOf {names : List Name} {i : Nat}
    (h : ownerOf P (absPath names).bytes = some i) : LastSpelled P names i := by
  rw [ownerOf_eq, Option.map_eq_some_iff] at h
  obtain ⟨⟨i', len⟩, hmax, hi⟩ := h
  simp only at hi
  subst hi
  obtain ⟨l₁, l₂, hl, hbefore, hafter⟩ := maxByKey_eq_some _ _ hmax
  have hin : (i', len) ∈ owners P (absPath names).bytes := by
    rw [hl]
    exact List.mem_append_right _ List.mem_cons_self
  obtain ⟨s, hs, hlong⟩ := mem_owners.mp hin
  obtain ⟨⟨ns, hns, hsp, rfl⟩, hle⟩ := longestRoot_some hlong
  refine ⟨ns, hns, ⟨s, hs, hsp⟩, ?_⟩
  rintro j ms hms ⟨t, ht, hmsp⟩
  obtain ⟨len', hlong'⟩ := longestRoot_ne_none hms hmsp
  have hle' := (longestRoot_some hlong').2 ms hms hmsp
  have hj := mem_owners.mpr ⟨t, ht, hlong'⟩
  have horder := owners_pairwise (P := P) (absPath names).bytes
  rw [hl] at hj horder
  rw [List.pairwise_append, List.pairwise_cons] at horder
  rcases List.mem_append.mp hj with hj | hj
  · have h1 := hbefore _ hj
    have h2 := horder.2.2 _ hj _ List.mem_cons_self
    simp only at h1 h2
    exact ⟨(spelling_length_le hns hms).mp (by omega), fun h => by omega⟩
  · rcases List.mem_cons.mp hj with heq | hj
    · simp only [Prod.mk.injEq] at heq
      obtain ⟨rfl, rfl⟩ := heq
      exact ⟨(spelling_length_le hns hms).mp hle', fun h => absurd h (lt_irrefl _)⟩
    · have h1 := hafter _ hj
      simp only at h1
      have hlt : ¬ ns.length ≤ ms.length := fun h => by
        have := (spelling_length_le hms hns).mpr h
        omega
      exact ⟨by omega, fun _ => by omega⟩

theorem ownerOf_iff (names : List Name) (i : Nat) :
    ownerOf P (absPath names).bytes = some i ↔ LastSpelled P names i := by
  refine ⟨lastSpelled_of_ownerOf, fun hlast => ?_⟩
  have ⟨ns, hns, ⟨s, hs, hsp⟩, _⟩ := hlast
  obtain ⟨len, hlong⟩ := longestRoot_ne_none hns hsp
  cases hm : maxByKey (·.2) (owners P (absPath names).bytes) with
  | none =>
    rw [maxByKey_eq_none_iff] at hm
    have := mem_owners.mpr ⟨s, hs, hlong⟩
    rw [hm] at this
    cases this
  | some x =>
    have hx : ownerOf P (absPath names).bytes = some x.1 := by rw [ownerOf_eq, hm]; rfl
    rw [hx, (lastSpelled_of_ownerOf hx).unique hlast]

/-! ## The tree, parted -/

/-- The deepest root at or above the path, of the sources and the volumes, is a source's. -/
def DeepestIsPlanned (P : List Planned) (volumes : List Volume) (path : Str) : Prop :=
  ∃ s ∈ P, ∃ r ∈ s.source.roots, pathStartsWith path r = true ∧
    ∀ q ∈ P.flatMap (·.source.roots) ++ volumes.flatMap (·.roots),
      pathStartsWith path q = true → depth q ≤ depth r

/-- At most one source accepts the path, one does exactly where the deepest root is a source's, and
that is the one the engine picks. -/
structure Parted (P : List Planned) (volumes : List Volume) (path : Str) : Prop where
  one : ∀ (i j : Nat) (s t : Planned), P[i]? = some s → P[j]? = some t → Accepts s path → Accepts t path → i = j
  some_ : (∃! i : Nat, ∃ s : Planned, P[i]? = some s ∧ Accepts s path) ↔ DeepestIsPlanned P volumes path
  owner : ∀ (i : Nat) (s : Planned), P[i]? = some s → Accepts s path → ownerOf P path = some i

/-- No root at or above the path is deeper. -/
def Deepest (P : List Planned) (volumes : List Volume) (path : Str) (d : Nat) : Prop :=
  (∃ i, RootAt P path i d) ∧ (∀ i e, RootAt P path i e → e ≤ d) ∧
    ∀ v ∈ volumes, ∀ r ∈ v.roots, pathStartsWith path r = true → depth r ≤ d

/-- Where a source holds the deepest root: one of those that do has no foreign root below a root of
its own, the others have another root above it, and the one is the last that spells the deepest root
that is spelled as paths are.  Where none does: below a root of each source there is a foreign one. -/
def Settles (P : List Planned) (volumes : List Volume) (names : List Name) : Prop :=
  let path := (absPath names).bytes
  (∀ d, Deepest P volumes path d → ∃ i, RootAt P path i d ∧
    (∀ f, ForeignAt P volumes path i f → ∀ a, RootAt P path i a → f ≤ a) ∧
    (∀ j, j ≠ i → RootAt P path j d → ∃ a < d, RootAt P path j a) ∧ LastSpelled P names i) ∧
  ((¬∃ d, Deepest P volumes path d) → ∀ i, (∃ d, RootAt P path i d) →
    ∃ f a, ForeignAt P volumes path i f ∧ RootAt P path i a ∧ a < f)

theorem deepestIsPlanned_iff (path : Str) :
    DeepestIsPlanned P volumes path ↔ ∃ d, Deepest P volumes path d := by
  unfold DeepestIsPlanned Deepest
  constructor
  · rintro ⟨s, hs, r, hr, hrp, hall⟩
    obtain ⟨i, hi⟩ := List.mem_iff_getElem?.mp hs
    refine ⟨_, ⟨i, s, hi, r, hr, hrp, rfl⟩, ?_, fun v hv q hq hqp => ?_⟩
    · rintro j e ⟨t, ht, q, hq, hqp, rfl⟩
      refine hall q (List.mem_append_left _ (List.mem_flatMap.mpr ⟨t, ?_, hq⟩)) hqp
      exact List.mem_of_getElem? ht
    · exact hall q (List.mem_append_right _ (List.mem_flatMap.mpr ⟨v, hv, hq⟩)) hqp
  · rintro ⟨d, ⟨i, s, hs, r, hr, hrp, rfl⟩, hown, hvol⟩
    refine ⟨s, List.mem_of_getElem? hs, r, hr, hrp, fun q hq hqp => ?_⟩
    rcases List.mem_append.mp hq with hq | hq
    · obtain ⟨t, ht, hq⟩ := List.mem_flatMap.mp hq
      obtain ⟨j, hj⟩ := List.mem_iff_getElem?.mp ht
      exact hown j _ ⟨t, hj, q, hq, hqp, rfl⟩
    · obtain ⟨v, hv, hq⟩ := List.mem_flatMap.mp hq
      exact hvol v hv q hq hqp

/-- Another source's root is foreign. -/
theorem foreignAt_of_rootAt {path : Str} {i j d a : Nat} (hne : i ≠ j) (hi : RootAt P path i d)
    (hj : RootAt P path j a) : ForeignAt P volumes path j d := by
  obtain ⟨s, hs, r, hr, hrp, rfl⟩ := hi
  obtain ⟨t, ht, -⟩ := hj
  exact ⟨t, ht, r, Or.inl ⟨i, s, hs, hne, hr⟩, hrp, rfl⟩

theorem ForeignAt.le {path : Str} {i f d : Nat} (h : ForeignAt P volumes path i f)
    (hd : Deepest P volumes path d) : f ≤ d := by
  obtain ⟨s, hs, k, ⟨j, t, ht, -, hk⟩ | ⟨v, hv, -, hk⟩, hkp, rfl⟩ := h
  · exact hd.2.1 j _ ⟨t, ht, k, hk, hkp, rfl⟩
  · exact hd.2.2 v hv k hk hkp

/-- The sources leave a path to one of them exactly where the roots settle it. -/
theorem Fenced.parted_iff_settles (hP : Fenced P volumes) (names : List Name) :
    Parted P volumes (absPath names).bytes ↔ Settles P volumes names := by
  have hacc : ∀ (i : Nat) (s : Planned), P[i]? = some s → (Accepts s (absPath names).bytes ↔
      (∃ d, RootAt P (absPath names).bytes i d) ∧
        ∀ f, ForeignAt P volumes (absPath names).bytes i f →
          ∀ a, RootAt P (absPath names).bytes i a → f ≤ a) := fun _ _ hs => accepts_iff hP hs
  have hsome : ∀ i d, RootAt P (absPath names).bytes i d → ∃ s, P[i]? = some s :=
    fun i d h => h.imp fun s hs => hs.1
  -- a root above the deepest keeps the source from taking the path from another that holds that
  have hnot : ∀ d i j s, RootAt P (absPath names).bytes i d → i ≠ j → P[j]? = some s →
      (∃ a < d, RootAt P (absPath names).bytes j a) → ¬Accepts s (absPath names).bytes := by
    rintro d i j s hi hij hs ⟨a, hlt, ha⟩ hacc'
    have := ((hacc j s hs).mp hacc').2 d (foreignAt_of_rootAt hij hi ha) a ha
    omega
  constructor
  · rintro ⟨hone, hsm, howner⟩
    constructor
    · intro d hd
      obtain ⟨i, ⟨s, hs, hi⟩, -⟩ := hsm.mpr ((deepestIsPlanned_iff _).mpr ⟨d, hd⟩)
      obtain ⟨⟨a, ha⟩, hle⟩ := (hacc i s hs).mp hi
      obtain ⟨k, hk⟩ := hd.1
      have hid : RootAt P (absPath names).bytes i d := by
        by_contra hno
        by_cases hki : k = i
        · exact hno (hki ▸ hk)
        · have h1 := hd.2.1 i a ha
          have h2 := hle d (foreignAt_of_rootAt hki hk ha) a ha
          exact hno ((show a = d by omega) ▸ ha)
      refine ⟨i, hid, hle, fun j hji hj => ?_, (ownerOf_iff names i).mp (howner i s hs hi)⟩
      obtain ⟨t, ht⟩ := hsome j d hj
      have hno : ¬Accepts t (absPath names).bytes := fun hj' => hji (hone j i t s ht hs hj' hi)
      rw [hacc j t ht] at hno
      push Not at hno
      obtain ⟨f, hf, b, hb, hlt⟩ := hno ⟨d, hj⟩
      have := hf.le hd
      exact ⟨b, by omega, hb⟩
    · intro hno i hroot
      obtain ⟨d, hd⟩ := hroot
      obtain ⟨s, hs⟩ := hsome i d hd
      have hi : ¬Accepts s (absPath names).bytes := by
        intro hi
        refine hno ((deepestIsPlanned_iff _).mp (hsm.mp ⟨i, ⟨s, hs, hi⟩, ?_⟩))
        rintro j ⟨t, ht, hj⟩
        exact hone j i t s ht hs hj hi
      rw [hacc i s hs] at hi
      push Not at hi
      obtain ⟨f, hf, a, ha, hlt⟩ := hi ⟨d, hd⟩
      exact ⟨f, a, hf, ha, hlt⟩
  · rintro ⟨hdeep, hnone⟩
    by_cases hd : ∃ d, Deepest P volumes (absPath names).bytes d
    · obtain ⟨d, hd⟩ := hd
      obtain ⟨i, hi, hle, hothers, hlast⟩ := hdeep d hd
      obtain ⟨s, hs⟩ := hsome i d hi
      have hown := (hacc i s hs).mpr ⟨⟨d, hi⟩, hle⟩
      have huniq : ∀ (j : Nat) (t : Planned), P[j]? = some t → Accepts t (absPath names).bytes → j = i := by
        intro j t ht hj
        by_contra hji
        refine hnot d i j t hi (Ne.symm hji) ht ?_ hj
        obtain ⟨a, ha⟩ := ((hacc j t ht).mp hj).1
        by_cases hjd : RootAt P (absPath names).bytes j d
        · exact hothers j hji hjd
        · have h1 := hd.2.1 j a ha
          have h2 : a ≠ d := by
            rintro rfl
            exact hjd ha
          exact ⟨a, by omega, ha⟩
      refine ⟨fun j k t u ht hu hj hk => ?_, ?_, fun j t ht hj => ?_⟩
      · rw [huniq j t ht hj, huniq k u hu hk]
      · rw [deepestIsPlanned_iff]
        refine iff_of_true ⟨i, ⟨s, hs, hown⟩, ?_⟩ ⟨d, hd⟩
        rintro j ⟨t, ht, hj⟩
        exact huniq j t ht hj
      · rw [huniq j t ht hj]
        exact (ownerOf_iff names i).mpr hlast
    · have hno : ∀ (j : Nat) (t : Planned), P[j]? = some t → ¬Accepts t (absPath names).bytes := by
        intro j t ht hj
        obtain ⟨hroot, hle⟩ := (hacc j t ht).mp hj
        obtain ⟨f, a, hf, ha, hlt⟩ := hnone hd j hroot
        have := hle f hf a ha
        omega
      refine ⟨fun j k t u ht _ hj _ => absurd hj (hno j t ht), ?_, fun j t ht hj =>
        absurd hj (hno j t ht)⟩
      rw [deepestIsPlanned_iff]
      refine iff_of_false ?_ hd
      rintro ⟨j, ⟨t, ht, hj⟩, -⟩
      exact hno j t ht hj

/-- Of the sources planned where nobody wrote any. -/
theorem sources_parted_iff (config : List SourceCfg) (home : Option Str) (volumes : List Volume)
    (settings : Settings) (later : List Str) (hgiven : sourcesGiven config home = false)
    (names : List Name) :
    Parted (plan config home volumes settings later).sources volumes (absPath names).bytes ↔
      Settles (plan config home volumes settings later).sources volumes names :=
  (fenced_plan volumes config home settings later hgiven).parted_iff_settles names

/-- What the configuration holds when nobody wrote a source. -/
def homeSource : SourceCfg where
  name := str "home"
  kind := .local
  roots := [str "/home/u"]
  watch := true

/-- Nothing said about any disk. -/
def Settings.unsaid : Settings := ⟨[], [], str "ask", str "ask", []⟩

/-- The home folder, on a disk of its own kind of walk, with a disk beside it that nobody chose. -/
theorem sources_parted_iff_home :
    Parted (plan [homeSource] (some (str "/home/u"))
        [⟨str "uuid:1", [str "/"], .system⟩, ⟨str "uuid:2", [str "/mnt/x"], .removable⟩] .unsaid
        []).sources [⟨str "uuid:1", [str "/"], .system⟩, ⟨str "uuid:2", [str "/mnt/x"], .removable⟩]
        (absPath [⟨str "home", by decide⟩]).bytes ↔
      Settles (plan [homeSource] (some (str "/home/u"))
        [⟨str "uuid:1", [str "/"], .system⟩, ⟨str "uuid:2", [str "/mnt/x"], .removable⟩] .unsaid
        []).sources [⟨str "uuid:1", [str "/"], .system⟩, ⟨str "uuid:2", [str "/mnt/x"], .removable⟩]
        [⟨str "home", by decide⟩] :=
  sources_parted_iff [homeSource] (some (str "/home/u")) _ .unsaid [] (by decide +kernel) _

/-- One disk mounted over another: both sources hold what is there. -/
theorem not_sources_parted : ¬ ∀ (config : List SourceCfg) (home : Option Str)
    (volumes : List Volume) (settings : Settings) (later : List Str),
    sourcesGiven config home = false →
      ∀ names : List Name, Parted (plan config home volumes settings later).sources volumes
        (absPath names).bytes := by
  intro h
  have hplan : (plan [homeSource] (some (str "/home/u"))
      [⟨str "uuid:1", [str "/mnt/x"], .fixed⟩, ⟨str "uuid:2", [str "/mnt/x"], .fixed⟩] .unsaid
      []).sources =
        [⟨⟨str "uuid:1", .local, [str "/mnt/x"], true⟩, [], false⟩,
          ⟨⟨str "uuid:2", .local, [str "/mnt/x"], true⟩, [], false⟩] := by decide +kernel
  have hparted := h [homeSource] (some (str "/home/u"))
    [⟨str "uuid:1", [str "/mnt/x"], .fixed⟩, ⟨str "uuid:2", [str "/mnt/x"], .fixed⟩] .unsaid []
    (by decide +kernel) [⟨str "mnt", by decide⟩, ⟨str "x", by decide⟩]
  rw [hplan] at hparted
  have hat : pathStartsWith (absPath [⟨str "mnt", by decide⟩, ⟨str "x", by decide⟩]).bytes
      (str "/mnt/x") = true := by decide +kernel
  have haccepts : ∀ id : Str, Accepts ⟨⟨id, .local, [str "/mnt/x"], true⟩, [], false⟩
      (absPath [⟨str "mnt", by decide⟩, ⟨str "x", by decide⟩]).bytes := by
    intro id
    exact ⟨⟨_, List.mem_cons_self, hat⟩, fun k hk => absurd hk List.not_mem_nil⟩
  exact absurd (hparted.one 0 1 _ _ rfl rfl (haccepts _) (haccepts _)) (by decide)

end Scour
