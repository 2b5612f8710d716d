import Scour.PrefixSet
import Scour.Scan

/-!
# The watcher and the walk

The walk judges an entry with its kind known, on the way down; the watcher judges a path alone.
`SameAdmission` is that the two admit the same entries of a tree, but for a directory directly inside
an allow sequence's directory, and `sameAdmission_iff` says when they do.

An allow path keeps every directory above it open (`not_closes_of_allow`); apart from that it comes
down to whether what the watcher matches anywhere in a path is what the walk meets on its way there
(`Meets`).
-/

namespace Scour

open Search

/-! ## Paths on the way to a path -/

theorem components_append_slash (l r : Str) :
    components (l ++ slash :: r) = components l ++ components r := by
  unfold components
  rw [split_append_cons, List.filter_append]

theorem components_of_name (n : Name) : components n.bytes = [n.bytes] := by
  unfold components
  rw [split_of_notMem n.ok.2.1]
  simp [n.ok.1]

theorem components_joinName (dir : Str) (n : Name) :
    components (joinName dir n.bytes) = components dir ++ [n.bytes] := by
  unfold joinName
  split
  · rename_i h
    rcases h with rfl | h
    · exact components_of_name n
    · obtain ⟨d, rfl⟩ : ∃ d, dir = d ++ [slash] := by
        rw [List.getLast?_eq_some_iff] at h
        exact h
      rw [List.append_assoc, List.singleton_append, components_append_slash, components_append_slash,
        components_of_name]
      simp [components, split]
  · rw [components_append_slash, components_of_name]

theorem pathAt_concat (root : Str) (l : List Name) (n : Name) :
    pathAt root (l ++ [n]) = joinName (pathAt root l) n.bytes := by
  simp [pathAt]

theorem components_pathAt (root : Str) (names : List Name) :
    components (pathAt root names) = components root ++ names.map (·.bytes) := by
  induction names using List.reverseRecOn with
  | nil => simp [pathAt]
  | append_singleton l n ih =>
    rw [pathAt_concat, components_joinName, ih]
    simp

theorem prefix_joinName (dir name : Str) : dir <+: joinName dir name := by
  unfold joinName
  split <;> exact List.prefix_append _ _

theorem pathAt_append (root : Str) (l m : List Name) :
    pathAt root l <+: pathAt root (l ++ m) := by
  induction m using List.reverseRecOn with
  | nil => simp
  | append_singleton m n ih =>
    rw [← List.append_assoc, pathAt_concat]
    exact ih.trans (prefix_joinName _ _)

/-- A path is its trimmed self and separators, and one separator goes with what comes below it. -/
theorem trimEnd_joinName (dir : Str) (n : Name) (h : dir ≠ []) :
    trimEnd dir ++ [slash] <+: joinName dir n.bytes := by
  obtain ⟨k, hk⟩ := PrefixSet.eq_trimEnd_append dir
  unfold joinName
  cases k with
  | zero =>
    have htrim : trimEnd dir = dir := by simpa using hk.symm
    rw [if_neg, htrim]
    · exact ⟨n.bytes, by simp⟩
    · rintro (hd | hd)
      · exact h hd
      · rw [List.getLast?_eq_some_iff] at hd
        obtain ⟨d, hd⟩ := hd
        exact (trimEnd_eq_self_iff dir).mp htrim d hd
  | succ k =>
    rw [if_pos]
    · refine List.IsPrefix.trans ?_ (List.prefix_append _ _)
      conv_rhs => rw [hk]
      exact ⟨List.replicate k slash, by simp [List.replicate_succ]⟩
    · right
      rw [hk, List.replicate_succ', ← List.append_assoc, List.getLast?_concat]

/-- What is above an entry: the path of a proper beginning of its names. -/
def Leads (q p : Str) : Prop := q <+: p ∧ (q ≠ [] → trimEnd q ++ [slash] <+: p)

theorem leads_pathAt (root : Str) {l names : List Name} (h : l <+: names) (hne : l ≠ names) :
    Leads (pathAt root l) (pathAt root names) := by
  obtain ⟨m, rfl⟩ := h
  cases m with
  | nil => exact absurd (List.append_nil l).symm hne
  | cons n t =>
    refine ⟨pathAt_append root l _, fun hn => ?_⟩
    have hstep := trimEnd_joinName (pathAt root l) n hn
    rw [← pathAt_concat] at hstep
    refine hstep.trans ?_
    have := pathAt_append root (l ++ [n]) t
    rwa [List.append_assoc] at this

theorem Leads.under {q p k : Str} (h : Leads q p) (hq : under q k = true) : under p k = true := by
  rw [under_iff] at hq ⊢
  rcases hq with hk | rfl | hb
  · exact Or.inl hk
  · by_cases hn : trimEnd k = []
    · exact Or.inl hn
    · right
      right
      have := h.2 hn
      rwa [trimEnd_trimEnd] at this
  · exact Or.inr (Or.inr (List.IsPrefix.trans hb h.1))

/-- Of two places above a path one is above the other. -/
theorem Leads.under_or {q p k : Str} (h : Leads q p) (hp : Scour.under p k = true) :
    Scour.under q k = true ∨ Scour.under k q = true := by
  obtain ⟨n, hn⟩ := PrefixSet.eq_trimEnd_append q
  rw [under_iff] at hp
  by_cases hq : q = []
  · right
    rw [hq]
    rfl
  have hqp := h.2 hq
  have hk : trimEnd k <+: k := prefix_trimEnd k
  rcases hp with hk0 | rfl | hb
  · left
    rw [under_iff]
    exact Or.inl hk0
  · right
    rw [under_iff]
    exact Or.inr (Or.inr (hqp.trans hk))
  · rcases Nat.lt_trichotomy (trimEnd q).length (trimEnd k).length with hlt | heq | hgt
    · right
      rw [under_iff]
      refine Or.inr (Or.inr (List.IsPrefix.trans ?_ hk))
      refine List.prefix_of_prefix_length_le hqp ((List.prefix_append _ _).trans hb) ?_
      simp
      omega
    · left
      have he : trimEnd q ++ [slash] = trimEnd k ++ [slash] :=
        (List.prefix_of_prefix_length_le hqp hb (by simp [heq])).eq_of_length (by simp [heq])
      rw [List.append_cancel_right_eq] at he
      rw [under_iff, ← he]
      cases n with
      | zero => exact Or.inr (Or.inl (by simpa using hn))
      | succ n =>
        refine Or.inr (Or.inr ⟨List.replicate n slash, ?_⟩)
        conv_rhs => rw [hn]
        simp [List.replicate_succ]
    · left
      rw [under_iff]
      refine Or.inr (Or.inr (List.IsPrefix.trans ?_ (prefix_trimEnd q)))
      refine List.prefix_of_prefix_length_le hb ((List.prefix_append _ _).trans hqp) ?_
      simp
      omega

/-! ## What the rules check, one part at a time -/

namespace Rules

variable (U : Unicode) (r : Rules)

def denied (path : Str) : Bool := r.deny.any (under path ·)

def hasAllow : Bool := !(r.allow.isEmpty && r.allowSeqs.isEmpty)

/-- Does a rule name this entry? -/
def caught (path name : Str) (isDir : Bool) : Bool :=
  if isDir then r.dirs.contains (U.toLowercase name) || r.seqEndsAt U path name
  else r.files.contains (U.toLowercase name)

/-- What the watcher matches in a path. -/
def watched (path : Str) : Option Bool :=
  if (components path).any fun part => r.dirs.contains (U.toLowercase part) then some true
  else
    (r.seqWithin U path).map fun within =>
      within || r.files.contains (U.toLowercase ((components path).getLast?.getD []))

/-- Does the path lie directly inside an allow sequence's directory? -/
def insideAllowSeq (path : Str) : Bool := r.allowSeqs.any fun rule => r.tailMatches U path rule 1

/-- Is the path taken back by an allow path? -/
def underAllow (path : Str) : Bool := r.allow.any (under path ·)

theorem allows_iff (path : Str) (isDir : Bool) : r.allows U path isDir = true ↔
    r.underAllow path = true ∨ r.allowSeqs.any (r.tailMatches U path · 0) = true ∨
      (isDir = false ∧ r.insideAllowSeq U path = true) := by
  unfold allows underAllow insideAllowSeq
  by_cases h1 : r.allow.any (under path ·) = true
  · simp [h1]
  · rw [if_neg h1]
    by_cases h2 : r.allowSeqs = []
    · simp [h1, h2]
    · rw [if_neg (by simpa using h2)]
      simp only [List.any_eq_true, Bool.or_eq_true, Bool.and_eq_true, Bool.not_eq_true']
      constructor
      · rintro ⟨rule, hr, h | ⟨hd, h⟩⟩
        · exact Or.inr (Or.inl ⟨rule, hr, h⟩)
        · exact Or.inr (Or.inr ⟨hd, rule, hr, h⟩)
      · rintro (h | ⟨rule, hr, h⟩ | ⟨hd, rule, hr, h⟩)
        · exact absurd (List.any_eq_true.mpr h) h1
        · exact ⟨rule, hr, Or.inl h⟩
        · exact ⟨rule, hr, Or.inr ⟨hd, h⟩⟩

theorem excludes_eq (path name : Str) (isDir : Bool) : r.excludes U path name isDir =
    if r.denied path then some true
    else if r.allows U path isDir then some false
    else if r.paths.any (under path ·) then some true
    else if r.caught U path name isDir then some true
    else if r.hasAllow then r.insideExcluded U path else some false := by
  unfold excludes denied caught hasAllow
  cases h : (r.allow.isEmpty && r.allowSeqs.isEmpty) <;> simp

theorem excludesPath_eq (path : Str) : r.excludesPath U path =
    if r.denied path then some true
    else if r.allows U path false || r.allows U path true then some false
    else if r.paths.any (under path ·) then some true
    else r.watched U path := rfl

/-- Without an exclusion nothing is excluded. -/
theorem excludes_of_isEmpty (h : r.isEmpty = true) (path name : Str) (isDir : Bool) :
    r.excludes U path name isDir = some false := by
  unfold isEmpty at h
  simp only [Bool.and_eq_true, List.isEmpty_iff] at h
  obtain ⟨⟨⟨⟨h1, h2⟩, h3⟩, h4⟩, h5⟩ := h
  rw [excludes_eq]
  have hc : r.caught U path name isDir = false := by
    unfold caught seqEndsAt
    simp [h2, h3, h4]
  have hin : r.insideExcluded U path = some false := by
    unfold insideExcluded seqWithin
    simp [h2, h3]
  simp [denied, h1, h5, hc, hin]

theorem visit_eq (path name : Str) (isDir : Bool) : r.visit U path name isDir =
    (r.excludes U path name isDir).map fun excluded =>
      if excluded then (false, isDir && r.mayContainAllowed U path) else (true, isDir) := by
  unfold visit
  cases he : r.isEmpty with
  | true =>
    rw [excludes_of_isEmpty U r he]
    rfl
  | false => cases hx : r.excludes U path name isDir <;> rfl

/-! ## On the way down -/

theorem anyM_some_true {α : Type} (f g : α → Option Bool) (l : List α)
    (h1 : ∀ a ∈ l, f a = some true → g a = some true)
    (h2 : ∀ a ∈ l, f a = some false → g a ≠ none) (h : l.anyM f = some true) :
    l.anyM g = some true := by
  induction l with
  | nil => cases h
  | cons a l ih =>
    have ih := ih (fun b hb => h1 b (List.mem_cons_of_mem _ hb))
      fun b hb => h2 b (List.mem_cons_of_mem _ hb)
    have ha1 := h1 a List.mem_cons_self
    have ha2 := h2 a List.mem_cons_self
    simp only [List.anyM_cons, Option.bind_eq_bind, Option.pure_def] at h ⊢
    cases hf : f a with
    | none =>
      rw [hf] at h
      cases h
    | some b =>
      cases b with
      | true => simp [ha1 hf]
      | false =>
        rw [hf] at h
        cases hg : g a with
        | none => exact absurd hg (ha2 hf)
        | some b =>
          cases b with
          | true => rfl
          | false => exact ih h

/-- A sequence within a path is within every path that goes on from it. -/
theorem seqWithin_mono {q p : Str} (h : components q <+: components p)
    (hq : r.seqWithin U q = some true) : r.seqWithin U p = some true := by
  unfold seqWithin at hq ⊢
  cases he : r.dirSeqs.isEmpty with
  | true =>
    rw [he] at hq
    cases hq
  | false =>
    rw [he] at hq
    simp only [Bool.false_eq_true, if_false] at hq ⊢
    have hm : (components q).map U.toLowercase <+: (components p).map U.toLowercase := h.map _
    refine anyM_some_true _ _ _ (fun rule _ hr => ?_) (fun rule _ hr => ?_) hq
    · by_cases h1 : ((components q).map U.toLowercase).length < rule.length
      · rw [if_pos h1] at hr
        cases hr
      · rw [if_neg h1] at hr
        rw [if_neg (by have := hm.length_le; omega)]
        by_cases h2 : rule.isEmpty = true
        · rw [if_pos h2] at hr
          cases hr
        · rw [if_neg h2, Option.some.injEq, any_windows] at hr
          rw [if_neg h2, Option.some.injEq, any_windows]
          exact hr.trans hm.isInfix
    · have hne : ¬rule.isEmpty = true := by
        intro h2
        rw [if_pos h2, List.isEmpty_iff.mp h2] at hr
        simp at hr
      rw [if_neg hne]
      split <;> simp

/-- What lies in an excluded directory, all below it does. -/
theorem insideExcluded_mono (root : Str) {l names : List Name} (h : l <+: names) (hne : l ≠ names)
    (hq : r.insideExcluded U (pathAt root l) = some true) :
    r.insideExcluded U (pathAt root names) = some true := by
  obtain ⟨m, rfl⟩ := h
  cases m with
  | nil => exact absurd (List.append_nil l).symm hne
  | cons n t =>
    have hcomp : components (pathAt root l) <+: (components (pathAt root (l ++ n :: t))).dropLast := by
      rw [components_pathAt, components_pathAt, List.map_append, ← List.append_assoc,
        List.dropLast_append_of_ne_nil (by simp)]
      exact List.prefix_append _ _
    unfold insideExcluded at hq ⊢
    by_cases h1 : ((components (pathAt root l)).dropLast.any fun c =>
        r.dirs.contains (U.charsLowercase c)) = true
    · rw [if_pos]
      obtain ⟨c, hc, hd⟩ := List.any_eq_true.mp h1
      refine List.any_eq_true.mpr ⟨c, hcomp.subset (List.dropLast_subset _ hc), hd⟩
    · rw [if_neg h1] at hq
      split
      · rfl
      · exact r.seqWithin_mono U (hcomp.trans (List.dropLast_prefix _)) hq

theorem denied_mono {q p : Str} (h : Leads q p) (hq : r.denied q = true) : r.denied p = true := by
  unfold denied at hq ⊢
  obtain ⟨d, hd, hu⟩ := List.any_eq_true.mp hq
  exact List.any_eq_true.mpr ⟨d, hd, h.under hu⟩

theorem paths_mono {q p : Str} (h : Leads q p) (hq : r.paths.any (under q ·) = true) :
    r.paths.any (under p ·) = true := by
  obtain ⟨d, hd, hu⟩ := List.any_eq_true.mp hq
  exact List.any_eq_true.mpr ⟨d, hd, h.under hu⟩

/-! ## When the watcher and the walk agree -/

/-- The walk and the watcher admit the same entries of the tree, but for a directory directly inside
an allow sequence's directory, which the watcher may admit besides. -/
def SameAdmission (root : Str) (below : Forest) : Prop :=
  ∃ out, r.scan U root below = some out ∧ ∀ s ∈ treeSpots below,
    ∃ b, r.excludesPath U (pathAt root s.names) = some b ∧ (s ∈ out → b = false) ∧
      (b = false → s ∈ out ∨
        (s.isDir = true ∧ r.insideAllowSeq U (pathAt root s.names) = true))

/-- Where no deny rule covers it, is the directory excluded with nothing allowed below it? -/
def Closes (path name : Str) : Prop :=
  r.allows U path true = false ∧
    (r.paths.any (under path ·) = true ∨ r.caught U path name true = true ∨
      (r.hasAllow = true ∧ r.insideExcluded U path = some true)) ∧
    r.mayContainAllowed U path = false

/-- Is a directory above the entry closed? -/
def Shut (root : Str) (names : List Name) : Prop :=
  ∃ l, l <+: names ∧ l ≠ names ∧ r.Closes U (pathAt root l) (nameAt root l)

/-- The walk does not come to the entry with `windows` to panic. -/
def Calm (root : Str) (s : Spot) : Prop :=
  let path := pathAt root s.names
  r.denied path = true ∨ r.allows U path s.isDir = true ∨ r.paths.any (under path ·) = true ∨
    r.caught U path (nameAt root s.names) s.isDir = true ∨ r.hasAllow = false ∨
    r.insideExcluded U path ≠ none ∨ r.Shut U root s.names

/-- Does the walk meet a rule that excludes the entry: its own name, where there are allow rules an
excluded directory above it, or a directory on the way that is named and keeps nothing allowed? -/
def Met (root : Str) (s : Spot) : Prop :=
  let path := pathAt root s.names
  r.caught U path (nameAt root s.names) s.isDir = true ∨
    (r.hasAllow = true ∧ r.insideExcluded U path = some true) ∨
    ∃ l, l <+: s.names ∧ l ≠ s.names ∧ r.caught U (pathAt root l) (nameAt root l) true = true ∧
      r.allows U (pathAt root l) true = false ∧ r.mayContainAllowed U (pathAt root l) = false

/-- When the two agree on an entry. -/
def Meets (root : Str) (s : Spot) : Prop :=
  let path := pathAt root s.names
  r.denied path = true ∨ (s.isDir = true ∧ r.insideAllowSeq U path = true) ∨
    if r.allows U path s.isDir = true then
      r.underAllow path = true ∨ ¬r.Shut U root s.names
    else
      r.paths.any (under path ·) = true ∨
        ∃ b, r.watched U path = some b ∧ (b = true ↔ r.Met U root s)

theorem closes_iff {path name : Str} (hd : r.denied path = false) : r.Closes U path name ↔
    r.excludes U path name true = some true ∧ r.mayContainAllowed U path = false := by
  rw [excludes_eq, hd]
  unfold Closes
  by_cases h1 : r.allows U path true = true
  · simp [h1]
  · rw [Bool.not_eq_true] at h1
    rw [h1]
    by_cases h2 : r.paths.any (under path ·) = true
    · simp [h2]
    · by_cases h3 : r.caught U path name true = true
      · simp [h3]
      · by_cases h4 : r.hasAllow = true
        · simp [h2, h3, h4]
        · simp [h2, h3, h4]

/-- Above an allowed path nothing is closed. -/
theorem not_shut_of_underAllow (root : Str) (names : List Name)
    (h : r.underAllow (pathAt root names) = true) : ¬r.Shut U root names := by
  rintro ⟨l, hl, hne, hno, -, hmay⟩
  obtain ⟨a, ha, hu⟩ := List.any_eq_true.mp h
  rcases (leads_pathAt root hl hne).under_or hu with hq | hq
  · have : r.allows U (pathAt root l) true = true :=
      (r.allows_iff U _ _).mpr (Or.inl (List.any_eq_true.mpr ⟨a, ha, hq⟩))
    rw [this] at hno
    cases hno
  · have : r.mayContainAllowed U (pathAt root l) = true := by
      unfold mayContainAllowed
      rw [if_pos (List.any_eq_true.mpr ⟨a, ha, hq⟩)]
    rw [this] at hmay
    cases hmay

/-! ## The walk, in these terms -/

theorem entered_iff (root : Str) (l : List Name) : r.Entered U root l ↔
    r.excludes U (pathAt root l) (nameAt root l) true = some false ∨
      (r.excludes U (pathAt root l) (nameAt root l) true = some true ∧
        r.mayContainAllowed U (pathAt root l) = true) := by
  unfold Entered visitAt
  rw [visit_eq]
  cases hx : r.excludes U (pathAt root l) (nameAt root l) true with
  | none => simp
  | some b => cases b <;> simp

theorem reported_iff (root : Str) (s : Spot) : (∃ b, r.visitAt U root s = some (true, b)) ↔
    r.excludes U (pathAt root s.names) (nameAt root s.names) s.isDir = some false := by
  unfold visitAt
  rw [visit_eq]
  cases hx : r.excludes U (pathAt root s.names) (nameAt root s.names) s.isDir with
  | none => simp
  | some b => cases b <;> simp

theorem visitAt_ne_none_iff (root : Str) (s : Spot) : r.visitAt U root s ≠ none ↔
    r.excludes U (pathAt root s.names) (nameAt root s.names) s.isDir ≠ none := by
  unfold visitAt
  rw [visit_eq]
  simp

/-- What leads to an entry of a tree is a directory of it. -/
theorem mem_spots_of_leading (f : Forest) : ∀ (at_ : List Name) (s : Spot), s ∈ f.spots at_ →
    ∀ l, l <+: s.names → l ≠ s.names → at_.length < l.length → (⟨l, true⟩ : Spot) ∈ f.spots at_ := by
  induction f with
  | nil =>
    intro at_ s hs
    cases hs
  | file n rest ih =>
    intro at_ s hs l hl hne hlen
    rcases List.mem_cons.mp hs with rfl | hs
    · refine absurd (hl.eq_of_length_le ?_) hne
      simp
      omega
    · exact List.mem_cons_of_mem _ (ih at_ s hs l hl hne hlen)
  | dir n below rest ihb ihr =>
    intro at_ s hs l hl hne hlen
    rcases List.mem_cons.mp hs with rfl | hs
    · refine absurd (hl.eq_of_length_le ?_) hne
      simp
      omega
    · rcases List.mem_append.mp hs with hs | hs
      · by_cases hlen' : at_.length + 1 < l.length
        · exact List.mem_cons_of_mem _ (List.mem_append_left _
            (ihb _ s hs l hl hne (by simpa using hlen')))
        · obtain ⟨m, t, hm⟩ := names_of_mem_spots below _ s hs
          have : l = at_ ++ [n] := by
            rw [hm] at hl
            exact (List.prefix_of_prefix_length_le hl (List.prefix_append _ _)
              (by simp; omega)).eq_of_length (by simp; omega)
          rw [this]
          exact List.mem_cons_self
      · exact List.mem_cons_of_mem _ (List.mem_append_right _ (ihr at_ s hs l hl hne hlen))

theorem mem_treeSpots_of_leading (below : Forest) {s : Spot} (hs : s ∈ treeSpots below)
    {l : List Name} (hl : l <+: s.names) (hne : l ≠ s.names) :
    (⟨l, true⟩ : Spot) ∈ treeSpots below := by
  rcases List.mem_cons.mp hs with rfl | hs
  · exact absurd (List.prefix_nil.mp hl) hne
  · cases l with
    | nil => exact List.mem_cons_self
    | cons a l =>
      exact List.mem_cons_of_mem _ (mem_spots_of_leading below [] s hs _ hl hne (by simp))

/-- When the walk does not panic, it comes to an entry unless a directory above it is closed. -/
theorem reached_iff (root : Str) (below : Forest) (hscan : (r.scan U root below).isSome = true)
    {s : Spot} (hs : s ∈ treeSpots below) (hd : r.denied (pathAt root s.names) = false) :
    r.Reached U root 0 s.names ↔ ¬r.Shut U root s.names := by
  rw [scan_isSome] at hscan
  have hdl : ∀ l, l <+: s.names → l ≠ s.names → r.denied (pathAt root l) = false := by
    intro l hl hne
    by_contra h
    rw [r.denied_mono (leads_pathAt root hl hne) (by simpa using h)] at hd
    cases hd
  constructor
  · rintro h ⟨l, hl, hne, hc⟩
    rw [closes_iff U r (hdl l hl hne)] at hc
    rcases (r.entered_iff U root l).mp (h l hl hne (Nat.zero_le _)) with he | ⟨-, he⟩
    · rw [hc.1] at he
      cases he
    · rw [hc.2] at he
      cases he
  · intro hno
    -- from the root down: the walk comes to each of the directories, and goes into it
    have hdown : ∀ k l, l.length = k → l <+: s.names → l ≠ s.names → r.Entered U root l := by
      intro k
      induction k using Nat.strong_induction_on with
      | _ k ih =>
        intro l hk hl hne
        have hr : r.Reached U root 0 l := by
          intro m hm hmne _
          have hlt : m.length < l.length := by
            have := hm.length_le
            rcases Nat.lt_or_ge m.length l.length with h | h
            · exact h
            · exact absurd (hm.eq_of_length_le h) hmne
          refine ih m.length (by omega) m rfl (hm.trans hl) fun he => ?_
          have := hl.length_le
          rw [← he] at this
          omega
        have hvis := hscan ⟨l, true⟩ (mem_treeSpots_of_leading below hs hl hne) hr
        rw [visitAt_ne_none_iff] at hvis
        rw [entered_iff]
        cases hx : r.excludes U (pathAt root l) (nameAt root l) true with
        | none => exact absurd hx hvis
        | some b =>
          cases b with
          | false => exact Or.inl rfl
          | true =>
            right
            refine ⟨rfl, ?_⟩
            by_contra hmay
            exact hno ⟨l, hl, hne, (r.closes_iff U (hdl l hl hne)).mpr
              ⟨hx, by simpa using hmay⟩⟩
    exact fun l hl hne _ => hdown l.length l rfl hl hne

/-- When the rules panic on an entry. -/
theorem excludes_eq_none_iff (path name : Str) (isDir : Bool) :
    r.excludes U path name isDir = none ↔ r.denied path = false ∧
      r.allows U path isDir = false ∧ r.paths.any (under path ·) = false ∧
      r.caught U path name isDir = false ∧ r.hasAllow = true ∧ r.insideExcluded U path = none := by
  rw [excludes_eq]
  cases r.denied path <;> cases r.allows U path isDir <;> cases r.paths.any (under path ·) <;>
    cases r.caught U path name isDir <;> cases r.hasAllow <;> simp

theorem scan_isSome_iff (root : Str) (below : Forest) :
    (r.scan U root below).isSome = true ↔ ∀ s ∈ treeSpots below, r.Calm U root s := by
  constructor
  · intro hscan s hs
    unfold Calm
    by_contra hno
    simp only [not_or, Bool.not_eq_true, Bool.not_eq_false, not_not] at hno
    obtain ⟨h1, h2, h3, h4, h5, h6, h7⟩ := hno
    have hr := (r.reached_iff U root below hscan hs h1).mpr h7
    rw [scan_isSome] at hscan
    have := hscan s hs hr
    rw [visitAt_ne_none_iff] at this
    exact this ((r.excludes_eq_none_iff U _ _ _).mpr ⟨h1, h2, h3, h4, h5, h6⟩)
  · intro h
    rw [scan_isSome]
    intro s hs hr
    rw [visitAt_ne_none_iff]
    intro hx
    obtain ⟨h1, h2, h3, h4, h5, h6⟩ := (r.excludes_eq_none_iff U _ _ _).mp hx
    rcases h s hs with hc | hc | hc | hc | hc | hc | ⟨l, hl, hne, hc⟩
    · rw [h1] at hc
      cases hc
    · rw [h2] at hc
      cases hc
    · rw [h3] at hc
      cases hc
    · rw [h4] at hc
      cases hc
    · rw [h5] at hc
      cases hc
    · exact hc h6
    · have hdl : r.denied (pathAt root l) = false := by
        by_contra hd
        rw [r.denied_mono (leads_pathAt root hl hne) (by simpa using hd)] at h1
        cases h1
      rw [closes_iff U r hdl] at hc
      rcases (r.entered_iff U root l).mp (hr l hl hne (Nat.zero_le _)) with he | ⟨-, he⟩
      · rw [hc.1] at he
        cases he
      · rw [hc.2] at he
        cases he

/-- What the walk meets is what keeps it from reporting an entry that is neither allowed nor under
an excluded path. -/
theorem met_iff (root : Str) {s : Spot} (h2 : r.allows U (pathAt root s.names) s.isDir = false)
    (h1 : r.denied (pathAt root s.names) = false)
    (h3 : r.paths.any (under (pathAt root s.names) ·) = false) (hcalm : r.Calm U root s) :
    r.Met U root s ↔ ¬(¬r.Shut U root s.names ∧
      r.excludes U (pathAt root s.names) (nameAt root s.names) s.isDir = some false) := by
  have hex := r.excludes_eq U (pathAt root s.names) (nameAt root s.names) s.isDir
  rw [h1, h2, h3] at hex
  simp only [Bool.false_eq_true, if_false] at hex
  constructor
  · rintro (hc | ⟨ha, hi⟩ | ⟨l, hl, hne, hc, hal, hmay⟩) ⟨hshut, hx⟩
    · rw [hex, if_pos hc] at hx
      cases hx
    · rw [hex, if_pos ha, hi] at hx
      split at hx <;> cases hx
    · exact hshut ⟨l, hl, hne, hal, Or.inr (Or.inl hc), hmay⟩
  · intro hno
    by_cases hc : r.caught U (pathAt root s.names) (nameAt root s.names) s.isDir = true
    · exact Or.inl hc
    by_cases hshut : r.Shut U root s.names
    · obtain ⟨l, hl, hne, hal, hwhy, hmay⟩ := hshut
      rcases hwhy with hp | hc' | ⟨ha, hi⟩
      · rw [r.paths_mono (leads_pathAt root hl hne) hp] at h3
        cases h3
      · exact Or.inr (Or.inr ⟨l, hl, hne, hc', hal, hmay⟩)
      · exact Or.inr (Or.inl ⟨ha, r.insideExcluded_mono U root hl hne hi⟩)
    · rw [hex, if_neg hc] at hno
      by_cases ha : r.hasAllow = true
      · rw [if_pos ha] at hno
        right
        left
        refine ⟨ha, ?_⟩
        cases hi : r.insideExcluded U (pathAt root s.names) with
        | none =>
          exfalso
          rcases hcalm with h | h | h | h | h | h | h
          · rw [h1] at h
            cases h
          · rw [h2] at h
            cases h
          · rw [h3] at h
            cases h
          · exact hc h
          · rw [ha] at h
            cases h
          · exact h hi
          · exact hshut h
        | some b =>
          cases b with
          | true => rfl
          | false => exact absurd ⟨hshut, hi⟩ hno
      · rw [if_neg ha] at hno
        exact absurd ⟨hshut, rfl⟩ hno

/-- For one entry: the walk and the watcher agree exactly when the condition holds of it. -/
theorem meets_iff (root : Str) (below : Forest) {out : List Spot}
    (hout : r.scan U root below = some out) {s : Spot} (hs : s ∈ treeSpots below) :
    r.Meets U root s ↔ ∃ b, r.excludesPath U (pathAt root s.names) = some b ∧
      (s ∈ out → b = false) ∧ (b = false → s ∈ out ∨
        (s.isDir = true ∧ r.insideAllowSeq U (pathAt root s.names) = true)) := by
  have hscan : (r.scan U root below).isSome = true := by rw [hout]; rfl
  have hmem : s ∈ out ↔ r.Reached U root 0 s.names ∧
      r.excludes U (pathAt root s.names) (nameAt root s.names) s.isDir = some false := by
    rw [scan_spec U r root below out hout, reported_iff]
    exact ⟨fun h => h.2, fun h => ⟨hs, h⟩⟩
  have hpath := r.excludesPath_eq U (pathAt root s.names)
  have hx := r.excludes_eq U (pathAt root s.names) (nameAt root s.names) s.isDir
  unfold Meets
  simp only
  by_cases h1 : r.denied (pathAt root s.names) = true
  · rw [if_pos h1] at hpath hx
    refine ⟨fun _ => ⟨true, hpath, fun h => ?_, fun h => by cases h⟩, fun _ => Or.inl h1⟩
    rw [hmem, hx] at h
    cases h.2
  rw [if_neg h1] at hpath hx
  rw [Bool.not_eq_true] at h1
  by_cases hexc : s.isDir = true ∧ r.insideAllowSeq U (pathAt root s.names) = true
  · -- the documented exception: the watcher admits it
    have hal : r.allows U (pathAt root s.names) false = true :=
      (r.allows_iff U _ _).mpr (Or.inr (Or.inr ⟨rfl, hexc.2⟩))
    rw [if_pos (by rw [hal]; rfl)] at hpath
    exact ⟨fun _ => ⟨false, hpath, fun _ => rfl, fun _ => Or.inr hexc⟩, fun _ => Or.inr (Or.inl hexc)⟩
  have hor : ∀ P : Prop, (r.denied (pathAt root s.names) = true ∨
      (s.isDir = true ∧ r.insideAllowSeq U (pathAt root s.names) = true) ∨ P) ↔ P := by
    intro P
    rw [h1]
    simp only [Bool.false_eq_true, false_or]
    exact or_iff_right hexc
  rw [hor, hmem, r.reached_iff U root below hscan hs h1]
  by_cases h2 : r.allows U (pathAt root s.names) s.isDir = true
  · -- allowed: admitted by the watcher, and by the walk where nothing above it is closed
    rw [if_pos h2]
    have hal : (r.allows U (pathAt root s.names) false || r.allows U (pathAt root s.names) true) =
        true := by
      cases hd : s.isDir <;> rw [hd] at h2 <;> simp [h2]
    rw [if_pos hal] at hpath
    rw [if_pos h2] at hx
    constructor
    · intro h
      refine ⟨false, hpath, fun _ => rfl, fun _ => Or.inl ⟨?_, hx⟩⟩
      rcases h with h | h
      · exact r.not_shut_of_underAllow U root s.names h
      · exact h
    · rintro ⟨b, hb, -, h⟩
      rw [hpath, Option.some.injEq] at hb
      exact Or.inr (((h hb.symm).resolve_right hexc).1)
  · rw [if_neg h2]
    rw [Bool.not_eq_true] at h2
    have hal : (r.allows U (pathAt root s.names) false || r.allows U (pathAt root s.names) true) =
        false := by
      have hno : ∀ d, r.allows U (pathAt root s.names) d = false := by
        intro d
        by_contra h
        rw [Bool.not_eq_false, allows_iff] at h
        have hd : ¬r.allows U (pathAt root s.names) s.isDir = true := by
          rw [h2]
          exact Bool.noConfusion
        rw [allows_iff] at hd
        rcases h with h | h | ⟨-, h⟩
        · exact hd (Or.inl h)
        · exact hd (Or.inr (Or.inl h))
        · cases hs : s.isDir with
          | true => exact hexc ⟨hs, h⟩
          | false => exact hd (Or.inr (Or.inr ⟨hs, h⟩))
      rw [hno, hno]
      rfl
    rw [if_neg (by rw [hal]; exact Bool.noConfusion)] at hpath
    rw [if_neg (by rw [h2]; exact Bool.noConfusion)] at hx
    by_cases h3 : r.paths.any (under (pathAt root s.names) ·) = true
    · rw [if_pos h3] at hpath hx
      refine ⟨fun _ => ⟨true, hpath, fun h => ?_, fun h => by cases h⟩, fun _ => Or.inl h3⟩
      rw [hx] at h
      cases h.2
    · rw [if_neg h3] at hpath
      rw [hpath]
      have hmet := r.met_iff U root h2 h1 (by simpa using h3) ((r.scan_isSome_iff U root below).mp hscan s hs)
      constructor
      · rintro (h | ⟨b, hb, hiff⟩)
        · exact absurd h h3
        · refine ⟨b, hb, fun h => ?_, fun h => Or.inl ?_⟩
          · by_contra hbt
            exact (hmet.mp (hiff.mp (by simpa using hbt))) h
          · by_contra hno
            rw [hiff.mpr (hmet.mpr hno)] at h
            cases h
      · rintro ⟨b, hb, hw, hf⟩
        refine Or.inr ⟨b, hb, ?_⟩
        rw [hmet]
        constructor
        · intro ht h
          rw [hw h] at ht
          cases ht
        · intro hno
          by_contra hbf
          exact hno ((hf (by simpa using hbf)).resolve_right hexc)

end Rules

/-- The walk and the watcher admit the same entries exactly when the walk comes to no sequence rule
that panics and every entry meets the condition. -/
theorem sameAdmission_iff (U : Unicode) (opts : ScanOptions) (root : Str) (below : Forest) :
    (Rules.fromOptions U opts).SameAdmission U root below ↔
      ∀ s ∈ treeSpots below, (Rules.fromOptions U opts).Calm U root s ∧
        (Rules.fromOptions U opts).Meets U root s := by
  constructor
  · rintro ⟨out, hout, h⟩ s hs
    refine ⟨(Rules.scan_isSome_iff U _ root below).mp (by rw [hout]; rfl) s hs, ?_⟩
    exact (Rules.meets_iff U _ root below hout hs).mpr (h s hs)
  · intro h
    obtain ⟨out, hout⟩ := Option.isSome_iff_exists.mp
      ((Rules.scan_isSome_iff U _ root below).mpr fun s hs => (h s hs).1)
    exact ⟨out, hout, fun s hs => (Rules.meets_iff U _ root below hout hs).mp (h s hs).2⟩

/-- The walk indexes a file that is named like an excluded directory, and the watcher refuses it. -/
theorem not_sameAdmission : ¬ ∀ (U : Unicode) (opts : ScanOptions) (root : Str) (below : Forest),
    (Rules.fromOptions U opts).SameAdmission U root below := by
  intro h
  have hscan : (Rules.fromOptions .asciiOnly { excludeDirs := [str "target"] }).scan .asciiOnly
      (str "/w") (.file ⟨str "target", by decide⟩ .nil) =
      some [⟨[], true⟩, ⟨[⟨str "target", by decide⟩], false⟩] := by decide +kernel
  have hpath : (Rules.fromOptions .asciiOnly { excludeDirs := [str "target"] }).excludesPath .asciiOnly
      (pathAt (str "/w") [⟨str "target", by decide⟩]) = some true := by decide +kernel
  obtain ⟨out, hout, hall⟩ := h .asciiOnly { excludeDirs := [str "target"] } (str "/w")
    (.file ⟨str "target", by decide⟩ .nil)
  rw [hscan, Option.some.injEq] at hout
  obtain ⟨b, hb, hw, -⟩ := hall ⟨[⟨str "target", by decide⟩], false⟩ (by simp [treeSpots, Forest.spots])
  rw [hpath, Option.some.injEq] at hb
  rw [← hb] at hw
  exact Bool.noConfusion (hw (by rw [← hout]; simp))

end Scour
