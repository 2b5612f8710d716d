import Scour.Rules

/-!
# The walk of a source

`scan` is the traversal of `FsSource::scan`: an entry the rules exclude is not reported, and an
excluded directory is not gone into unless something allowed may lie below it.  An entry is the list
of names that leads to it from the root (`Spot`), and its path is spelled from there (`pathAt`).  A
panic of the rules takes the walk down.

What is reported is what is not excluded and lies in directories that are all gone into
(`scan_spec`); the walk panics exactly when the rules panic on an entry it comes to (`scan_isSome`).
-/

namespace Scour

/-- A name in a directory. -/
structure Name where
  bytes : Str
  ok : bytes ≠ [] ∧ slash ∉ bytes ∧ bytes ≠ str "." ∧ bytes ≠ str ".."
deriving DecidableEq

/-- What lies in a directory: a first entry, and the rest. -/
inductive Forest where
  | nil
  | file (name : Name) (rest : Forest)
  | dir (name : Name) (below rest : Forest)
deriving DecidableEq

/-- An entry of a tree: the names that lead to it from the root, and its kind. -/
structure Spot where
  names : List Name
  isDir : Bool
deriving DecidableEq

/-- The entries of a directory, and of those below it. -/
def Forest.spots (at_ : List Name) : Forest → List Spot
  | .nil => []
  | .file n rest => ⟨at_ ++ [n], false⟩ :: rest.spots at_
  | .dir n below rest => ⟨at_ ++ [n], true⟩ :: (below.spots (at_ ++ [n]) ++ rest.spots at_)

/-- The root and all below it. -/
def treeSpots (below : Forest) : List Spot := ⟨[], true⟩ :: below.spots []

/-- `Path::join`. -/
def joinName (dir name : Str) : Str :=
  if dir = [] ∨ dir.getLast? = some slash then dir ++ name else dir ++ slash :: name

def pathAt (root : Str) (names : List Name) : Str :=
  names.foldl (fun p n => joinName p n.bytes) root

/-- The name of a root: its last component, or the whole of it where it ends in none. -/
def fileName (root : Str) : Str :=
  match ((components root).filter (· ≠ str ".")).getLast? with
  | some c => if c = str ".." then root else c
  | none => root

def nameAt (root : Str) (names : List Name) : Str := (names.getLast?.map (·.bytes)).getD (fileName root)

namespace Rules

def isEmpty (r : Rules) : Bool :=
  r.paths.isEmpty && r.dirs.isEmpty && r.dirSeqs.isEmpty && r.files.isEmpty && r.deny.isEmpty

variable (U : Unicode) (r : Rules)

/-- What the visitor does with an entry: is it reported, and is it gone into? -/
def visit (path name : Str) (isDir : Bool) : Option (Bool × Bool) := do
  let excluded ← bif r.isEmpty then some false else r.excludes U path name isDir
  -- prune, unless an allowed subtree lies below it
  some (if excluded then (false, isDir && r.mayContainAllowed U path) else (true, isDir))

def scanForest (root : Str) (at_ : List Name) : Forest → Option (List Spot)
  | .nil => some []
  | .file n rest => do
      let v ← r.visit U (pathAt root (at_ ++ [n])) n.bytes false
      let others ← scanForest root at_ rest
      some ((if v.1 then [⟨at_ ++ [n], false⟩] else []) ++ others)
  | .dir n below rest => do
      let v ← r.visit U (pathAt root (at_ ++ [n])) n.bytes true
      let inside ← bif v.2 then scanForest root (at_ ++ [n]) below else some []
      let others ← scanForest root at_ rest
      some ((if v.1 then [⟨at_ ++ [n], true⟩] else []) ++ inside ++ others)

def scan (root : Str) (below : Forest) : Option (List Spot) := do
  let v ← r.visit U root (fileName root) true
  let inside ← bif v.2 then scanForest U r root [] below else some []
  some ((if v.1 then [⟨[], true⟩] else []) ++ inside)

/-! ## What a walk reports -/

/-- What the visitor does at an entry. -/
def visitAt (root : Str) (s : Spot) : Option (Bool × Bool) :=
  r.visit U (pathAt root s.names) (nameAt root s.names) s.isDir

/-- Is the directory gone into? -/
def Entered (root : Str) (names : List Name) : Prop :=
  ∃ b, r.visitAt U root ⟨names, true⟩ = some (b, true)

/-- Are the directories above the entry, those with more than `k` names, gone into? -/
def Reached (root : Str) (k : Nat) (names : List Name) : Prop :=
  ∀ l, l <+: names → l ≠ names → k ≤ l.length → r.Entered U root l

theorem names_of_mem_spots (f : Forest) : ∀ (at_ : List Name) (s : Spot), s ∈ f.spots at_ →
    ∃ n l, s.names = at_ ++ n :: l := by
  induction f with
  | nil =>
    intro at_ s hs
    cases hs
  | file n rest ih =>
    intro at_ s hs
    rcases List.mem_cons.mp hs with rfl | hs
    · exact ⟨n, [], rfl⟩
    · exact ih at_ s hs
  | dir n below rest ihb ihr =>
    intro at_ s hs
    rcases List.mem_cons.mp hs with rfl | hs
    · exact ⟨n, [], rfl⟩
    · rcases List.mem_append.mp hs with hs | hs
      · obtain ⟨m, l, h⟩ := ihb _ s hs
        exact ⟨n, m :: l, by rw [h]; simp⟩
      · exact ihr at_ s hs

/-- Directly in the directory the walk is at, nothing lies between. -/
theorem reached_concat (root : Str) (at_ : List Name) (n : Name) :
    r.Reached U root (at_.length + 1) (at_ ++ [n]) := by
  intro l hl hne hk
  refine absurd (hl.eq_of_length_le ?_) hne
  rw [List.length_append]
  exact hk

/-- Further down, the first directory below comes between, and what is between it and the entry. -/
theorem reached_cons (root : Str) (at_ : List Name) (n m : Name) (t : List Name) :
    r.Reached U root (at_.length + 1) (at_ ++ [n] ++ m :: t) ↔
      r.Entered U root (at_ ++ [n]) ∧
        r.Reached U root ((at_ ++ [n]).length + 1) (at_ ++ [n] ++ m :: t) := by
  constructor
  · intro h
    refine ⟨h _ (List.prefix_append _ _) ?_ (by simp), fun l hl hne hk => h l hl hne ?_⟩
    · intro he
      simpa using congrArg List.length he
    · rw [List.length_append] at hk
      omega
  · rintro ⟨h1, h2⟩ l hl hne hk
    by_cases hlen : l.length = at_.length + 1
    · have : l = at_ ++ [n] := by
        refine List.IsPrefix.eq_of_length ?_ (by simp [hlen])
        exact List.prefix_of_prefix_length_le hl (List.prefix_append _ _) (by simp [hlen])
      rwa [this]
    · exact h2 l hl hne (by simp; omega)

theorem visitAt_concat (root : Str) (at_ : List Name) (n : Name) (d : Bool) :
    r.visitAt U root ⟨at_ ++ [n], d⟩ = r.visit U (pathAt root (at_ ++ [n])) n.bytes d := by
  simp [visitAt, nameAt]

/-- The walk goes on exactly when the rules panic on no entry it comes to. -/
theorem scanForest_isSome (root : Str) (f : Forest) : ∀ at_ : List Name,
    (r.scanForest U root at_ f).isSome = true ↔
      ∀ s ∈ f.spots at_, r.Reached U root (at_.length + 1) s.names → r.visitAt U root s ≠ none := by
  induction f with
  | nil => simp [scanForest, Forest.spots]
  | file n rest ih =>
    intro at_
    rw [scanForest, Forest.spots, List.forall_mem_cons, ← ih at_, visitAt_concat]
    simp only [reached_concat, forall_const]
    cases hv : r.visit U (pathAt root (at_ ++ [n])) n.bytes false with
    | none => simp
    | some v => cases hr : r.scanForest U root at_ rest <;> simp
  | dir n below rest ihb ihr =>
    intro at_
    rw [scanForest, Forest.spots, List.forall_mem_cons, List.forall_mem_append, ← ihr at_,
      visitAt_concat]
    simp only [reached_concat, forall_const]
    have hbelow : (∀ s ∈ below.spots (at_ ++ [n]),
        r.Reached U root (at_.length + 1) s.names → r.visitAt U root s ≠ none) ↔
        (r.Entered U root (at_ ++ [n]) → (r.scanForest U root (at_ ++ [n]) below).isSome = true) := by
      rw [ihb (at_ ++ [n])]
      constructor
      · intro h he s hs hr
        obtain ⟨m, t, hm⟩ := names_of_mem_spots below _ s hs
        exact h s hs (by rw [hm] at hr ⊢; exact (r.reached_cons U root at_ n m t).mpr ⟨he, hr⟩)
      · intro h s hs hr
        obtain ⟨m, t, hm⟩ := names_of_mem_spots below _ s hs
        rw [hm] at hr
        obtain ⟨he, hr⟩ := (r.reached_cons U root at_ n m t).mp hr
        exact h he s hs (by rw [hm]; exact hr)
    rw [hbelow]
    unfold Entered
    rw [visitAt_concat]
    cases hv : r.visit U (pathAt root (at_ ++ [n])) n.bytes true with
    | none => simp
    | some v =>
      obtain ⟨rep, ent⟩ := v
      cases ent with
      | false => cases hr : r.scanForest U root at_ rest <;> simp
      | true =>
        cases hb : r.scanForest U root (at_ ++ [n]) below <;>
          cases hr : r.scanForest U root at_ rest <;> simp

/-- What the visitor reports of the entry it is at. -/
theorem mem_self (root : Str) {at_ : List Name} {n : Name} {d : Bool} {v : Bool × Bool}
    (hv : r.visit U (pathAt root (at_ ++ [n])) n.bytes d = some v) (s : Spot) :
    s ∈ (if v.1 then [(⟨at_ ++ [n], d⟩ : Spot)] else []) ↔
      s = ⟨at_ ++ [n], d⟩ ∧ r.Reached U root (at_.length + 1) s.names ∧
        ∃ b, r.visitAt U root s = some (true, b) := by
  constructor
  · intro hs
    split at hs
    · rename_i hv1
      rw [List.mem_singleton] at hs
      subst hs
      refine ⟨rfl, r.reached_concat U root at_ n, v.2, ?_⟩
      rw [visitAt_concat, hv, ← hv1]
    · cases hs
  · rintro ⟨rfl, -, b, hb⟩
    rw [visitAt_concat, hv, Option.some.injEq] at hb
    rw [hb]
    exact List.mem_singleton.mpr rfl

/-- What is reported: the entries that are, of those come to. -/
theorem scanForest_spec (root : Str) (f : Forest) : ∀ (at_ : List Name) (out : List Spot),
    r.scanForest U root at_ f = some out → ∀ s, s ∈ out ↔
      s ∈ f.spots at_ ∧ r.Reached U root (at_.length + 1) s.names ∧
        ∃ b, r.visitAt U root s = some (true, b) := by
  induction f with
  | nil =>
    intro at_ out h s
    obtain rfl := Option.some.inj h
    simp [Forest.spots]
  | file n rest ih =>
    intro at_ out h s
    simp only [scanForest, Option.bind_eq_bind, Option.bind_eq_some_iff, Option.some.injEq] at h
    obtain ⟨v, hv, others, ho, rfl⟩ := h
    rw [List.mem_append, Forest.spots, List.mem_cons, ih at_ others ho s, mem_self U r root hv]
    constructor
    · rintro (⟨h1, h2⟩ | ⟨h1, h2⟩)
      · exact ⟨Or.inl h1, h2⟩
      · exact ⟨Or.inr h1, h2⟩
    · rintro ⟨h1 | h1, h2⟩
      · exact Or.inl ⟨h1, h2⟩
      · exact Or.inr ⟨h1, h2⟩
  | dir n below rest ihb ihr =>
    intro at_ out h s
    simp only [scanForest, Option.bind_eq_bind, Option.bind_eq_some_iff, Option.some.injEq] at h
    obtain ⟨v, hv, inside, hi, others, ho, rfl⟩ := h
    have hbelow : s ∈ inside ↔ s ∈ below.spots (at_ ++ [n]) ∧
        r.Reached U root (at_.length + 1) s.names ∧ ∃ b, r.visitAt U root s = some (true, b) := by
      have hent : r.Entered U root (at_ ++ [n]) ↔ v.2 = true := by
        unfold Entered
        rw [visitAt_concat, hv]
        constructor
        · rintro ⟨b, hb⟩
          rw [Option.some.inj hb]
        · intro hv2
          exact ⟨v.1, by rw [← hv2]⟩
      have hreach : s ∈ below.spots (at_ ++ [n]) → (r.Reached U root (at_.length + 1) s.names ↔
          v.2 = true ∧ r.Reached U root ((at_ ++ [n]).length + 1) s.names) := by
        intro hs
        obtain ⟨m, t, hm⟩ := names_of_mem_spots below _ s hs
        rw [hm, reached_cons, hent]
      cases hv2 : v.2 with
      | false =>
        rw [hv2] at hi hreach
        obtain rfl := Option.some.inj hi
        constructor
        · intro hs
          cases hs
        · rintro ⟨hs, hr, -⟩
          cases ((hreach hs).mp hr).1
      | true =>
        rw [hv2] at hi hreach
        rw [ihb _ inside hi s]
        constructor
        · rintro ⟨hs, hr, hb⟩
          exact ⟨hs, (hreach hs).mpr ⟨rfl, hr⟩, hb⟩
        · rintro ⟨hs, hr, hb⟩
          exact ⟨hs, ((hreach hs).mp hr).2, hb⟩
    rw [List.mem_append, List.mem_append, Forest.spots, List.mem_cons, List.mem_append,
      ihr at_ others ho s, hbelow, mem_self U r root hv]
    constructor
    · rintro ((⟨h1, h2⟩ | ⟨h1, h2⟩) | ⟨h1, h2⟩)
      · exact ⟨Or.inl h1, h2⟩
      · exact ⟨Or.inr (Or.inl h1), h2⟩
      · exact ⟨Or.inr (Or.inr h1), h2⟩
    · rintro ⟨h1 | h1 | h1, h2⟩
      · exact Or.inl (Or.inl ⟨h1, h2⟩)
      · exact Or.inl (Or.inr ⟨h1, h2⟩)
      · exact Or.inr ⟨h1, h2⟩

theorem reached_nil (root : Str) : r.Reached U root 0 [] := by
  intro l hl hne
  exact absurd (List.prefix_nil.mp hl) hne

theorem reached_root (root : Str) (n : Name) (t : List Name) :
    r.Reached U root 0 (n :: t) ↔ r.Entered U root [] ∧ r.Reached U root 1 (n :: t) := by
  constructor
  · intro h
    exact ⟨h [] List.nil_prefix (by simp) (le_refl _), fun l hl hne _ => h l hl hne (Nat.zero_le _)⟩
  · rintro ⟨h1, h2⟩ l hl hne -
    cases l with
    | nil => exact h1
    | cons a l => exact h2 _ hl hne (by simp)

theorem visitAt_root (root : Str) :
    r.visitAt U root ⟨[], true⟩ = r.visit U root (fileName root) true := rfl

/-- The walk of a whole tree panics exactly when the rules panic on an entry it comes to. -/
theorem scan_isSome (root : Str) (below : Forest) : (r.scan U root below).isSome = true ↔
    ∀ s ∈ treeSpots below, r.Reached U root 0 s.names → r.visitAt U root s ≠ none := by
  rw [scan, treeSpots, List.forall_mem_cons, visitAt_root]
  simp only [reached_nil, forall_const]
  have hbelow : (∀ s ∈ below.spots [], r.Reached U root 0 s.names → r.visitAt U root s ≠ none) ↔
      (r.Entered U root [] → (r.scanForest U root [] below).isSome = true) := by
    rw [scanForest_isSome]
    constructor
    · intro h he s hs hr
      obtain ⟨m, t, hm⟩ := names_of_mem_spots below _ s hs
      exact h s hs (by rw [hm] at hr ⊢; exact (r.reached_root U root m t).mpr ⟨he, hr⟩)
    · intro h s hs hr
      obtain ⟨m, t, hm⟩ := names_of_mem_spots below _ s hs
      rw [hm] at hr
      obtain ⟨he, hr⟩ := (r.reached_root U root m t).mp hr
      exact h he s hs (by rw [hm]; exact hr)
  rw [hbelow]
  unfold Entered
  rw [visitAt_root]
  cases hv : r.visit U root (fileName root) true with
  | none => simp
  | some v =>
    obtain ⟨rep, ent⟩ := v
    cases ent with
    | false => simp
    | true => cases hb : r.scanForest U root [] below <;> simp

/-- What a walk reports: the entries that are, of those come to. -/
theorem scan_spec (root : Str) (below : Forest) (out : List Spot)
    (h : r.scan U root below = some out) (s : Spot) : s ∈ out ↔
      s ∈ treeSpots below ∧ r.Reached U root 0 s.names ∧
        ∃ b, r.visitAt U root s = some (true, b) := by
  simp only [scan, Option.bind_eq_bind, Option.bind_eq_some_iff, Option.some.injEq] at h
  obtain ⟨v, hv, inside, hi, rfl⟩ := h
  have hent : r.Entered U root [] ↔ v.2 = true := by
    unfold Entered
    rw [visitAt_root, hv]
    constructor
    · rintro ⟨b, hb⟩
      rw [Option.some.inj hb]
    · intro hv2
      exact ⟨v.1, by rw [← hv2]⟩
  have hbelow : s ∈ inside ↔ s ∈ below.spots [] ∧ r.Reached U root 0 s.names ∧
      ∃ b, r.visitAt U root s = some (true, b) := by
    have hreach : s ∈ below.spots [] → (r.Reached U root 0 s.names ↔
        v.2 = true ∧ r.Reached U root 1 s.names) := by
      intro hs
      obtain ⟨m, t, hm⟩ := names_of_mem_spots below _ s hs
      rw [hm, List.nil_append, reached_root, hent]
    cases hv2 : v.2 with
    | false =>
      rw [hv2] at hi hreach
      obtain rfl := Option.some.inj hi
      constructor
      · intro hs
        cases hs
      · rintro ⟨hs, hr, -⟩
        cases ((hreach hs).mp hr).1
    | true =>
      rw [hv2] at hi hreach
      rw [scanForest_spec U r root below [] inside hi s]
      constructor
      · rintro ⟨hs, hr, hb⟩
        exact ⟨hs, (hreach hs).mpr ⟨rfl, hr⟩, hb⟩
      · rintro ⟨hs, hr, hb⟩
        exact ⟨hs, ((hreach hs).mp hr).2, hb⟩
  rw [List.mem_append, treeSpots, List.mem_cons, hbelow]
  have hself : s ∈ (if v.1 then [(⟨[], true⟩ : Spot)] else []) ↔
      s = ⟨[], true⟩ ∧ r.Reached U root 0 s.names ∧ ∃ b, r.visitAt U root s = some (true, b) := by
    constructor
    · intro hs
      split at hs
      · rename_i hv1
        rw [List.mem_singleton] at hs
        subst hs
        exact ⟨rfl, r.reached_nil U root, v.2, by rw [visitAt_root, hv, ← hv1]⟩
      · cases hs
    · rintro ⟨rfl, -, b, hb⟩
      rw [visitAt_root, hv, Option.some.injEq] at hb
      rw [hb]
      exact List.mem_singleton.mpr rfl
  rw [hself]
  constructor
  · rintro (⟨h1, h2⟩ | ⟨h1, h2⟩)
    · exact ⟨Or.inl h1, h2⟩
    · exact ⟨Or.inr h1, h2⟩
  · rintro ⟨h1 | h1, h2⟩
    · exact Or.inl ⟨h1, h2⟩
    · exact Or.inr ⟨h1, h2⟩

end Rules

end Scour
