import Scour.Blocks
import Scour.Lib.RollUp

/-!
# What a subtree weighs

`Rollup` is the accumulator of `usage.rs`: `addSegment` charges every matching file to the directory
it sits in, `finish` sorts the directories by path and rolls their own totals up with a stack of open
ancestors.  Totals are `u64` and wrap; a `HashMap` is an association list.

`walkMatches_perm` says which rows a walk charges, `finishTotal_eq` what a directory's total is: its
own and everything below it, unless a directory in the table overtakes its descendants, and then its
own alone.
-/

namespace Scour

/-- How many age bands there are. -/
abbrev AGE_BANDS : Nat := 6

def DAY : Int64 := 86400

/-- Which age band a file modified `ago` seconds back belongs to. -/
def band (ago : Int64) : Fin AGE_BANDS :=
  if ago < DAY then 0
  else if ago < 7 * DAY then 1
  else if ago < 30 * DAY then 2
  else if ago < 180 * DAY then 3
  else if ago < 365 * DAY then 4
  else 5

/-- What sits directly in one directory. -/
@[ext]
structure Own where
  bytes : UInt64
  disk : UInt64
  files : UInt64
  age : Fin AGE_BANDS → UInt64
deriving DecidableEq

namespace Own

instance : Zero Own := ⟨⟨0, 0, 0, fun _ => 0⟩⟩

instance : Add Own :=
  ⟨fun a b => ⟨a.bytes + b.bytes, a.disk + b.disk, a.files + b.files, fun k => a.age k + b.age k⟩⟩

instance : AddCommMonoid Own where
  add_assoc _ _ _ := Own.ext (UInt64.add_assoc ..) (UInt64.add_assoc ..) (UInt64.add_assoc ..)
    (funext fun _ => UInt64.add_assoc ..)
  zero_add _ := Own.ext (UInt64.zero_add _) (UInt64.zero_add _) (UInt64.zero_add _)
    (funext fun _ => UInt64.zero_add _)
  add_zero _ := Own.ext (UInt64.add_zero _) (UInt64.add_zero _) (UInt64.add_zero _)
    (funext fun _ => UInt64.add_zero _)
  add_comm _ _ := Own.ext (UInt64.add_comm ..) (UInt64.add_comm ..) (UInt64.add_comm ..)
    (funext fun _ => UInt64.add_comm ..)
  nsmul := nsmulRec

end Own

/-- One directory of an answer. -/
structure DirUsage extends Own where
  path : Str
deriving DecidableEq

structure UsageRequest where
  /-- The subtree to weigh.  Empty means every root the index holds. -/
  path : Str
  /-- How many children to name. -/
  top : Nat
  /-- Weigh only the files this matches. -/
  query : Ast

structure UsageResponse where
  /-- The scope itself. -/
  root : DirUsage
  /-- Its immediate children, heaviest first. -/
  children : List DirUsage
  /-- How many children there were before the list was cut. -/
  childCount : Nat
deriving DecidableEq

/-- The accumulator a caller drives one segment at a time. -/
structure Rollup where
  req : UsageRequest
  now : Int64
  scope : Str
  /-- Own totals by directory path. -/
  own : List (Str × Own)

/-! ## Paths -/

/-- Is `path` strictly below `pfx`? -/
def strictlyBelow (path pfx : Str) : Bool :=
  let p := trimEnd pfx
  if p.isEmpty then true
  else p.length < path.length && p.isPrefixOf path && path[p.length]? == some slash

/-- Is `path` one level below `parent`? -/
def isChild (path parent : Str) : Bool :=
  strictlyBelow path parent && !(path.drop ((trimEnd parent).length + 1)).contains slash

/-! ## Charging the rows -/

/-- `seg.num_of(field, row)`. -/
def View.numOf (v : View) (f : Field) (row : Nat) : Int64 := Int64.ofInt (v.seg.num f row)

/-- What a row adds to the directory it sits in: one name's share of a file that may have several. -/
def View.share (v : View) (now : Int64) (row : Nat) : Own :=
  let links := (max (v.numOf .links row) 1).toUInt64
  let bytes := (max (v.numOf .size row) 0).toUInt64 / links
  { bytes := bytes
    disk := (max (v.numOf .disk row) 0).toUInt64 / links
    files := 1
    age := fun k => if k = band (now - v.numOf .mtime row) then bytes else 0 }

/-- Add one row to the directory it sits in.  A directory row is skipped. -/
def charge (v : View) (now : Int64) (wanted : List Bool) (perDir : List Own) (row : Nat) : List Own :=
  if v.seg.num .isDir row ≠ 0 then perDir
  else
    let d := v.seg.dirId row
    if perDir.length ≤ d ∨ wanted.getD d false = false then perDir
    else perDir.modify d (· + v.share now row)

/-- `walk_matches`: every live row a plan accepts, in the blocks worth opening.  The name is read
only where the plan asks for one. -/
def walkMatches {P : Platform} (v : View) (plan : Plan P) : List Nat :=
  (blocksWorthOpening v plan).flatMap fun b =>
    let start := b * BLOCK
    let stop := min ((b + 1) * BLOCK) v.rows
    (List.range' start (stop - start)).filter fun row =>
      v.isAlive row && plan.accepts v row (if plan.needsName then v.foldedName row else [])

namespace Rollup

def new (req : UsageRequest) (now : Int64) : Rollup := ⟨req, now, trimEnd req.path, []⟩

/-- Is this path the scope or below it? -/
def inScope (r : Rollup) (path : Str) : Bool :=
  if r.scope.isEmpty then true
  else path == r.scope ||
    (r.scope.length < path.length && r.scope.isPrefixOf path && path[r.scope.length]? == some slash)

/-- `own.entry(path).or_default().add(o)`. -/
def enter (path : Str) (o : Own) : List (Str × Own) → List (Str × Own)
  | [] => [(path, 0 + o)]
  | (p, a) :: rest => if p = path then (p, a + o) :: rest else (p, a) :: enter path o rest

/-- The directories of a segment that are in scope. -/
def wanted (r : Rollup) (v : View) : List Bool :=
  if r.scope.isEmpty then List.replicate v.seg.dirs.paths.length true
  else (List.range v.seg.dirs.paths.length).map fun id => (v.seg.dirs.subtree r.scope).contains id

/-- What is entered for one directory of a segment.  A directory with nothing directly in it is
entered too. -/
def entered (r : Rollup) (v : View) (perDir : List Own) (id : Nat) : Option (Str × Own) :=
  if (r.wanted v).getD id false then (v.seg.dirs.get id).map fun path => (path, perDir.getD id 0)
  else none

/-- Accumulate one segment's rows. -/
def addSegment (P : Platform) (r : Rollup) (v : View) : Except QueryError Rollup := do
  let nDirs := v.seg.dirs.paths.length
  let plan : Plan P ← Plan.compile r.req.query v
  let rows :=
    if plan.isEmpty then (List.range v.rows).filter v.isAlive else walkMatches v plan
  let perDir := rows.foldl (charge v r.now (r.wanted v)) (List.replicate nDirs 0)
  let own := (List.range nDirs).foldl (fun own id =>
    match r.entered v perDir id with
    | some (path, o) => enter path o own
    | none => own) r.own
  pure { r with own := own }

/-- The directories of every segment, sorted by path. -/
def dirs (r : Rollup) : List (Str × Own) := r.own.insertionSort fun a b => a.1 ≤ b.1

/-- The maximal directories: those with no ancestor in the list. -/
def tops (paths : List Str) : List Nat :=
  (List.range paths.length).foldl (fun tops i =>
    if tops.any fun t => strictlyBelow (paths.getD i []) (paths.getD t []) then tops
    else tops ++ [i]) []

/-- The children in the order of an answer. -/
def childLe (a b : DirUsage) : Prop := b.bytes < a.bytes ∨ (a.bytes = b.bytes ∧ a.path ≤ b.path)

instance : DecidableRel childLe := fun a b => by unfold childLe; infer_instance

/-- The root of an answer and all its children. -/
def tree (r : Rollup) : DirUsage × List DirUsage :=
  let dirs := r.dirs
  let paths := dirs.map (·.1)
  let keep := fun i top => strictlyBelow (paths.getD i []) (paths.getD top [])
  let total := Search.rollUp keep (dirs.map (·.2))
  let usage := fun i => { total.getD i 0 with path := paths.getD i [] : DirUsage }
  if r.scope.isEmpty then
    let tops := tops paths
    ({ (tops.map fun i => total.getD i 0).sum with path := [] }, tops.map usage)
  else
    let root := (((List.range paths.length).find? fun i => r.inScope (paths.getD i [])).map usage).getD
      { (0 : Own) with path := [] }
    (root, ((List.range paths.length).filter fun i => isChild (paths.getD i []) root.path).map usage)

/-- Roll the own totals up the tree and answer. -/
def finish (r : Rollup) : UsageResponse :=
  { root := r.tree.1
    children := (r.tree.2.insertionSort childLe).take (max r.req.top 1)
    childCount := r.tree.2.length }

end Rollup

/-- `NativeIndex::usage`, over the segments of the index. -/
def usage (P : Platform) (segs : List View) (req : UsageRequest) (now : Int64) :
    Except QueryError UsageResponse := do
  let r ← segs.foldlM (fun r v => r.addSegment P v) (Rollup.new req now)
  pure r.finish

/-! ## Directories in the order of their paths -/

theorem strictlyBelow_iff (path pfx : Str) :
    strictlyBelow path pfx = true ↔ trimEnd pfx = [] ∨ Below path (trimEnd pfx) := by
  unfold strictlyBelow Below
  rw [prefix_iff_lt_getElem]
  by_cases h : trimEnd pfx = []
  · simp [h]
  · have : (trimEnd pfx).isEmpty = false := by simpa using h
    simp [this, h, and_assoc]

/-- What lies below `q` does so without the separators at its end, or is `q`. -/
theorem below_trimEnd {q : Str} (hq : trimEnd q = q) (p : Str) (h : Below p q) :
    trimEnd p = q ∨ Below (trimEnd p) q := by
  induction p using List.reverseRecOn with
  | nil => exact absurd h (by simp [Below])
  | append_singleton p b ih =>
    by_cases hb : b = slash
    · subst hb
      rw [trimEnd_concat_slash]
      rcases List.prefix_concat_iff.mp h with heq | h
      · left
        have : q = p := List.append_cancel_right heq
        rw [← this, hq]
      · exact ih h
    · rw [trimEnd_concat_of_ne p hb]
      exact Or.inr h

theorem strictlyBelow_trans (x p q : Str) (hxp : strictlyBelow x p = true)
    (hpq : strictlyBelow p q = true) : strictlyBelow x q = true := by
  rw [strictlyBelow_iff] at *
  rcases hpq with hq | hpq
  · exact Or.inl hq
  · rcases below_trimEnd (trimEnd_trimEnd q) p hpq with he | hb
    · rwa [he] at hxp
    · rcases hxp with hp | hxp
      · rw [hp] at hb
        exact absurd hb (by simp [Below])
      · exact Or.inr (hxp.trans hb)

/-- A directory as a row names it: the root, or a path with no separator at its end. -/
def DirPath (d : Str) : Prop := d = [slash] ∨ (d.head? = some slash ∧ trimEnd d = d)

theorem Entry.dirPath_parent (e : Entry) : DirPath e.parent := by
  obtain ⟨l, r, hp, -, hs, -⟩ := e.path.split
  have hpar : e.parent = if l = [] then [slash] else l := by rw [Entry.parent, hs]
  rw [hpar]
  by_cases hl : l = []
  · rw [if_pos hl]
    exact Or.inl rfl
  · rw [if_neg hl]
    right
    constructor
    · obtain ⟨t, ht⟩ := e.path.head
      cases l with
      | nil => exact absurd rfl hl
      | cons b l =>
        rw [hp, List.cons_append, List.cons.injEq] at ht
        rw [ht.1]
        rfl
    · rw [trimEnd_eq_self_iff]
      rintro q rfl
      have := e.path.noDouble
      rw [hp, List.append_assoc] at this
      exact noDouble_append_cons q r this

theorem trimEnd_root : trimEnd [slash] = [] := rfl

theorem DirPath.trimEnd_eq_nil_iff {d : Str} (h : DirPath d) : trimEnd d = [] ↔ d = [slash] := by
  rcases h with rfl | ⟨h1, h2⟩
  · simp [trimEnd_root]
  · rw [h2]
    constructor
    · rintro rfl
      cases h1
    · rintro rfl
      rw [trimEnd_root] at h2
      cases h2

theorem DirPath.ne_nil {d : Str} (h : DirPath d) : d ≠ [] := by
  rintro rfl
  rcases h with h | ⟨h, -⟩ <;> cases h

/-- Does `path` sort between `pfx` and everything below it?  Its path goes on with a byte before
the separator. -/
def overtakes (path pfx : Str) : Bool :=
  (trimEnd pfx).isPrefixOf path && (path[(trimEnd pfx).length]?).any (· < slash)

theorem overtakes_iff (path pfx : Str) :
    overtakes path pfx = true ↔ ∃ c t, path = trimEnd pfx ++ c :: t ∧ c < slash := by
  unfold overtakes
  rw [Bool.and_eq_true, List.isPrefixOf_iff_prefix, Option.any_eq_true]
  constructor
  · rintro ⟨⟨t, rfl⟩, c, hc, hlt⟩
    rw [List.getElem?_append_right (le_refl _), Nat.sub_self] at hc
    cases t with
    | nil => cases hc
    | cons b t =>
      obtain rfl : b = c := by simpa using hc
      exact ⟨b, t, rfl, by simpa using hlt⟩
  · rintro ⟨c, t, rfl, hlt⟩
    exact ⟨List.prefix_append _ _, c, by simp, by simpa using hlt⟩

theorem lt_append_cons (d : Str) (c : UInt8) (t : Str) : d < d ++ c :: t := by
  have : d ++ [] < d ++ c :: t := List.append_left_lt (List.nil_lt_cons c t)
  rwa [List.append_nil] at this

theorem Below.lt {x d : Str} (h : Below x d) : d < x := by
  obtain ⟨t, rfl⟩ := h
  rw [List.append_assoc]
  exact lt_append_cons d slash t

/-- What overtakes a directory comes after it and before all that is below it. -/
theorem lt_of_overtakes {x y d : Str} {c : UInt8} {t : Str} (hx : x = d ++ c :: t) (hc : c < slash)
    (hy : Below y d) : x < y := by
  obtain ⟨u, rfl⟩ := hy
  rw [hx, List.append_assoc]
  exact List.append_left_lt (List.cons_lt_cons_iff.mpr (Or.inl hc))

/-- And nothing else does. -/
theorem exists_of_between {x y d : Str} (hdx : d < x) (hx : ¬ Below x d) (hxy : x < y)
    (hy : Below y d) : ∃ c t, x = d ++ c :: t ∧ c < slash := by
  obtain ⟨u, rfl⟩ := hy
  induction d generalizing x with
  | nil =>
    cases x with
    | nil => exact absurd hdx (lt_irrefl _)
    | cons c t =>
      refine ⟨c, t, rfl, ?_⟩
      rcases List.cons_lt_cons_iff.mp hxy with h | ⟨rfl, -⟩
      · exact h
      · exact absurd ⟨t, rfl⟩ hx
  | cons a d ih =>
    cases x with
    | nil => exact absurd hdx (by simp)
    | cons b x =>
      rcases List.cons_lt_cons_iff.mp hdx with hab | ⟨rfl, h1⟩
      · rcases List.cons_lt_cons_iff.mp hxy with hba | ⟨rfl, -⟩
        · exact absurd (lt_trans hab hba) (lt_irrefl _)
        · exact absurd hab (lt_irrefl _)
      · rcases List.cons_lt_cons_iff.mp hxy with hba | ⟨-, h2⟩
        · exact absurd hba (lt_irrefl _)
        · obtain ⟨c, t, rfl, hc⟩ := ih h1 (fun h => hx (by simpa [Below] using h)) h2
          exact ⟨c, t, rfl, hc⟩

/-- The items that pass, where they are the ones at the positions from `d` to `e`. -/
theorem filter_eq_take_drop {α : Type*} (l : List α) (p : α → Bool) (d e : Nat) (hde : d ≤ e)
    (h : ∀ i x, l[i]? = some x → (p x = true ↔ d ≤ i ∧ i < e)) :
    l.filter p = (l.take e).drop d := by
  have hsplit : l = l.take d ++ ((l.take e).drop d ++ l.drop e) := by
    rw [← List.append_assoc]
    conv_lhs => rw [← List.take_append_drop e l, ← List.take_append_drop d (l.take e)]
    rw [List.take_take, Nat.min_eq_left hde]
  have h1 : (l.take d).filter p = [] := by
    rw [List.filter_eq_nil_iff]
    intro x hx hp
    obtain ⟨i, hi⟩ := List.mem_iff_getElem?.mp hx
    rw [List.getElem?_take] at hi
    split at hi
    · have := (h i x hi).mp hp
      omega
    · cases hi
  have h2 : ((l.take e).drop d).filter p = (l.take e).drop d := by
    rw [List.filter_eq_self]
    intro x hx
    obtain ⟨i, hi⟩ := List.mem_iff_getElem?.mp hx
    rw [List.getElem?_drop, List.getElem?_take] at hi
    split at hi
    · exact (h _ x hi).mpr ⟨by omega, by omega⟩
    · cases hi
  have h3 : (l.drop e).filter p = [] := by
    rw [List.filter_eq_nil_iff]
    intro x hx hp
    obtain ⟨i, hi⟩ := List.mem_iff_getElem?.mp hx
    rw [List.getElem?_drop] at hi
    have := (h _ x hi).mp hp
    omega
  conv_lhs => rw [hsplit]
  rw [List.filter_append, List.filter_append, h1, h2, h3]
  simp

/-- What the total of a directory counts: itself, and what is below it unless another directory
overtakes that. -/
def counts (paths : List Str) (d x : Str) : Bool :=
  x == d || (under x d && !paths.any (overtakes · d))

theorem DirPath.root_le {d : Str} (h : DirPath d) : [slash] ≤ d := by
  rcases h with rfl | ⟨h, -⟩
  · exact le_refl _
  · cases d with
    | nil => cases h
    | cons b t =>
      obtain rfl : b = slash := by simpa using h
      refine not_lt.mp fun hlt => ?_
      rcases List.cons_lt_cons_iff.mp hlt with h | ⟨-, h⟩
      · exact absurd h (lt_irrefl _)
      · exact absurd h (List.not_lt_nil t)

theorem not_overtakes_root {x : Str} (h : DirPath x) : overtakes x [slash] = false := by
  rw [Bool.eq_false_iff, ne_eq, overtakes_iff, trimEnd_root]
  rintro ⟨c, t, rfl, hc⟩
  rcases h with h | ⟨h, -⟩
  · rw [List.nil_append, List.cons.injEq] at h
    rw [h.1] at hc
    exact absurd hc (lt_irrefl _)
  · obtain rfl : c = slash := by simpa using h
    exact absurd hc (lt_irrefl _)

theorem under_iff_of_dirPath {x d : Str} (hd : DirPath d) (hne : d ≠ [slash]) :
    under x d = true ↔ x = d ∨ Below x d := by
  rcases hd with rfl | ⟨hh, ht⟩
  · exact absurd rfl hne
  · rw [under_iff, ht]
    constructor
    · rintro (rfl | h)
      · cases hh
      · exact h
    · exact Or.inr

section
variable {paths : List Str} (hsorted : paths.Pairwise (· < ·))
include hsorted

theorem lt_of_index_lt {i j : Nat} {p q : Str} (hi : paths[i]? = some p) (hj : paths[j]? = some q)
    (hij : i < j) : p < q := by
  obtain ⟨hi', rfl⟩ := List.getElem?_eq_some_iff.mp hi
  obtain ⟨hj', rfl⟩ := List.getElem?_eq_some_iff.mp hj
  exact List.pairwise_iff_getElem.mp hsorted i j hi' hj' hij

theorem index_lt_of_lt {i j : Nat} {p q : Str} (hi : paths[i]? = some p) (hj : paths[j]? = some q)
    (hpq : p < q) : i < j := by
  rcases lt_trichotomy i j with h | rfl | h
  · exact h
  · rw [hi, Option.some.injEq] at hj
    rw [hj] at hpq
    exact absurd hpq (lt_irrefl _)
  · exact absurd (lt_trans hpq (lt_of_index_lt hsorted hj hi h)) (lt_irrefl _)

theorem index_eq_of_eq {i j : Nat} {p : Str} (hi : paths[i]? = some p) (hj : paths[j]? = some p) :
    i = j := by
  rcases lt_trichotomy i j with h | h | h
  · exact absurd (lt_of_index_lt hsorted hi hj h) (lt_irrefl _)
  · exact h
  · exact absurd (lt_of_index_lt hsorted hj hi h) (lt_irrefl _)

/-- The run of a directory in the sorted table is what its total counts. -/
theorem counts_iff_run (hdir : ∀ p ∈ paths, DirPath p) {d e : Nat} {D : Str}
    (hd : paths[d]? = some D) (hde : d < e)
    (hin : ∀ i x, d < i → i < e → paths[i]? = some x → strictlyBelow x D = true)
    (hstop : ∀ x, paths[e]? = some x → strictlyBelow x D = false) (i : Nat) (x : Str)
    (hi : paths[i]? = some x) : counts paths D x = true ↔ d ≤ i ∧ i < e := by
  have hDd := hdir D (List.mem_of_getElem? hd)
  have hxd := hdir x (List.mem_of_getElem? hi)
  have hilt : i < paths.length := (List.getElem?_eq_some_iff.mp hi).1
  simp only [counts, Bool.or_eq_true, beq_iff_eq, Bool.and_eq_true, Bool.not_eq_true',
    List.any_eq_false]
  constructor
  · rintro (rfl | ⟨hu, hno⟩)
    · have := index_eq_of_eq hsorted hi hd
      omega
    · -- all that is below comes after the directory, and nothing that is not comes between
      have hdi : d ≤ i := by
        by_contra hlt
        have h1 := lt_of_index_lt hsorted hi hd (by omega)
        by_cases hroot : D = [slash]
        · rw [hroot] at h1
          exact absurd (lt_of_lt_of_le h1 hxd.root_le) (lt_irrefl _)
        · rcases (under_iff_of_dirPath hDd hroot).mp hu with rfl | hb
          · exact lt_irrefl _ h1
          · exact absurd (lt_trans h1 hb.lt) (lt_irrefl _)
      refine ⟨hdi, ?_⟩
      by_contra hge
      obtain ⟨E, hE⟩ : ∃ E, paths[e]? = some E :=
        ⟨_, List.getElem?_eq_getElem (show e < paths.length by omega)⟩
      have hnb := hstop E hE
      rw [Bool.eq_false_iff, ne_eq, strictlyBelow_iff, not_or] at hnb
      obtain ⟨hroot, hnb⟩ := hnb
      rw [hDd.trimEnd_eq_nil_iff] at hroot
      have ht : trimEnd D = D := (hDd.resolve_left hroot).2
      rw [ht] at hnb
      have hDE : D < E := lt_of_index_lt hsorted hd hE hde
      rcases (under_iff_of_dirPath hDd hroot).mp hu with rfl | hb
      · have := index_eq_of_eq hsorted hi hd
        omega
      · have hEx : E < x := by
          rcases Nat.lt_or_eq_of_le (Nat.le_of_not_lt hge) with h | rfl
          · exact lt_of_index_lt hsorted hE hi h
          · rw [hi, Option.some.injEq] at hE
            exact absurd (hE ▸ hb) hnb
        have := exists_of_between hDE hnb hEx hb
        have hov : overtakes E D = true := by
          rw [overtakes_iff, ht]
          exact this
        exact hno E (List.mem_of_getElem? hE) hov
  · rintro ⟨hdi, hie⟩
    rcases Nat.lt_or_eq_of_le hdi with hlt | rfl
    · right
      have hb := hin i x hlt hie hi
      rw [strictlyBelow_iff] at hb
      refine ⟨(under_iff _ _).mpr (hb.imp id Or.inr), fun E hE hov => ?_⟩
      by_cases hroot : D = [slash]
      · rw [hroot, not_overtakes_root (hdir E hE)] at hov
        cases hov
      · have ht : trimEnd D = D := (hDd.resolve_left hroot).2
        obtain ⟨c, t, hEc, hc⟩ := (overtakes_iff E D).mp hov
        rw [ht] at hEc hb
        obtain ⟨j, hj⟩ := List.mem_iff_getElem?.mp hE
        have hxb : Below x D := hb.resolve_left hDd.ne_nil
        have h1 : d < j := index_lt_of_lt hsorted hd hj (hEc ▸ lt_append_cons D c t)
        have h2 : j < i := index_lt_of_lt hsorted hj hi (lt_of_overtakes hEc hc hxb)
        have hEb := hin j E h1 (by omega) hj
        rw [strictlyBelow_iff, ht] at hEb
        exact absurd (lt_of_overtakes hEc hc (hEb.resolve_left hDd.ne_nil)) (lt_irrefl _)
    · left
      rw [hd, Option.some.injEq] at hi
      exact hi.symm

end

theorem rollUp_dirs (dirs : List (Str × Own)) (paths : List Str) (hpaths : paths = dirs.map (·.1))
    (hsorted : paths.Pairwise (· < ·)) (hdir : ∀ p ∈ paths, DirPath p) (d : Nat) (D : Str)
    (hd : paths[d]? = some D) :
    (Search.rollUp (fun i top => strictlyBelow (paths.getD i []) (paths.getD top []))
      (dirs.map (·.2))).getD d 0 = ((dirs.filter fun p => counts paths D p.1).map (·.2)).sum := by
  have hlen : d < dirs.length := by
    have := (List.getElem?_eq_some_iff.mp hd).1
    rwa [hpaths, List.length_map] at this
  obtain ⟨e, h1, h2, h3, h4, h5⟩ := Search.rollUp_getD
    (fun i top => strictlyBelow (paths.getD i []) (paths.getD top []))
    (dirs.map (·.2)) (fun i j k => strictlyBelow_trans _ _ _) d (by simpa using hlen)
  have hgetD : ∀ i x, paths[i]? = some x → paths.getD i [] = x := fun i x hi => by
    rw [List.getD_eq_getElem?_getD, hi]
    rfl
  simp only [hgetD d D hd] at h3 h4
  rw [h5, Search.span_eq_sum, ← List.map_take, ← List.map_drop]
  rw [filter_eq_take_drop dirs _ d e (le_of_lt h1)]
  intro i p hi
  have hip : paths[i]? = some p.1 := by rw [hpaths, List.getElem?_map, hi]; rfl
  refine counts_iff_run hsorted hdir hd h1 (fun i x h6 h7 hx => ?_) (fun x hx => ?_) i p.1 hip
  · have := h3 i h6 h7
    rwa [hgetD i x hx] at this
  · rcases h4 with h4 | h4
    · have := (List.getElem?_eq_some_iff.mp hx).1
      rw [hpaths, List.length_map] at this
      rw [List.length_map] at h4
      omega
    · rwa [hgetD e x hx] at h4


/-- A segment as it stands: what was written, with which of its rows are live. -/
def View.opened (P : Platform) (s : List Entry × Str) : View :=
  { View.buildSorted P s.1 with alive := s.2 }

/-! ## The rows a walk charges -/

section
variable {P : Platform}

theorem evaluate_of_not_readsName (v : View) (row : Nat) (t : Test P) (h : t.readsName = false)
    (a b : Str) : evaluate v row a t = evaluate v row b t := by
  cases t <;> first | rfl | cases h

/-- A plan that asks for no name accepts whatever the name. -/
theorem Plan.accepts_of_not_needsName (p : Plan P) (v : View) (row : Nat) (h : p.needsName = false)
    (a b : Str) : p.accepts v row a = p.accepts v row b := by
  rw [Plan.needsName, List.any_eq_false] at h
  unfold Plan.accepts
  rw [Bool.eq_iff_iff, List.all_eq_true, List.all_eq_true]
  have hc : ∀ c ∈ p.clauses, (c.alts.any fun x => evaluate v row a x.2 != x.1) =
      c.alts.any fun x => evaluate v row b x.2 != x.1 := by
    intro c hc
    have hall := h c hc
    rw [Bool.not_eq_true, List.any_eq_false] at hall
    rw [Bool.eq_iff_iff, List.any_eq_true, List.any_eq_true]
    constructor <;>
    · rintro ⟨x, hx, hev⟩
      refine ⟨x, hx, ?_⟩
      rwa [evaluate_of_not_readsName v row x.2 (by simpa using hall x hx) _ _] at hev
  constructor
  · intro hall c hm
    rw [← hc c hm]
    exact hall c hm
  · intro hall c hm
    rw [hc c hm]
    exact hall c hm

theorem mem_walkMatches (v : View) (p : Plan P) (row : Nat) :
    row ∈ walkMatches v p ↔ row / BLOCK ∈ blocksWorthOpening v p ∧ row < v.rows ∧
      v.isAlive row = true ∧ p.accepts v row (v.foldedName row) = true := by
  have hB : BLOCK = 32 := rfl
  have hname : p.accepts v row (if p.needsName then v.foldedName row else []) =
      p.accepts v row (v.foldedName row) := by
    cases hn : p.needsName with
    | true => rfl
    | false => exact p.accepts_of_not_needsName v row hn _ _
  unfold walkMatches
  simp only [List.mem_flatMap, List.mem_filter, List.mem_range'_1, Bool.and_eq_true]
  rw [hname]
  constructor
  · rintro ⟨b, hb, ⟨h1, h2⟩, h3, h4⟩
    have : row / BLOCK = b := by
      rw [hB] at *
      omega
    exact ⟨this ▸ hb, by omega, h3, h4⟩
  · rintro ⟨hb, hrow, h3, h4⟩
    refine ⟨row / BLOCK, hb, ⟨?_, ?_⟩, h3, h4⟩ <;> rw [hB] at * <;> omega

theorem folded_getElem? (P : Platform) (es : List Entry) (row : Nat) (hrow : row < es.length) :
    (View.buildSorted P es).folded[row]? = some (View.foldedName (View.buildSorted P es) row) := by
  have hl : row < (View.buildSorted P es).folded.length := by
    simpa [View.buildSorted] using hrow
  rw [View.foldedName, List.getD_eq_getElem _ _ hl, List.getElem?_eq_getElem hl]

/-- Where a row is accepted, the blocks to open are in order. -/
theorem blocksWorthOpening_sorted (s : List Entry × Str) (ast : Ast) (p : Plan P)
    (hp : Plan.compile ast (View.opened P s) = .ok p) (row : Nat) (hrow : row < s.1.length)
    (hacc : p.accepts (View.opened P s) row ((View.opened P s).foldedName row) = true) :
    (blocksWorthOpening (View.opened P s) p).Pairwise (· < ·) := by
  obtain ⟨-, hcand⟩ := Plan.compile_spec ast _ p hp
  unfold blocksWorthOpening
  apply List.Pairwise.filter
  split
  · rename_i c hc
    rw [hcand] at hc
    exact (mem_narrowToBlocks P.tooCommon (View.opened P s) rfl row _
      (folded_getElem? P s.1 row hrow) p.clauses (List.all_eq_true.mp hacc) c hc).2
  · exact List.pairwise_lt_range

theorem nodup_walkMatches (s : List Entry × Str) (ast : Ast) (p : Plan P)
    (hp : Plan.compile ast (View.opened P s) = .ok p) : (walkMatches (View.opened P s) p).Nodup := by
  have hB : BLOCK = 32 := rfl
  by_cases hany : ∃ row, row ∈ walkMatches (View.opened P s) p
  · obtain ⟨row, hrow⟩ := hany
    obtain ⟨-, h1, -, h2⟩ := (mem_walkMatches _ p row).mp hrow
    have hs := blocksWorthOpening_sorted s ast p hp row
      (by rw [← View.buildSorted_rows P s.1]; exact h1) h2
    unfold walkMatches
    rw [List.nodup_flatMap]
    constructor
    · intro b _
      exact (List.nodup_range' 1).filter _
    · refine hs.imp fun {a b} hab x ha hb => ?_
      simp only [List.mem_filter, List.mem_range'_1] at ha hb
      rw [hB] at ha hb
      omega
  · have : walkMatches (View.opened P s) p = [] := by
      rw [List.eq_nil_iff_forall_not_mem]
      exact fun row h => hany ⟨row, h⟩
    rw [this]
    exact List.nodup_nil

/-- **What a walk charges**: each live accepted row once, but for those of the first block of a
segment whose bitmap is absent. -/
theorem walkMatches_perm (s : List Entry × Str) (ast : Ast) (p : Plan P)
    (hp : Plan.compile ast (View.opened P s) = .ok p) :
    (walkMatches (View.opened P s) p).Perm ((List.range (View.opened P s).rows).filter fun row =>
      (View.opened P s).isAlive row &&
        p.accepts (View.opened P s) row ((View.opened P s).foldedName row) &&
        (!s.2.isEmpty || decide (BLOCK ≤ row))) := by
  rw [List.perm_ext_iff_of_nodup (nodup_walkMatches s ast p hp) (List.nodup_range.filter _)]
  intro row
  rw [mem_walkMatches, List.mem_filter, List.mem_range]
  have hblock : row < (View.opened P s).rows → (View.opened P s).isAlive row = true →
      p.accepts (View.opened P s) row ((View.opened P s).foldedName row) = true →
      (row / BLOCK ∈ blocksWorthOpening (View.opened P s) p ↔ s.2 ≠ [] ∨ BLOCK ≤ row) :=
    fun h1 h2 h3 => Plan.mem_blocksWorthOpening_iff s.1 s.2 ast p hp row
      (by rw [← View.buildSorted_rows P s.1]; exact h1) h2 h3
  simp only [Bool.and_eq_true, Bool.or_eq_true, Bool.not_eq_true', List.isEmpty_eq_false_iff,
    decide_eq_true_eq]
  constructor
  · rintro ⟨hb, h1, h2, h3⟩
    exact ⟨h1, ⟨h2, h3⟩, (hblock h1 h2 h3).mp hb⟩
  · rintro ⟨h1, ⟨h2, h3⟩, hb⟩
    exact ⟨(hblock h1 h2 h3).mpr hb, h1, h2, h3⟩

end

/-! ## Own totals -/

/-- What the rows charged to a directory add up to. -/
theorem foldl_charge_getD (v : View) (now : Int64) (wanted : List Bool) (d : Nat) (rows : List Nat) :
    ∀ perDir : List Own, d < perDir.length → wanted.getD d false = true →
      (rows.foldl (charge v now wanted) perDir).length = perDir.length ∧
      (rows.foldl (charge v now wanted) perDir).getD d 0 = perDir.getD d 0 +
        ((rows.filter fun row => v.seg.num .isDir row == 0 && v.seg.dirId row == d).map
          (v.share now)).sum := by
  induction rows with
  | nil => exact fun perDir _ _ => ⟨rfl, by simp⟩
  | cons row rows ih =>
    intro perDir hd hw
    have hstep : (charge v now wanted perDir row).length = perDir.length ∧
        (charge v now wanted perDir row).getD d 0 = perDir.getD d 0 +
          if (v.seg.num .isDir row == 0 && v.seg.dirId row == d) = true then v.share now row
          else 0 := by
      unfold charge
      by_cases h0 : v.seg.num .isDir row = 0
      · rw [if_neg (by simpa using h0)]
        by_cases hdd : v.seg.dirId row = d
        · rw [if_neg (by rw [hdd, hw]; simpa using hd)]
          simp [List.getD_eq_getElem?_getD, h0, hdd, hd]
        · have hf : (v.seg.num .isDir row == 0 && v.seg.dirId row == d) = false := by simp [hdd]
          simp only [hf, Bool.false_eq_true, if_false, add_zero]
          split
          · exact ⟨rfl, rfl⟩
          · simp [List.getD_eq_getElem?_getD, hdd]
      · rw [if_pos h0]
        simp [h0]
    obtain ⟨h1, h2⟩ := ih (charge v now wanted perDir row) (by rw [hstep.1]; exact hd) hw
    rw [List.foldl_cons]
    refine ⟨h1.trans hstep.1, ?_⟩
    rw [h2, hstep.2, List.filter_cons]
    split
    · rw [List.map_cons, List.sum_cons, add_assoc]
    · rw [add_zero]

namespace Rollup

/-- What is entered under a path. -/
def ownAt (own : List (Str × Own)) (d : Str) : Own :=
  ((own.filter fun p => p.1 == d).map (·.2)).sum

theorem ownAt_enter (path : Str) (o : Own) (d : Str) (own : List (Str × Own)) :
    ownAt (enter path o own) d = ownAt own d + if path = d then o else 0 := by
  induction own with
  | nil =>
    unfold enter ownAt
    by_cases h : path = d <;> simp [h]
  | cons p own ih =>
    obtain ⟨q, a⟩ := p
    unfold enter
    by_cases hq : q = path
    · rw [if_pos hq]
      unfold ownAt
      by_cases h : path = d
      · simp [hq, h, add_assoc, add_comm]
      · simp [hq, h]
    · rw [if_neg hq]
      unfold ownAt at ih ⊢
      by_cases h : q = d
      · simp [h, ih, add_assoc]
      · simp [h, ih]

theorem mem_enter (path : Str) (o : Own) (d : Str) (own : List (Str × Own)) :
    d ∈ (enter path o own).map (·.1) ↔ d ∈ own.map (·.1) ∨ d = path := by
  induction own with
  | nil => simp [enter]
  | cons p own ih =>
    obtain ⟨q, a⟩ := p
    unfold enter
    by_cases hq : q = path
    · rw [if_pos hq]
      simp [hq, or_comm]
    · rw [if_neg hq, List.map_cons, List.mem_cons, ih, List.map_cons, List.mem_cons, or_assoc]

theorem nodup_enter (path : Str) (o : Own) (own : List (Str × Own)) (h : (own.map (·.1)).Nodup) :
    ((enter path o own).map (·.1)).Nodup := by
  induction own with
  | nil => simp [enter]
  | cons p own ih =>
    obtain ⟨q, a⟩ := p
    rw [List.map_cons, List.nodup_cons] at h
    unfold enter
    by_cases hq : q = path
    · rw [if_pos hq]
      simpa using h
    · rw [if_neg hq, List.map_cons, List.nodup_cons, mem_enter]
      exact ⟨fun hm => hm.elim h.1 hq, ih h.2⟩

/-- Entering directories in turn. -/
theorem foldl_enter (entered : Nat → Option (Str × Own)) (ids : List Nat) :
    ∀ own : List (Str × Own),
      let own' := ids.foldl (fun own id =>
        match entered id with
        | some (path, o) => enter path o own
        | none => own) own
      ((own.map (·.1)).Nodup → (own'.map (·.1)).Nodup) ∧
      (∀ d, d ∈ own'.map (·.1) ↔ d ∈ own.map (·.1) ∨ ∃ id ∈ ids, ∃ o, entered id = some (d, o)) ∧
      ∀ d, ownAt own' d = ownAt own d + (ids.map fun id =>
        match entered id with
        | some (path, o) => if path = d then o else 0
        | none => 0).sum := by
  induction ids with
  | nil => exact fun own => ⟨id, by simp, by simp⟩
  | cons id ids ih =>
    intro own
    simp only [List.foldl_cons]
    cases h : entered id with
    | none =>
      obtain ⟨h1, h2, h3⟩ := ih own
      refine ⟨h1, fun d => ?_, fun d => ?_⟩
      · rw [h2]
        simp [h]
      · rw [h3]
        simp [h]
    | some p =>
      obtain ⟨path, o⟩ := p
      obtain ⟨h1, h2, h3⟩ := ih (enter path o own)
      refine ⟨fun hn => h1 (nodup_enter path o own hn), fun d => ?_, fun d => ?_⟩
      · rw [h2, mem_enter]
        simp [h, or_assoc, eq_comm]
      · rw [h3, ownAt_enter]
        simp [h, add_assoc]

/-- A sum with one term. -/
theorem sum_map_single {α : Type*} [DecidableEq α] (l : List α) (hl : l.Nodup) (f : α → Own) (a : α)
    (ha : a ∈ l) (hf : ∀ b, b ≠ a → b ∈ l → f b = 0) : (l.map f).sum = f a := by
  rw [List.sum_map_eq_nsmul_single a f hf, List.count_eq_one_of_mem hl ha, one_nsmul]

end Rollup

theorem Plan.compile_isEmpty {P : Platform} (q : Ast) (v : View) (p : Plan P)
    (h : Plan.compile q v = .ok p) : p.isEmpty = q.groups.isEmpty := by
  have hlen : ∀ (gs : List Group) (cs : List (Clause P)),
      Plan.compileGroups v gs = .ok cs → cs.length = gs.length := by
    intro gs
    induction gs with
    | nil =>
      intro cs h
      cases h
      rfl
    | cons g gs ih =>
      intro cs h
      simp only [Plan.compileGroups, bind, Except.bind] at h
      split at h
      · cases h
      · split at h
        · cases h
        · rename_i cs' hcs
          cases h
          rw [List.length_cons, List.length_cons, ih cs' hcs]
  simp only [Plan.compile, bind, Except.bind] at h
  split at h
  · cases h
  · rename_i cs hcs
    cases h
    have := hlen _ _ hcs
    rw [Plan.isEmpty, Bool.eq_iff_iff, List.isEmpty_iff_length_eq_zero,
      List.isEmpty_iff_length_eq_zero, List.length_insertionSort, this]

/-- The directory of a row is in the table, under the row's number. -/
theorem View.opened_dirOf {P : Platform} (s : List Entry × Str) (row : Nat)
    (hrow : row < (View.opened P s).rows) :
    (View.opened P s).seg.dirs.paths[(View.opened P s).seg.dirId row]? =
      some ((View.opened P s).seg.dirOf row) ∧ DirPath ((View.opened P s).seg.dirOf row) := by
  have hlen : row < s.1.length := by
    rw [← View.buildSorted_rows P s.1]
    exact hrow
  have he := List.getElem?_eq_getElem hlen
  have h1 : (View.opened P s).seg.dirOf row = s.1[row].parent := buildSorted_dirOf he
  rw [h1]
  exact ⟨buildSorted_dirId he, s.1[row].dirPath_parent⟩

theorem View.opened_dirs {P : Platform} (s : List Entry × Str) :
    (View.opened P s).seg.dirs.Sorted ∧
      ∀ d ∈ (View.opened P s).seg.dirs.paths, DirPath d := by
  refine ⟨buildSorted_dirs_sorted s.1, fun d hd => ?_⟩
  obtain ⟨e, -, rfl⟩ := (mem_buildSorted_dirs s.1 d).mp hd
  exact e.dirPath_parent

namespace Rollup

/-- Does the walk of one segment come to this row? -/
def walks (q : Ast) (v : View) (row : Nat) : Bool :=
  q.groups.isEmpty || !v.alive.isEmpty || decide (BLOCK ≤ row)

/-- The rows of a segment that a plan charges. -/
def chargedRows {P : Platform} (q : Ast) (v : View) (p : Plan P) : List Nat :=
  (List.range v.rows).filter fun row =>
    v.isAlive row && p.accepts v row (v.foldedName row) && walks q v row

theorem wanted_getD (r : Rollup) (v : View) (hsorted : v.seg.dirs.Sorted)
    (hscope : trimEnd r.scope = r.scope) (id : Nat) (d : Str)
    (hd : v.seg.dirs.paths[id]? = some d) : (r.wanted v).getD id false = under d r.scope := by
  have hlt := (List.getElem?_eq_some_iff.mp hd).1
  unfold wanted
  by_cases hs : r.scope = []
  · rw [if_pos (by rw [hs]; rfl), List.getD_eq_getElem _ _ (by simpa using hlt), List.getElem_replicate,
      eq_comm, under_iff, hscope]
    exact Or.inl hs
  · rw [if_neg (by simpa using hs), List.getD_eq_getElem _ _ (by simpa using hlt), List.getElem_map,
      List.getElem_range, Bool.eq_iff_iff, DirTable.subtree_contains_iff _ hsorted _ _ _ hd, under_iff,
      hscope]
    exact ⟨Or.inr, fun h => h.resolve_left hs⟩

/-- **What one segment adds**: its directories in scope, and to each what the rows directly in it
weigh. -/
theorem addSegment_spec {P : Platform} (s : List Entry × Str) (r r' : Rollup)
    (hscope : trimEnd r.scope = r.scope) (h : r.addSegment P (View.opened P s) = .ok r') :
    (r'.req = r.req ∧ r'.now = r.now ∧ r'.scope = r.scope) ∧
      ((r.own.map (·.1)).Nodup → (r'.own.map (·.1)).Nodup) ∧
      (∀ d, d ∈ r'.own.map (·.1) ↔ d ∈ r.own.map (·.1) ∨
        (d ∈ (View.opened P s).seg.dirs.paths ∧ under d r.scope = true)) ∧
      ∃ p : Plan P, Plan.compile r.req.query (View.opened P s) = .ok p ∧
        ∀ d, ownAt r'.own d = ownAt r.own d +
          (((chargedRows r.req.query (View.opened P s) p).filter fun row =>
            (View.opened P s).seg.num .isDir row == 0 && under d r.scope &&
              (View.opened P s).seg.dirOf row == d).map ((View.opened P s).share r.now)).sum := by
  generalize hv : View.opened P s = v at h
  obtain ⟨hsorted, -⟩ := View.opened_dirs (P := P) s
  rw [hv] at hsorted
  have hdirOf := View.opened_dirOf (P := P) s
  rw [hv] at hdirOf
  have hnodup : v.seg.dirs.paths.Nodup := hsorted.imp fun hab => ne_of_lt hab
  simp only [addSegment, bind, Except.bind] at h
  split at h
  · cases h
  · rename_i p hp
    simp only [pure, Except.pure, Except.ok.injEq] at h
    -- the rows that are charged
    have hperm : (if p.isEmpty then (List.range v.rows).filter v.isAlive else walkMatches v p).Perm
        (chargedRows r.req.query v p) := by
      have hempty := Plan.compile_isEmpty r.req.query v p hp
      unfold chargedRows walks
      cases hg : r.req.query.groups.isEmpty with
      | true =>
        have hacc : ∀ row name, p.accepts v row name = true := by
          intro row name
          rw [hg, Plan.isEmpty, List.isEmpty_iff] at hempty
          rw [Plan.accepts, hempty]
          rfl
        rw [hempty, hg, if_pos rfl]
        simp [hacc]
      | false =>
        rw [hempty, hg, if_neg (by simp)]
        rw [← hv] at hp ⊢
        exact walkMatches_perm s _ p hp
    generalize (if p.isEmpty then (List.range v.rows).filter v.isAlive else walkMatches v p) = rows
      at h hperm
    generalize hper : rows.foldl (charge v r.now (r.wanted v))
      (List.replicate v.seg.dirs.paths.length 0) = perDir at h
    obtain ⟨h1, h2, h3⟩ := foldl_enter (r.entered v perDir) (List.range v.seg.dirs.paths.length) r.own
    have hent : ∀ id d o, r.entered v perDir id = some (d, o) ↔
        v.seg.dirs.paths[id]? = some d ∧ under d r.scope = true ∧ o = perDir.getD id 0 := by
      intro id d o
      unfold entered
      cases hd : v.seg.dirs.paths[id]? with
      | none => simp [DirTable.get, hd]
      | some q =>
        rw [wanted_getD r v hsorted hscope id q hd]
        simp only [DirTable.get, hd, Option.map_some, Option.ite_none_right_eq_some,
          Option.some.injEq, Prod.mk.injEq]
        constructor
        · rintro ⟨hu, rfl, rfl⟩
          exact ⟨rfl, hu, rfl⟩
        · rintro ⟨rfl, hu, rfl⟩
          exact ⟨hu, rfl, rfl⟩
    rw [← h]
    refine ⟨⟨rfl, rfl, rfl⟩, h1, fun d => ?_, p, hp, fun d => ?_⟩
    · rw [h2]
      apply or_congr_right
      constructor
      · rintro ⟨id, -, o, ho⟩
        obtain ⟨hid, hu, -⟩ := (hent id d o).mp ho
        exact ⟨List.mem_of_getElem? hid, hu⟩
      · rintro ⟨hd, hu⟩
        obtain ⟨id, hid⟩ := List.mem_iff_getElem?.mp hd
        exact ⟨id, List.mem_range.mpr (List.getElem?_eq_some_iff.mp hid).1, _,
          (hent id d _).mpr ⟨hid, hu, rfl⟩⟩
    · rw [h3]
      congr 1
      have hrow : ∀ row ∈ chargedRows r.req.query v p,
          v.seg.dirs.paths[v.seg.dirId row]? = some (v.seg.dirOf row) := fun row hrow =>
        (hdirOf row (List.mem_range.mp (List.mem_filter.mp hrow).1)).1
      by_cases hd : d ∈ v.seg.dirs.paths ∧ under d r.scope = true
      · obtain ⟨hmem, hu⟩ := hd
        obtain ⟨id, hid⟩ := List.mem_iff_getElem?.mp hmem
        have hlt := (List.getElem?_eq_some_iff.mp hid).1
        have hone : ∀ id', v.seg.dirs.paths[id']? = some d → id' = id := fun id' h' =>
          (List.getElem?_inj (List.getElem?_eq_some_iff.mp h').1 hnodup).mp (h'.trans hid.symm)
        rw [sum_map_single _ List.nodup_range _ id (List.mem_range.mpr hlt)]
        · rw [(hent id d _).mpr ⟨hid, hu, rfl⟩]
          simp only [if_true]
          rw [← hper, (foldl_charge_getD v r.now (r.wanted v) id rows _ (by simpa using hlt)
            (by rw [wanted_getD r v hsorted hscope id d hid, hu])).2]
          rw [List.getD_eq_getElem _ _ (by simpa using hlt), List.getElem_replicate, zero_add]
          refine (((hperm.filter _).map _).sum_eq).trans ?_
          congr 2
          apply List.filter_congr
          intro row hm
          have hr := hrow row hm
          rw [hu, Bool.and_true, Bool.eq_iff_iff, Bool.and_eq_true, Bool.and_eq_true, beq_iff_eq,
            beq_iff_eq, beq_iff_eq]
          apply and_congr_right
          intro _
          constructor
          · intro he
            rw [he, hid, Option.some.injEq] at hr
            exact hr.symm
          · intro he
            exact hone _ (he ▸ hr)
        · intro id' hne _
          cases he : r.entered v perDir id' with
          | none => rfl
          | some q =>
            obtain ⟨path, o⟩ := q
            obtain ⟨hp', -, -⟩ := (hent id' path o).mp he
            have : path ≠ d := by
              rintro rfl
              exact hne (hone id' hp')
            simp [this]
      · -- no directory in scope, and no row either
        rw [List.filter_eq_nil_iff.mpr, List.map_nil, List.sum_nil]
        · apply List.sum_eq_zero
          intro o ho
          obtain ⟨id, -, rfl⟩ := List.mem_map.mp ho
          cases he : r.entered v perDir id with
          | none => rfl
          | some q =>
            obtain ⟨path, o⟩ := q
            obtain ⟨hp', hu, -⟩ := (hent id path o).mp he
            have : path ≠ d := by
              rintro rfl
              exact hd ⟨List.mem_of_getElem? hp', hu⟩
            simp [this]
        · intro row hm hc
          simp only [Bool.and_eq_true, beq_iff_eq] at hc
          exact hd ⟨hc.2 ▸ List.mem_of_getElem? (hrow row hm), hc.1.2⟩
end Rollup
end Scour
