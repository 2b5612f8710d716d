import Scour.Lib.Frequency
import Scour.Pages

/-!
# Every way of reading the matches

`forEachMatch` hands over the rows of all segments that a query accepts and no pending removal
hides, until it is told to stop.  A scan builds a hit of each of them, and a facet request counts
them by what it was asked about.

`same_rows`: a scan, a search and a facet request read the same rows.
-/

namespace Scour

/-- `Kind::token`. -/
def Kind.token : Kind → String
  | .file => "file"
  | .dir => "folder"
  | .code => "code"
  | .image => "image"
  | .archive => "archive"
  | .doc => "doc"
  | .exec => "exec"
  | .media => "media"
  | .audio => "audio"
  | .video => "video"
  | .build => "build"
  | .data => "data"
  | .config => "config"
  | .font => "font"

/-- What a facet counts by. -/
inductive FacetBy where
  | kind
  | ext (top : UInt32)
  /-- Immediate children of this directory. -/
  | dir (path : Str) (top : UInt32)
  /-- Ages in days, in bands with these edges. -/
  | age (edges : List UInt32)
deriving DecidableEq

structure FacetRequest where
  query : Ast
  /-- The questions, all about the same rows. -/
  questions : List FacetBy

structure Facet where
  key : Str
  count : Nat
deriving DecidableEq

structure FacetGroup where
  question : FacetBy
  facets : List Facet
deriving DecidableEq

structure FacetResponse where
  groups : List FacetGroup
  /-- The first group, for a caller that asked one question. -/
  facets : List Facet
  question : FacetBy
  total : Nat
  capped : Bool
deriving DecidableEq

/-- How many rows a facet count looks at, -/
def FACET_SCAN_CAP : Nat := 200000

/-- and a distribution. -/
def AGE_SCAN_CAP : Nat := 2 ^ 64 - 1

namespace FacetBy

/-- The child of a directory that a path is or lies below. -/
def child (parent path : Str) : Option Str :=
  if parent.isPrefixOf path then
    match path.drop parent.length with
    | [] => none
    | b :: rest => if b = slash then some (rest.takeWhile (· ≠ slash)) else none
  else none

/-- The first band a number of days fits. -/
def ageBand (edges : List UInt32) (days : Int64) : String :=
  ((edges.find? fun e => days ≤ Int64.ofNat e.toNat).map fun e => toString e.toNat).getD "older"

/-- What a row is counted under. -/
def key (P : Platform) (now : Int64) (v : View) (row : Nat) (name : Str) : FacetBy → Option Str
  -- the token, not the label
  | .kind => some (str ((Kind.fromU8 (v.kind row % 256).toNat).getD .file).token)
  | .ext _ =>
      let ext := utf8 (DefaultFolder.fold P.case (chars (extStr name)))
      if ext = [] then none else some ext
  | .dir path _ => child (trimEnd path) (v.seg.path row name)
  | .age edges => some (str (ageBand edges (max (now - v.numOf .mtime row) 0 / 86400)))

def readsName : FacetBy → Bool
  | .ext _ | .dir _ _ => true
  | .kind | .age _ => false

/-- How many keys are answered. -/
def top : FacetBy → Nat
  | .kind => 16
  | .ext top | .dir _ top => max top.toNat 1
  -- every band
  | .age edges => edges.length + 1

def isAge : FacetBy → Bool
  | .age _ => true
  | _ => false

end FacetBy

/-- Rows one after the other, until one says stop. -/
def visitRows {σ : Type} (f : σ → Nat → σ × Bool) : σ → List Nat → σ × Bool
  | s, [] => (s, true)
  | s, row :: rows =>
      match f s row with
      | (s, true) => visitRows f s rows
      | (s, false) => (s, false)

section
variable {P : Platform} (hidden : PrefixSet) (query : Ast)

/-- A row is passed over where a pending removal takes it. -/
def OpenSegment.passing {σ : Type} (l : OpenSegment P) (f : σ → View → Nat → σ × Bool) (s : σ)
    (row : Nat) : σ × Bool :=
  let doomed := l.doomed hidden
  if !doomed.isEmpty && doomed.takes l.view.seg row (l.view.seg.dirId row) then (s, true)
  else f s l.view row

/-- Run `f` for every live row the query accepts, across all segments. -/
def forEachMatch {σ : Type} (f : σ → View → Nat → σ × Bool) :
    σ → List (OpenSegment P) → Except QueryError σ
  | s, [] => .ok s
  | s, l :: ls =>
      match (Plan.compile query l.view : Except QueryError (Plan P)) with
      | .error e => .error e
      | .ok plan =>
          match visitRows (l.passing hidden f) s (walkMatches l.view plan) with
          | (s, true) => forEachMatch f s ls
          | (s, false) => .ok s

/-- `NativeIndex::scan`: what is left of the caller, and how many rows it was handed. -/
def scan {σ : Type} (f : σ → Hit → σ × Bool) (s : σ) (ls : List (OpenSegment P)) :
    Except QueryError (σ × Nat) :=
  forEachMatch hidden query (fun s v row =>
    match v.seg.names[row]? with
    -- a row whose name cannot be read is skipped
    | none => (s, true)
    | some name =>
        let (t, go) := f s.1 (v.hit row name)
        ((t, s.2 + 1), go)) (s, 0) ls

end

namespace FacetRequest

variable (P : Platform) (req : FacetRequest) (now : Int64)

/-- The counts so far, and how many rows they are of. -/
structure Seen where
  counts : List (List (Str × Nat))
  seen : Nat

/-- The most demanding question decides. -/
def cap : Nat := if req.questions.any FacetBy.isAge then AGE_SCAN_CAP else FACET_SCAN_CAP

def wantsName : Bool := req.questions.any FacetBy.readsName

/-- One row, counted by every question. -/
def see (s : Seen) (v : View) (row : Nat) : Seen × Bool :=
  let name := if req.wantsName then (v.seg.names[row]?).getD [] else []
  let counts := List.zipWith (fun q m =>
    match q.key P now v row name with
    | some k => Search.oneMore k m
    | none => m) req.questions s.counts
  (⟨counts, s.seen + 1⟩, decide (s.seen + 1 < req.cap))

/-- Most first, then by key. -/
def facetLe (a b : Facet) : Prop := b.count < a.count ∨ (a.count = b.count ∧ a.key ≤ b.key)

instance decidableFacetLe : DecidableRel facetLe := fun a b => by unfold facetLe; infer_instance

def group (q : FacetBy) (counts : List (Str × Nat)) : FacetGroup :=
  ⟨q, ((counts.map fun r => (⟨r.1, r.2⟩ : Facet)).insertionSort facetLe).take q.top⟩

end FacetRequest

/-- `NativeIndex::facets`. -/
def facets {P : Platform} (hidden : PrefixSet) (req : FacetRequest) (now : Int64)
    (ls : List (OpenSegment P)) : Except QueryError FacetResponse :=
  match forEachMatch hidden req.query (req.see P now) ⟨req.questions.map fun _ => [], 0⟩ ls with
  | .error e => .error e
  | .ok s =>
      let groups := List.zipWith FacetRequest.group req.questions s.counts
      .ok { groups := groups
            facets := (groups.head?.map (·.facets)).getD []
            question := (groups.head?.map (·.question)).getD .kind
            total := s.seen
            capped := decide (req.cap ≤ s.seen) }

/-! ## The rows that are handed over -/

section
variable {σ : Type}

/-- A walk over rows ends where a row says stop, or has been over all of them. -/
theorem visitRows_cases (f : σ → Nat → σ × Bool) (rows : List Nat) : ∀ s : σ,
    (∃ t row, visitRows f s rows = f t row ∧ (f t row).2 = false) ∨
      visitRows f s rows = (rows.foldl (fun s row => (f s row).1) s, true) := by
  induction rows with
  | nil => exact fun s => Or.inr rfl
  | cons row rows ih =>
    intro s
    unfold visitRows
    cases hf : f s row with
    | mk t go =>
      cases go with
      | false => exact Or.inl ⟨s, row, by rw [hf], by rw [hf]⟩
      | true =>
        dsimp only
        rw [List.foldl_cons, hf]
        exact ih t

variable {P : Platform} {hidden : PrefixSet} {query : Ast}

/-- The rows of all segments as a walk comes to them. -/
def walkedRows (hidden : PrefixSet) (query : Ast) (ls : List (OpenSegment P)) : List (View × Nat) :=
  ls.flatMap fun l =>
    match (Plan.compile query l.view : Except QueryError (Plan P)) with
    | .error _ => []
    | .ok plan => ((walkMatches l.view plan).filter fun row => !l.hides hidden row).map fun row =>
        (l.view, row)

theorem passing_eq (l : OpenSegment P) (f : σ → View → Nat → σ × Bool) (s : σ) (row : Nat) :
    l.passing hidden f s row = if l.hides hidden row then (s, true) else f s l.view row := by
  unfold OpenSegment.passing OpenSegment.hides
  dsimp only
  cases hd : (l.doomed hidden).isEmpty with
  | true =>
    rw [Doomed.takes_of_isEmpty hd]
    rfl
  | false => rfl

theorem foldl_passing (l : OpenSegment P) (f : σ → View → Nat → σ × Bool) (rows : List Nat) :
    ∀ s : σ, rows.foldl (fun s row => (l.passing hidden f s row).1) s =
      ((rows.filter fun row => !l.hides hidden row).map fun row => (l.view, row)).foldl
        (fun s x => (f s x.1 x.2).1) s := by
  induction rows with
  | nil => exact fun _ => rfl
  | cons row rows ih =>
    intro s
    rw [List.foldl_cons, passing_eq]
    by_cases hr : l.hides hidden row = true
    · rw [if_pos hr, List.filter_cons_of_neg (by simp [hr])]
      exact ih s
    · rw [if_neg hr, List.filter_cons_of_pos (by simpa using hr), List.map_cons, List.foldl_cons]
      exact ih _

/-- Every matching row is handed over, unless one says stop. -/
theorem forEachMatch_cases (f : σ → View → Nat → σ × Bool) (ls : List (OpenSegment P)) : ∀ s : σ,
    (∃ t v row, forEachMatch hidden query f s ls = .ok (f t v row).1 ∧ (f t v row).2 = false) ∨
      forEachMatch hidden query f s ls = match queryError query ls with
        | some e => .error e
        | none => .ok ((walkedRows hidden query ls).foldl (fun s x => (f s x.1 x.2).1) s) := by
  induction ls with
  | nil => exact fun s => Or.inr rfl
  | cons l ls ih =>
    intro s
    unfold forEachMatch queryError
    cases hp : (Plan.compile query l.view : Except QueryError (Plan P)) with
    | error e => exact Or.inr rfl
    | ok plan =>
      have hwalked : walkedRows hidden query (l :: ls) =
          (((walkMatches l.view plan).filter fun row => !l.hides hidden row).map fun row =>
            (l.view, row)) ++ walkedRows hidden query ls := by
        unfold walkedRows
        rw [List.flatMap_cons, hp]
      rw [hwalked, List.foldl_append, ← foldl_passing]
      dsimp only
      rcases visitRows_cases (l.passing hidden f) (walkMatches l.view plan) s with
        ⟨t, row, hv, hstop⟩ | hv
      · left
        rw [passing_eq] at hv hstop
        split at hstop
        · cases hstop
        · rename_i hr
          rw [if_neg hr] at hv
          refine ⟨t, l.view, row, ?_, hstop⟩
          rw [hv]
          cases hf : f t l.view row with
          | mk a go =>
            rw [hf] at hstop
            cases hstop
            rfl
      · rw [hv]
        exact ih _

/-- The walks come to the rows that match, each once. -/
theorem walkedRows_perm (ls : List (OpenSegment P)) :
    (walkedRows hidden query ls).Perm (matchingRows hidden query ls) := by
  unfold walkedRows matchingRows
  apply List.Perm.flatMap_left
  intro l _
  cases hp : (Plan.compile query l.view : Except QueryError (Plan P)) with
  | error e => exact List.Perm.nil
  | ok plan =>
    dsimp only
    apply List.Perm.map
    refine ((walkMatches_perm (l.entries, l.alive) query plan hp).filter _).trans ?_
    rw [List.filter_filter]
    unfold OpenSegment.matching
    apply List.Perm.of_eq
    apply List.filter_congr
    intro row hrow
    have hbits := l.bits
    have hrows := l.rows_eq
    rw [List.mem_range] at hrow
    have hne : l.alive.isEmpty = false := by
      rw [Bool.eq_false_iff]
      intro hnil
      rw [List.isEmpty_iff.mp hnil] at hbits
      have : row < l.view.rows := hrow
      simp at hbits
      omega
    show (!l.hides hidden row && (_ && _ && (!l.alive.isEmpty || _))) = _
    rw [hne]
    simp [OpenSegment.view, Bool.and_comm]

/-! ## The scan -/

/-- A caller that keeps every hit. -/
def keepAll (hits : List Hit) (hit : Hit) : List Hit × Bool := (hits ++ [hit], true)

/-- The row of an answer. -/
def rowHit (x : View × Nat) : Hit := x.1.hit x.2 ((x.1.seg.names[x.2]?).getD [])

theorem mem_matchingRows {ls : List (OpenSegment P)} {x : View × Nat}
    (h : x ∈ matchingRows hidden query ls) : ∃ name, x.1.seg.names[x.2]? = some name := by
  unfold matchingRows at h
  obtain ⟨l, -, h⟩ := List.mem_flatMap.mp h
  split at h
  · cases h
  · obtain ⟨row, hrow, rfl⟩ := List.mem_map.mp h
    have hlt : row < l.entries.length := by
      rw [← l.rows_eq]
      exact List.mem_range.mp (List.mem_of_mem_filter hrow)
    exact ⟨_, View.opened_name (P := P) (List.getElem?_eq_getElem hlt)⟩

theorem scan_keepAll (ls : List (OpenSegment P)) :
    scan hidden query keepAll [] ls = match queryError query ls with
      | some e => .error e
      | none => .ok ((walkedRows hidden query ls).map rowHit,
          (walkedRows hidden query ls).length) := by
  have hfold : ∀ (rows : List (View × Nat)), (∀ x ∈ rows, ∃ name, x.1.seg.names[x.2]? = some name) →
      ∀ s : List Hit × Nat, rows.foldl (fun s x => (match x.1.seg.names[x.2]? with
        | none => (s, true)
        | some name =>
            let (t, go) := keepAll s.1 (x.1.hit x.2 name)
            ((t, s.2 + 1), go)).1) s = (s.1 ++ rows.map rowHit, s.2 + rows.length) := by
    intro rows hrows
    induction rows with
    | nil => simp
    | cons x rows ih =>
      intro s
      obtain ⟨name, hname⟩ := hrows x List.mem_cons_self
      rw [List.foldl_cons, ih fun y hy => hrows y (List.mem_cons_of_mem _ hy)]
      have hhit : rowHit x = x.1.hit x.2 name := by
        unfold rowHit
        rw [hname]
        rfl
      rw [hname, List.map_cons, hhit]
      simp only [keepAll, List.append_assoc, List.singleton_append, List.length_cons]
      rw [Nat.add_assoc, Nat.add_comm 1]
  unfold scan
  rcases @forEachMatch_cases _ _ hidden query (fun (s : List Hit × Nat) v row =>
    match v.seg.names[row]? with
    | none => (s, true)
    | some name =>
        let (t, go) := keepAll s.1 (v.hit row name)
        ((t, s.2 + 1), go)) ls ([], 0) with ⟨t, v, row, -, hstop⟩ | h
  · dsimp only at hstop
    split at hstop <;> cases hstop
  · rw [h]
    cases queryError query ls with
    | some e => rfl
    | none =>
      dsimp only
      rw [hfold _ fun x hx => mem_matchingRows ((walkedRows_perm ls).subset hx)]
      simp

/-! ## The counts -/

namespace FacetRequest

variable {req : FacetRequest} {now : Int64}

/-- What a question counts the rows under. -/
def keysOf (P : Platform) (req : FacetRequest) (now : Int64) (rows : List (View × Nat)) (q : FacetBy) :
    List Str :=
  rows.filterMap fun x =>
    q.key P now x.1 x.2 (if req.wantsName then (x.1.seg.names[x.2]?).getD [] else [])

/-- Every question counts every row once. -/
theorem foldl_see (rows : List (View × Nat)) : ∀ (m : FacetBy → List (Str × Nat)) (n : Nat),
    rows.foldl (fun s x => (req.see P now s x.1 x.2).1) ⟨req.questions.map m, n⟩ =
      ⟨req.questions.map fun q => Search.count (m q) (req.keysOf P now rows q), n + rows.length⟩ := by
  induction rows with
  | nil => exact fun m n => rfl
  | cons x rows ih =>
    intro m n
    have hsee : (req.see P now ⟨req.questions.map m, n⟩ x.1 x.2).1 =
        ⟨req.questions.map fun q => Search.count (m q) (req.keysOf P now [x] q), n + 1⟩ := by
      unfold see
      dsimp only
      rw [List.zipWith_map_right, List.zipWith_self]
      congr 1
      apply List.map_congr_left
      intro q _
      unfold keysOf
      rw [List.filterMap_cons]
      split <;> rename_i hk <;> rw [hk] <;> rfl
    rw [List.foldl_cons, hsee, ih, List.length_cons, Nat.add_assoc, Nat.add_comm 1]
    congr 1
    apply List.map_congr_left
    intro q _
    rw [← Search.count_append]
    unfold keysOf
    rw [← List.filterMap_append]
    rfl

/-- A question that counts every row under something. -/
def exhaustive : FacetBy → Bool
  | .kind | .age _ => true
  | .ext _ | .dir _ _ => false

theorem length_keysOf {q : FacetBy} (hq : exhaustive q = true) (rows : List (View × Nat)) :
    (req.keysOf P now rows q).length = rows.length := by
  unfold keysOf
  cases q with
  | kind | age edges => simp [FacetBy.key]
  | ext top | dir path top => cases hq

/-- The keys a question can have. -/
def possible : FacetBy → List Str
  | .kind => [Kind.file, .dir, .code, .image, .archive, .doc, .exec, .media, .audio, .video, .build,
      .data, .config, .font].map fun k => str k.token
  | .age edges => str "older" :: edges.map fun e => str (toString e.toNat)
  | .ext _ | .dir _ _ => []

theorem length_possible {q : FacetBy} (hq : exhaustive q = true) : (possible q).length ≤ q.top := by
  cases q with
  | kind => decide
  | age edges => simp [possible, FacetBy.top]
  | ext top | dir path top => cases hq

theorem keysOf_possible {q : FacetBy} (hq : exhaustive q = true) (rows : List (View × Nat)) :
    ∀ k ∈ req.keysOf P now rows q, k ∈ possible q := by
  intro k hk
  obtain ⟨x, -, hk⟩ := List.mem_filterMap.mp hk
  cases q with
  | kind =>
    rw [← Option.some.inj hk]
    refine List.mem_map.mpr ⟨_, ?_, rfl⟩
    generalize (Kind.fromU8 (x.1.kind x.2 % 256).toNat).getD .file = kind
    cases kind <;> simp
  | age edges =>
    rw [← Option.some.inj hk]
    unfold FacetBy.ageBand possible
    cases hf : edges.find? fun e =>
        decide (max (now - x.1.numOf .mtime x.2) 0 / 86400 ≤ Int64.ofNat e.toNat) with
    | none => exact List.mem_cons_self
    | some e =>
      exact List.mem_cons_of_mem _ (List.mem_map.mpr ⟨e, List.mem_of_find?_eq_some hf, rfl⟩)
  | ext top | dir path top => cases hq

/-- The counts of such a question add up to the rows: no key is cut off. -/
theorem sum_group {q : FacetBy} (hq : exhaustive q = true) (rows : List (View × Nat)) :
    (((group q (Search.count [] (req.keysOf P now rows q))).facets.map (·.count)).sum) =
      rows.length := by
  have hkeys : ∀ k ∈ req.keysOf P now rows q, k ∈ possible q := keysOf_possible hq rows
  have hlen := (Search.length_count_le hkeys).trans (length_possible hq)
  have hsum := Search.counted_count (req.keysOf P now rows q) []
  rw [length_keysOf hq] at hsum
  unfold group
  dsimp only
  rw [List.take_of_length_le (by simpa using hlen),
    ((List.perm_insertionSort facetLe _).map Facet.count).sum_eq, List.map_map]
  simpa [Search.counted, Function.comp_def] using hsum

end FacetRequest

/-- **Every way of reading the matches reads the same rows.**  A scan is handed the rows that match
and are not hidden, each once; a search counts as many, up to its cap; and so does a facet request
that was not cut short, which says as many as its kinds and its age bands add up to. -/
theorem same_rows (hidden : PrefixSet) (query : Ast) (ls : List (OpenSegment P)) :
    (match scan hidden query keepAll [] ls with
      | .error e => ∀ u (req : SearchRequest), req.query = query →
          search hidden req u ls = .error (.query e)
      | .ok (hits, n) => n = hits.length ∧
          hits.Perm ((matchingRows hidden query ls).map rowHit) ∧
          ∀ u (req : SearchRequest), req.query = query →
            (req.reaches hidden = true ∧ search hidden req u ls = .error .overflow) ∨
              ∃ p, search hidden req u ls = .ok p ∧ p.total = min hits.length req.cap) ∧
      ∀ questions now r, facets hidden ⟨query, questions⟩ now ls = .ok r → r.capped = false →
        ∃ hits, scan hidden query keepAll [] ls = .ok (hits, r.total) ∧ hits.length = r.total ∧
          r.groups.map (·.question) = questions ∧
          ∀ g ∈ r.groups, FacetRequest.exhaustive g.question = true →
            (g.facets.map (·.count)).sum = r.total := by
  constructor
  · rw [scan_keepAll]
    cases hq : queryError query ls with
    | some e =>
      intro u req hreq
      have htotal := @search_total P hidden req u ls
      rw [hreq, hq] at htotal
      exact htotal
    | none =>
      have hperm := @walkedRows_perm P hidden query ls
      refine ⟨by rw [List.length_map], hperm.map _, ?_⟩
      intro u req hreq
      have htotal := @search_total P hidden req u ls
      rw [hreq, hq] at htotal
      rw [List.length_map, hperm.length_eq]
      exact htotal
  · intro questions now r hr hcapped
    let req : FacetRequest := ⟨query, questions⟩
    unfold facets at hr
    rcases @forEachMatch_cases _ _ hidden query (req.see P now) ls
      ⟨questions.map fun _ => [], 0⟩ with ⟨t, v, row, h, hstop⟩ | h
    · -- a row that said stop was the last below the cap
      rw [h] at hr
      cases hr
      exact absurd (not_lt.mp (of_decide_eq_false hstop)) (of_decide_eq_false hcapped)
    · rw [h] at hr
      cases hq : queryError query ls with
      | some e =>
        rw [hq] at hr
        cases hr
      | none =>
        rw [hq, @FacetRequest.foldl_see P req] at hr
        cases hr
        have hscan := @scan_keepAll P hidden query ls
        rw [hq] at hscan
        dsimp only at hscan ⊢
        rw [Nat.zero_add]
        refine ⟨_, hscan, List.length_map _, ?_, ?_⟩
        · rw [List.zipWith_map_right, List.zipWith_self, List.map_map]
          exact List.map_id _
        · intro g hg hexhaustive
          rw [List.zipWith_map_right, List.zipWith_self] at hg
          obtain ⟨q, -, rfl⟩ := List.mem_map.mp hg
          exact FacetRequest.sum_group hexhaustive _

end

end Scour
