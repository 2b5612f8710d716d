import Scour.Doomed
import Scour.Lib.Select
import Scour.WalkCounted

/-!
# A search over all segments

`NativeIndex::search`: every segment hands over the rows that may be on the page, the window of the
page is selected from all of them, and the matches are counted up to the cap.  `hidden` are the
pending removals, whose rows no reader is shown.

`search_total`: whatever the order asked for, the page, the order files and the folder tables, the
total is the number of rows that match and are not hidden, up to the cap.
-/

namespace Scour

/-- A segment as the readers hold it: the rows in the order they were written, with which of them
are live, the order files it has, and the table a search by size finds for it. -/
structure OpenSegment (P : Platform) where
  entries : List Entry
  alive : Str
  orders : Orders
  folders : Folders
  sorted : entries.Pairwise storedLe
  bits : alive.length = (entries.length + 7) / 8
  /-- No bit past the last row. -/
  live : ∀ row, bitAt alive row = true → row < entries.length
  built : orders.Built (View.opened P (entries, alive))
  byRow : folders.Pairwise fun f g => f.1 < g.1

namespace OpenSegment

variable {P : Platform} (l : OpenSegment P)

def view : View := View.opened P (l.entries, l.alive)

def liveRows : Nat := (l.alive.map countOnes).sum

def doomed (hidden : PrefixSet) : Doomed := .new l.view.seg hidden

/-- The veto of a search, where a pending removal reaches the segment. -/
def conceals (hidden : PrefixSet) : Option (Nat → Str → Bool) :=
  if (l.doomed hidden).isEmpty then none
  else some fun row _ => (l.doomed hidden).takes l.view.seg row (l.view.seg.dirId row)

end OpenSegment

/-! ## The request -/

structure SearchRequest where
  query : Ast
  sort : SortKey
  descending : Bool
  offset : Nat
  limit : Nat
  countCap : Nat

inductive SearchError where
  | query (e : QueryError)
  /-- A subtraction that does not fit in 64 bits. -/
  | overflow
  /-- A walk with no budget always answers. -/
  | unanswered

/-- Where a page is reached instead of walked to. -/
def REACH_FROM : Nat := 2000

namespace SearchRequest

variable (req : SearchRequest)

def need : Nat := req.offset + req.limit

def cap : Nat := max req.countCap 1

def storedOrder : Bool :=
  (req.sort == .modified || req.sort == .relevance) && req.descending

/-- The one shape that allows a page to be reached. -/
def reaches (hidden : PrefixSet) : Bool :=
  decide (REACH_FROM ≤ req.offset) && req.storedOrder && req.query.groups.isEmpty && hidden.isEmpty

end SearchRequest

/-! ## The merge -/

/-- A row that might be on the page, ordered but not built. -/
structure Candidate where
  key : SortValue
  /-- What breaks a tie on the key: newest first. -/
  mtime : Int
  seg : Nat
  row : Nat
deriving DecidableEq

namespace Candidate

variable (views : List View)

/-- What an abbreviated key abbreviates. -/
def text (sort : SortKey) (c : Candidate) : Str :=
  match views[c.seg]? with
  | none => []
  | some v =>
      match sort with
      | .name => v.foldedName c.row
      | .ext => foldedExtension (v.seg.names.getD c.row []) (v.foldedName c.row)
      | _ => []

def path (c : Candidate) : Str :=
  match views[c.seg]? with
  | none => []
  | some v => v.joined c.row

/-- The order the merge imposes.  Inside one segment the row number is the path order. -/
def cmp (sort : SortKey) (desc : Bool) (a b : Candidate) : Ordering :=
  let o := compare a.key b.key
  let o := if o.isEq ∧ keyIsExact sort = false then
      compare (a.text views sort) (b.text views sort) else o
  let o := if desc then o.swap else o
  o.then ((compare b.mtime a.mtime).then
    (if a.seg = b.seg then compare a.row b.row else compare (a.path views) (b.path views)))

def hit (c : Candidate) : Option Hit :=
  (views[c.seg]?).bind fun v => (v.seg.names[c.row]?).map fun name => v.hit c.row name

end Candidate

/-- What a search has pooled so far. -/
structure Pooled where
  counted : Nat
  /-- What is left of the count. -/
  budget : Nat
  pool : List Candidate

section
variable {P : Platform} (hidden : PrefixSet) (req : SearchRequest)

/-- One segment's candidates. -/
def searchSegment (which : Nat) (l : OpenSegment P) (s : Pooled) : Except SearchError Pooled :=
  match Plan.compile req.query l.view with
  | .error e => .error (.query e)
  | .ok plan =>
      -- a query with no conditions matches every live row
      let matchesAll := (l.doomed hidden).isEmpty && plan.isEmpty
      if matchesAll ∧ req.need = 0 then
        .ok { s with counted := s.counted + l.liveRows, budget := s.budget - l.liveRows }
      else
        match runWith l.view l.orders (plan : Plan P)
          { sort := req.sort
            descending := req.descending
            offset := 0
            limit := req.need
            countCap := if matchesAll then req.need else s.budget }
          (l.conceals hidden) (if req.sort = .size then l.folders else []) with
        | none => .error .unanswered
        | some found =>
            let total := if matchesAll then l.liveRows else found.total
            .ok { counted := s.counted + total
                  budget := s.budget - total
                  pool := s.pool ++ found.ranked.map fun r => ⟨r.key, r.mtime, which, r.row⟩ }

def searchSegments : Nat → List (OpenSegment P) → Pooled → Except SearchError Pooled
  | _, [], s => .ok s
  | which, l :: ls, s =>
      match searchSegment hidden req which l s with
      | .error e => .error e
      | .ok s => searchSegments (which + 1) ls s

/-- `NativeIndex::search`. -/
def search (u : Search.Unstable Candidate) (ls : List (OpenSegment P)) : Except SearchError Page :=
  let views := ls.map (·.view)
  match if req.reaches hidden then reach views req.offset req.limit req.cap else .walk with
  | .overflow => .error .overflow
  | .page p => .ok p
  | .walk =>
      match searchSegments hidden req 0 ls ⟨0, req.cap, []⟩ with
      | .error e => .error e
      | .ok s =>
          let window :=
            u.window (Candidate.cmp views req.sort req.descending) s.pool req.offset req.limit
          .ok ⟨window.filterMap (Candidate.hit views), min s.counted req.cap,
            decide (req.cap ≤ s.counted)⟩

end

/-! ## What is counted -/

theorem Doomed.takes_of_isEmpty {d : Doomed} (h : d.isEmpty = true) (seg : Segment) (row dir : Nat) :
    d.takes seg row dir = false := by
  unfold Doomed.isEmpty at h
  rw [Bool.and_eq_true, List.isEmpty_iff, List.isEmpty_iff] at h
  unfold Doomed.takes Search.inRanges
  rw [h.1, h.2]
  rfl

namespace OpenSegment

variable {P : Platform} (l : OpenSegment P) (hidden : PrefixSet)

/-- A pending removal hides the row. -/
def hides (row : Nat) : Bool := (l.doomed hidden).takes l.view.seg row (l.view.seg.dirId row)

/-- The rows of the segment that match and are not hidden. -/
def matching (plan : Plan P) : List Nat :=
  (List.range l.view.rows).filter fun row =>
    l.view.isAlive row && plan.accepts l.view row (l.view.foldedName row) && !l.hides hidden row

theorem rows_eq : l.view.rows = l.entries.length := View.buildSorted_rows P l.entries

theorem liveRows_eq : l.liveRows = (List.range l.view.rows).countP l.view.isAlive := by
  have hrank := LiveRank.upto_eq l.view l.view.rows (8 * l.alive.length)
  have hbits := l.bits
  have hrows := l.rows_eq
  have halive : l.view.alive = l.alive := rfl
  have hmin : min (8 * l.alive.length) l.view.rows = l.view.rows := by omega
  by_cases hnil : l.alive = []
  · have hnone : l.view.rows = 0 := by
      rw [hnil] at hmin
      simpa using hmin.symm
    unfold liveRows
    rw [hnil, hnone]
    rfl
  · rw [halive, LiveRank.upto_onesIn _ _ _ hnil, hmin] at hrank
    have hsum := sum_bytes l.alive 0 l.alive.length
    rw [Nat.zero_add, List.take_length, List.drop_zero, Nat.mul_zero] at hsum
    -- past the rows no bit is set
    have htail : onesIn l.alive l.view.rows (8 * l.alive.length) = 0 := by
      unfold onesIn
      rw [List.countP_eq_zero]
      intro row hrow hbit
      have := l.live row hbit
      rw [List.mem_range'_1] at hrow
      omega
    have hadd := onesIn_add l.alive (Nat.zero_le l.view.rows) (show _ ≤ 8 * l.alive.length by omega)
    unfold liveRows
    omega

theorem matching_all {plan : Plan P} (hplan : plan.isEmpty = true)
    (hd : (l.doomed hidden).isEmpty = true) : (l.matching hidden plan).length = l.liveRows := by
  rw [liveRows_eq, matching, List.countP_eq_length_filter]
  have hclauses : plan.clauses = [] := List.isEmpty_iff.mp hplan
  congr 1
  apply List.filter_congr
  intro row _
  have haccepts : plan.accepts l.view row (l.view.foldedName row) = true := by
    unfold Plan.accepts
    rw [hclauses]
    rfl
  have hhides : l.hides hidden row = false := Doomed.takes_of_isEmpty hd _ _ _
  rw [haccepts, hhides]
  simp

/-- The walk of a search over the segment. -/
def walk (plan : Plan P) (want : Scour.Wanted) (folders : Folders) (named : Option Nat) :
    SegmentWalk P :=
  ⟨l.view, l.orders, plan, want, l.conceals hidden, folders, named⟩

theorem shownRows_walk (plan : Plan P) (want : Scour.Wanted) (folders : Folders)
    (named : Option Nat) :
    (l.walk hidden plan want folders named).shownRows = l.matching hidden plan := by
  unfold SegmentWalk.shownRows matching
  apply List.filter_congr
  intro row _
  unfold SegmentWalk.shown SegmentWalk.shows walk conceals hides
  dsimp only
  cases hd : (l.doomed hidden).isEmpty with
  | true =>
    rw [Doomed.takes_of_isEmpty hd]
    rfl
  | false => rfl

variable {l hidden}

theorem sound_walk {ast : Ast} {plan : Plan P} (hp : Plan.compile ast l.view = .ok plan)
    (want : Scour.Wanted) {folders : Folders} (hfolders : folders.Pairwise fun f g => f.1 < g.1)
    (named : Option Nat) : (l.walk hidden plan want folders named).Sound where
  complete := complete_opened l.bits hp l.orders want (l.conceals hidden) folders named
  built := l.built
  rows := (View.opened_rows (P := P)).trans l.rows_eq.symm
  kinds := by
    show l.view.rows ≤ l.view.kinds.length
    rw [rows_eq]
    simp [view, View.opened, View.buildSorted]
  folders := hfolders

end OpenSegment

section
variable {P : Platform} {hidden : PrefixSet} {req : SearchRequest}

/-- What one segment adds to the count: its matches, as far as what is left of the cap. -/
theorem searchSegment_counted {l : OpenSegment P} {plan : Plan P}
    (hp : Plan.compile req.query l.view = .ok plan) (which : Nat) (s : Pooled) :
    ∃ s' n, searchSegment hidden req which l s = .ok s' ∧ s'.counted = s.counted + n ∧
      s'.budget = s.budget - n ∧ n ≤ (l.matching hidden plan).length ∧
      min (l.matching hidden plan).length s.budget ≤ n := by
  unfold searchSegment
  rw [hp]
  dsimp only
  have hfound : ∀ (want : Scour.Wanted) (folders : Folders), (folders.Pairwise fun f g => f.1 < g.1) →
      ∃ f, runWith l.view l.orders plan want (l.conceals hidden) folders = some f ∧
        f.total = min (l.matching hidden plan).length want.countCap := by
    intro want folders hfolders
    obtain ⟨f, named, hrun, hf⟩ :=
      @runWith_found P l.view l.orders plan want (l.conceals hidden) folders
    refine ⟨f, hrun, ?_⟩
    have htotal := SegmentWalk.found_total (OpenSegment.sound_walk hp want hfolders named) hf
    rwa [OpenSegment.shownRows_walk] at htotal
  have hfolders : (if req.sort = .size then l.folders else []).Pairwise fun f g => f.1 < g.1 := by
    split
    · exact l.byRow
    · exact List.Pairwise.nil
  generalize (if req.sort = .size then l.folders else []) = folders at hfolders
  by_cases hall : ((l.doomed hidden).isEmpty && plan.isEmpty) = true
  · rw [Bool.and_eq_true] at hall
    have hlive := l.matching_all hidden hall.2 hall.1
    rw [hall.1, hall.2]
    simp only [Bool.and_self, true_and, if_true]
    split
    · exact ⟨_, l.liveRows, rfl, rfl, rfl, hlive.ge, hlive ▸ Nat.min_le_left _ _⟩
    · obtain ⟨f, hrun, -⟩ := hfound ⟨req.sort, req.descending, 0, req.need, req.need⟩ folders hfolders
      rw [hrun]
      exact ⟨_, l.liveRows, rfl, rfl, rfl, hlive.ge, hlive ▸ Nat.min_le_left _ _⟩
  · rw [Bool.not_eq_true] at hall
    rw [hall]
    simp only [Bool.false_eq_true, false_and, if_false]
    obtain ⟨f, hrun, htotal⟩ := hfound ⟨req.sort, req.descending, 0, req.need, s.budget⟩ folders
      hfolders
    dsimp only at htotal
    rw [hrun]
    exact ⟨_, f.total, rfl, rfl, rfl, by omega, by omega⟩

/-- The first error among the plans of the segments. -/
def queryError (query : Ast) : List (OpenSegment P) → Option QueryError
  | [] => none
  | l :: ls =>
      match (Plan.compile query l.view : Except QueryError (Plan P)) with
      | .error e => some e
      | .ok _ => queryError query ls

/-- The rows of all segments that match and are not hidden, each with the segment it lies in. -/
def matchingRows (hidden : PrefixSet) (query : Ast) (ls : List (OpenSegment P)) :
    List (View × Nat) :=
  ls.flatMap fun l =>
    match (Plan.compile query l.view : Except QueryError (Plan P)) with
    | .error _ => []
    | .ok plan => (l.matching hidden plan).map fun row => (l.view, row)

theorem matchingRows_cons {query : Ast} {l : OpenSegment P} {plan : Plan P}
    (hp : Plan.compile query l.view = .ok plan) (ls : List (OpenSegment P)) :
    matchingRows hidden query (l :: ls) =
      (l.matching hidden plan).map (fun row => (l.view, row)) ++ matchingRows hidden query ls := by
  unfold matchingRows
  rw [List.flatMap_cons, hp]

theorem searchSegments_counted (ls : List (OpenSegment P)) : ∀ (which : Nat) (s : Pooled),
    match queryError req.query ls with
    | some e => searchSegments hidden req which ls s = .error (.query e)
    | none => ∃ s' n, searchSegments hidden req which ls s = .ok s' ∧ s'.counted = s.counted + n ∧
        n ≤ (matchingRows hidden req.query ls).length ∧
        min (matchingRows hidden req.query ls).length s.budget ≤ n := by
  induction ls with
  | nil => exact fun _ s => ⟨s, 0, rfl, rfl, Nat.zero_le _, by simp [matchingRows]⟩
  | cons l ls ih =>
    intro which s
    unfold queryError searchSegments
    cases hp : (Plan.compile req.query l.view : Except QueryError (Plan P)) with
    | error e =>
      unfold searchSegment
      rw [hp]
    | ok plan =>
      obtain ⟨s', n, hs, hcounted, hbudget, hle, hcap⟩ :=
        @searchSegment_counted P hidden _ _ _ hp which s
      rw [hs, matchingRows_cons hp]
      have ih := ih (which + 1) s'
      dsimp only
      cases hq : queryError req.query ls with
      | some e =>
        rw [hq] at ih
        exact ih
      | none =>
        rw [hq] at ih
        obtain ⟨t, m, ht, hc, hm, hmin⟩ := ih
        refine ⟨t, n + m, ht, by omega, ?_, ?_⟩ <;>
          rw [List.length_append, List.length_map] <;> omega

/-- A page that is reached counts every live row. -/
theorem reach_total {views : List View} {offset limit cap : Nat} {p : Page}
    (h : reach views offset limit cap = .page p) : p.total =
      min (views.map fun v => (LiveRank.build v.alive v.seg.rows).total v.alive).sum cap := by
  unfold reach at h
  dsimp only at h
  split at h
  · cases h
    rfl
  · split at h
    · cases h
      rfl
    · split at h
      · cases h
      · split at h
        · cases h
        · split at h
          · cases h
          · cases h
            rfl

theorem queryError_of_isEmpty {query : Ast} (h : query.groups.isEmpty = true)
    (ls : List (OpenSegment P)) : queryError query ls = none := by
  rw [List.isEmpty_iff] at h
  induction ls with
  | nil => rfl
  | cons l ls ih =>
    unfold queryError
    rw [show (Plan.compile query l.view : Except QueryError (Plan P)) = .ok _ by
      unfold Plan.compile
      rw [h]
      rfl]
    exact ih

/-- With nothing asked and nothing hidden every live row is a match. -/
theorem length_matchingRows_live {query : Ast} (hq : query.groups.isEmpty = true)
    (hh : hidden.isEmpty = true) (ls : List (OpenSegment P)) :
    (matchingRows hidden query ls).length =
      ((ls.map (·.view)).map fun v => (LiveRank.build v.alive v.seg.rows).total v.alive).sum := by
  unfold matchingRows
  rw [List.length_flatMap, List.map_map]
  congr 1
  apply List.map_congr_left
  intro l _
  have hdoomed : (l.doomed hidden).isEmpty = true := by
    unfold OpenSegment.doomed Doomed.new Doomed.isEmpty
    rw [List.isEmpty_iff.mp hh]
    rfl
  have hrows : l.view.seg.rows = l.view.rows := (View.opened_rows (P := P)).trans l.rows_eq.symm
  have hlive := l.liveRows_eq
  unfold LiveRank.total
  rw [Function.comp_apply, LiveRank.build_rows, LiveRank.upto_eq, Nat.min_self, hrows, ← hlive]
  cases hp : (Plan.compile query l.view : Except QueryError (Plan P)) with
  | error e =>
    have hnone := queryError_of_isEmpty hq [l]
    unfold queryError at hnone
    rw [hp] at hnone
    cases hnone
  | ok plan =>
    dsimp only
    rw [List.length_map, l.matching_all hidden ((Plan.compile_isEmpty _ _ _ hp).trans hq) hdoomed]

/-- **The total of a page** is the number of rows that match and are not hidden, up to the cap. -/
theorem search_total (u : Search.Unstable Candidate) (ls : List (OpenSegment P)) :
    match queryError req.query ls with
    | some e => search hidden req u ls = .error (.query e)
    | none => (req.reaches hidden = true ∧ search hidden req u ls = .error .overflow) ∨
        ∃ p, search hidden req u ls = .ok p ∧
          p.total = min (matchingRows hidden req.query ls).length req.cap := by
  have hwalked := @searchSegments_counted P hidden req ls 0 ⟨0, req.cap, []⟩
  unfold search
  dsimp only
  by_cases hreaches : req.reaches hidden = true
  · have hempty : req.query.groups.isEmpty = true ∧ hidden.isEmpty = true := by
      unfold SearchRequest.reaches at hreaches
      simp only [Bool.and_eq_true] at hreaches
      exact ⟨hreaches.1.2, hreaches.2⟩
    rw [queryError_of_isEmpty hempty.1] at hwalked ⊢
    obtain ⟨s, n, hs, hcounted, hle, hmin⟩ := hwalked
    rw [if_pos hreaches]
    dsimp only
    cases hr : reach (ls.map (·.view)) req.offset req.limit req.cap with
    | overflow => exact Or.inl ⟨hreaches, rfl⟩
    | page p =>
      refine Or.inr ⟨p, rfl, ?_⟩
      rw [reach_total hr, length_matchingRows_live hempty.1 hempty.2]
    | walk =>
      dsimp only
      rw [hs]
      refine Or.inr ⟨_, rfl, ?_⟩
      dsimp only at hcounted hmin ⊢
      omega
  · rw [if_neg hreaches]
    cases hq : queryError req.query ls with
    | some e =>
      rw [hq] at hwalked
      dsimp only at hwalked ⊢
      rw [hwalked]
    | none =>
      rw [hq] at hwalked
      obtain ⟨s, n, hs, hcounted, hle, hmin⟩ := hwalked
      dsimp only
      rw [hs]
      refine Or.inr ⟨_, rfl, ?_⟩
      dsimp only at hcounted hmin ⊢
      omega

end

end Scour
