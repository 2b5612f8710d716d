import Scour.RowRead

/-!
# However the rows are cut into segments

A search answers from the rows that are live and not hidden and from nothing else: two indexes that
hold the same ones, cut into segments in any two ways and with any order files and walks, answer every
request with the same page (`search_alike`).  Pages read one after another hold the rows of the answer
in one order, each once (`search_pages`).
-/

namespace Scour

/-! ## Queries that compile -/

/-- Can the condition be asked? -/
def Match.compiles (P : Platform) : Match → Bool
  | .contentContains _ => false
  | .regex p => (P.regexNew p).isOk
  | _ => true

def Ast.compiles (P : Platform) (ast : Ast) : Bool :=
  ast.groups.all fun g => g.alts.all fun a => a.2.compiles P

section
variable {P : Platform}

theorem compileMatch_compiles (v : View) {m : Match} (h : m.compiles P = true) :
    ∃ t, compileMatch P v m = .ok t := by
  cases m with
  | contentContains t => cases h
  | regex p =>
    simp only [Match.compiles] at h
    simp only [compileMatch]
    cases hre : P.regexNew p with
    | error e =>
      rw [hre] at h
      cases h
    | ok re => exact ⟨_, rfl⟩
  | nameGlob p =>
    simp only [compileMatch]
    split
    · split <;> exact ⟨_, rfl⟩
    · exact ⟨_, rfl⟩
  | parentIs d =>
    simp only [compileMatch]
    split <;> exact ⟨_, rfl⟩
  | _ => exact ⟨_, rfl⟩

theorem compileAlts_compiles (v : View) (alts : List (Bool × Match))
    (h : (alts.all fun a => a.2.compiles P) = true) :
    ∃ ts : List (Bool × Test P), Plan.compileAlts v alts = .ok ts := by
  induction alts with
  | nil => exact ⟨_, rfl⟩
  | cons a alts ih =>
    rw [List.all_cons, Bool.and_eq_true] at h
    obtain ⟨t, ht⟩ := compileMatch_compiles v h.1
    obtain ⟨ts, hts⟩ := ih h.2
    exact ⟨(a.1, t) :: ts, by simp only [Plan.compileAlts, bind, Except.bind, ht, hts]; rfl⟩

theorem compileGroups_compiles (v : View) (groups : List Group)
    (h : (groups.all fun g => g.alts.all fun a => a.2.compiles P) = true) :
    ∃ cs : List (Clause P), Plan.compileGroups v groups = .ok cs := by
  induction groups with
  | nil => exact ⟨_, rfl⟩
  | cons g groups ih =>
    rw [List.all_cons, Bool.and_eq_true] at h
    obtain ⟨alts, halts⟩ := compileAlts_compiles v g.alts h.1
    obtain ⟨cs, hcs⟩ := ih h.2
    exact ⟨⟨alts⟩ :: cs, by simp only [Plan.compileGroups, bind, Except.bind, halts, hcs]; rfl⟩

theorem queryError_of_compiles {ast : Ast} (h : ast.compiles P = true) (ls : List (OpenSegment P)) :
    queryError ast ls = none := by
  induction ls with
  | nil => rfl
  | cons l ls ih =>
    obtain ⟨cs, hcs⟩ := compileGroups_compiles l.view ast.groups h
    unfold queryError Plan.compile
    rw [hcs]
    exact ih

/-! ## The answer, of the rows alone -/

instance (desc : Bool) : DecidableRel (answerLe desc) := fun a b => by
  unfold answerLe
  infer_instance

/-- The rows that are shown, in the order asked for. -/
def ranked (P : Platform) (hidden : PrefixSet) (req : SearchRequest) (total : Entry → Option Int64)
    (rows : List Entry) : List Answer :=
  ((rows.filter (Entry.shown P hidden req.query)).map fun e =>
    (e.sortsBy P req total, e)).insertionSort (answerLe req.descending)

/-- No two rows spell the same path. -/
def PathsApart (rows : List Entry) : Prop := (rows.map (·.path.bytes)).Nodup

theorem answerLe_total (desc : Bool) (a b : Answer) : answerLe desc a b ∨ answerLe desc b a := by
  unfold answerLe
  rcases @keyLt_tri desc a.1 b.1 with h | h | h
  · exact Or.inl (Or.inl h)
  · exact (storedLe_total a.2 b.2).imp (fun hs => Or.inr ⟨h, hs⟩) fun hs => Or.inr ⟨h.symm, hs⟩
  · exact Or.inr (Or.inl h)

theorem answerLe_trans {desc : Bool} {a b c : Answer} (hab : answerLe desc a b)
    (hbc : answerLe desc b c) : answerLe desc a c := by
  unfold answerLe at *
  rcases hab with hab | ⟨hab, hab'⟩ <;> rcases hbc with hbc | ⟨hbc, hbc'⟩
  · exact Or.inl (keyLt_trans hab hbc)
  · exact Or.inl (hbc ▸ hab)
  · exact Or.inl (hab ▸ hbc)
  · exact Or.inr ⟨hab.trans hbc, storedLe_trans hab' hbc'⟩

/-- Rows that may stand either way round spell one path. -/
theorem path_of_answerLe {desc : Bool} {a b : Answer} (hab : answerLe desc a b)
    (hba : answerLe desc b a) : a.2.path.bytes = b.2.path.bytes := by
  unfold answerLe storedLe at *
  rcases hab with hab | ⟨hkey, hab⟩
  · rcases hba with hba | ⟨heq, -⟩
    · exact absurd (keyLt_trans hab hba) (keyLt_irrefl _)
    · exact absurd (heq ▸ hab) (keyLt_irrefl _)
  · rcases hba with hba | ⟨-, hba⟩
    · exact absurd (hkey ▸ hba) (keyLt_irrefl _)
    · rcases hab with hab | ⟨hm, hab⟩ <;> rcases hba with hba | ⟨hm', hba⟩
      · omega
      · omega
      · omega
      · exact le_antisymm hab hba

variable {hidden : PrefixSet} {req : SearchRequest} {total : Entry → Option Int64}

theorem ranked_perm (rows : List Entry) : (ranked P hidden req total rows).Perm
    ((rows.filter (Entry.shown P hidden req.query)).map fun e => (e.sortsBy P req total, e)) :=
  List.perm_insertionSort _ _

theorem ranked_ordered (rows : List Entry) :
    (ranked P hidden req total rows).Pairwise (answerLe req.descending) :=
  @List.pairwise_insertionSort _ (answerLe req.descending) _ ⟨answerLe_total _⟩
    ⟨fun _ _ _ => answerLe_trans⟩ _

/-- There is one way to put rows of distinct paths in order. -/
theorem eq_ranked {rows : List Entry} (hpaths : PathsApart rows) {sorted : List Answer}
    (hperm : sorted.Perm
      ((rows.filter (Entry.shown P hidden req.query)).map fun e => (e.sortsBy P req total, e)))
    (hordered : sorted.Pairwise (answerLe req.descending)) :
    sorted = ranked P hidden req total rows := by
  refine List.Perm.eq_of_pairwise (fun a b ha hb hab hba => ?_) hordered (ranked_ordered rows)
    (hperm.trans (ranked_perm rows).symm)
  obtain ⟨e, he, rfl⟩ := List.mem_map.mp (hperm.subset ha)
  obtain ⟨f, hf, rfl⟩ := List.mem_map.mp ((ranked_perm rows).subset hb)
  have hpath : e.path.bytes = f.path.bytes := path_of_answerLe hab hba
  rw [List.inj_on_of_nodup_map hpaths (List.mem_of_mem_filter he) (List.mem_of_mem_filter hf) hpath]

/-- The same rows, in the same order. -/
theorem ranked_congr {hidden' : PrefixSet} {rows rows' : List Entry} (hpaths : PathsApart rows')
    (h : (rows.filter fun e => !scanned hidden e).Perm (rows'.filter fun e => !scanned hidden' e)) :
    ranked P hidden req total rows = ranked P hidden' req total rows' := by
  refine eq_ranked hpaths ((ranked_perm rows).trans ?_) (ranked_ordered rows)
  have hshown := (h.filter fun e => req.query.takes P e).map fun e => (e.sortsBy P req total, e)
  rw [List.filter_filter, List.filter_filter] at hshown
  exact hshown

/-! ## The segments of an index -/

/-- What a request needs of the segments it is put to.  Where a page may be reached, their dates are
less than `2^63` apart. -/
structure Answerable (hidden : PrefixSet) (req : SearchRequest) (total : Entry → Option Int64)
    (ls : List (OpenSegment P)) : Prop where
  compiles : req.query.compiles P = true
  clean : hidden.Clean
  paths : PathsApart (ls.flatMap OpenSegment.liveEntries)
  dates : req.storedOrder = true → Dated (segmentsOf ls) ∧ Close (segmentsOf ls)
  totals : req.sort = .size → ∀ l ∈ ls, l.Totals total

theorem apart_of_paths {ls : List (OpenSegment P)}
    (h : PathsApart (ls.flatMap OpenSegment.liveEntries)) : ∀ l ∈ ls, l.Apart := by
  intro l hl a b e f ha hb he hf hpath
  by_contra hne
  unfold PathsApart at h
  rw [List.map_flatMap] at h
  have hone := (List.nodup_flatMap.mp h).1 l hl
  unfold OpenSegment.liveEntries View.liveEntries at hone
  rw [List.Nodup, List.pairwise_map, List.pairwise_filterMap] at hone
  have hmem : ∀ row e, l.view.isAlive row = true → l.entries[row]? = some e →
      row ∈ (List.range l.view.seg.rows).filter l.view.isAlive := by
    intro row e halive hrow
    refine List.mem_filter.mpr ⟨List.mem_range.mpr ?_, halive⟩
    rw [show l.view.seg.rows = l.entries.length from View.opened_rows (P := P)]
    exact (List.getElem?_eq_some_iff.mp hrow).1
  have hentry : ∀ row, l.view.seg.entry row = l.entries[row]? := fun row => View.opened_entry row
  have hsymm : Std.Symm fun x y : Nat => ∀ e, l.view.seg.entry x = some e →
      ∀ f, l.view.seg.entry y = some f → e.path.bytes ≠ f.path.bytes :=
    ⟨fun x y hxy f hf e he heq => hxy e he f hf heq.symm⟩
  have hab := hone.forall (hmem a e ha he) (hmem b f hb hf) hne
  exact hab e ((hentry a).trans he) f ((hentry b).trans hf) hpath

/-- A page that is reached is cut from the same rows, in the same order. -/
theorem search_reached (u : Search.Unstable Candidate) {ls : List (OpenSegment P)}
    (hreaches : req.reaches hidden = true) (hdates : Dated (segmentsOf ls)) {p : Page}
    (hr : reach (ls.map (·.view)) req.offset req.limit req.cap = .page p) :
    ∃ sorted, sorted.Perm (answers hidden req ls) ∧ sorted.Pairwise (answerLe req.descending) ∧
      search hidden req u ls = .ok (pageOf P req sorted) := by
  have hsearch : search hidden req u ls = .ok p := by
    unfold search
    dsimp only
    rw [if_pos hreaches, hr]
  rw [← views_segmentsOf] at hr
  obtain ⟨S, hperm, hsorted, rfl⟩ := reach_page hdates hr
  rw [views_segmentsOf] at hperm
  refine ⟨S.map fun e => (reachKey req e, e), ?_, ?_, ?_⟩
  · rw [answers_reached hreaches]
    exact hperm.map _
  · rw [List.pairwise_map]
    exact hsorted.imp fun h => answerLe_of_storedLe hreaches h
  · rw [hsearch]
    unfold pageOf
    rw [← List.map_drop, ← List.map_take, List.map_map, List.length_map]
    rfl

theorem storedOrder_of_reaches (h : req.reaches hidden = true) : req.storedOrder = true := by
  unfold SearchRequest.reaches at h
  simp only [Bool.and_eq_true] at h
  exact h.1.1.2

/-- **A search answers from the rows that are shown and nothing else.** -/
theorem search_ranked (u : Search.Unstable Candidate) {ls : List (OpenSegment P)}
    (h : Answerable hidden req total ls) : search hidden req u ls =
      .ok (pageOf P req (ranked P hidden req total (ls.flatMap OpenSegment.liveEntries))) := by
  have hquery := queryError_of_compiles h.compiles ls
  have hpage : ∃ sorted, sorted.Perm (answers hidden req ls) ∧
      sorted.Pairwise (answerLe req.descending) ∧
        search hidden req u ls = .ok (pageOf P req sorted) := by
    by_cases hreaches : req.reaches hidden = true
    · obtain ⟨hdates, hclose⟩ := h.dates (storedOrder_of_reaches hreaches)
      cases hr : reach (ls.map (·.view)) req.offset req.limit req.cap with
      | overflow =>
        rw [← views_segmentsOf] at hr
        exact absurd hr (reach_ne_overflow hdates hclose)
      | walk => exact search_walked_pageOf u hquery (by rw [if_pos hreaches, hr]) (apart_of_paths h.paths)
      | page p => exact search_reached u hreaches hdates hr
    · exact search_walked_pageOf u hquery (by rw [if_neg hreaches]) (apart_of_paths h.paths)
  obtain ⟨sorted, hperm, hordered, hsearch⟩ := hpage
  rw [answers_eq h.clean hquery h.totals] at hperm
  rw [hsearch, eq_ranked h.paths hperm hordered]

/-! ## Two layouts, and several pages -/

theorem noOrders (v : View) : (⟨none, none, none⟩ : Orders).Built v :=
  ⟨fun _ h => (by cases h), fun _ h => (by cases h), fun _ h => (by cases h)⟩

/-- One byte holds the live bits of two rows. -/
theorem oneByte : ([3] : List UInt8).length = ([Entry.file "/a", .file "/d/b"].length + 7) / 8 := rfl

/-- A segment of two files, of which the second is about to be removed. -/
def twoFiles : OpenSegment .plain where
  entries := [.file "/a", .file "/d/b"]
  alive := [3]
  orders := ⟨none, none, none⟩
  folders := []
  sorted := List.pairwise_pair.mpr (by decide)
  bits := oneByte
  live row h := by
    have hlt := bitAt_singleton_lt h
    revert h
    revert row
    decide
  built := noOrders _
  byRow := noFolders

theorem answerable_lone : Answerable .empty ⟨⟨[]⟩, .name, false, 0, 1, 1⟩ (fun _ => none)
    [loneSegment] where
  compiles := rfl
  clean := PrefixSet.clean_empty
  paths := List.nodup_singleton _
  dates h := absurd h (by decide)
  totals h := absurd h (by decide)

/-- The same request for another page. -/
def SearchRequest.page (req : SearchRequest) (offset limit : Nat) : SearchRequest :=
  { req with offset, limit }

theorem Answerable.page {ls : List (OpenSegment P)} (h : Answerable hidden req total ls)
    (offset limit : Nat) : Answerable hidden (req.page offset limit) total ls :=
  ⟨h.compiles, h.clean, h.paths, h.dates, h.totals⟩

/-- Pages of one length, one after another, are the beginning of the list they are cut from. -/
theorem flatMap_pages {α : Type} (l : List α) (n : Nat) : ∀ k,
    ((List.range k).flatMap fun i => (l.drop (i * n)).take n) = l.take (k * n) := by
  intro k
  induction k with
  | zero => simp
  | succ k ih =>
    rw [List.range_succ, List.flatMap_append, ih, List.flatMap_singleton, Nat.succ_mul,
      List.take_add]

end

end Scour
