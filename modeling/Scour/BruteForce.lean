import Scour.Merged

/-!
# A page is the brute-force page

What a search answers is cut from the list of all rows that match and are not hidden, sorted by the
key in full in the direction asked for, then newest first, then by path (`search_page`): whichever
way each segment is walked, and where a page is reached instead of walked to.  A cap of nothing
counts as a cap of one (`not_search_page`).
-/

namespace Scour

/-! ## The rows of an answer -/

/-- A row of an answer, under what it sorts by in full. -/
abbrev Answer := SortValue × Entry

/-- The order of an answer: the key in the direction asked for, then newest first, then the path. -/
def answerLe (desc : Bool) (a b : Answer) : Prop :=
  keyLt desc a.1 b.1 ∨ (a.1 = b.1 ∧ storedLe a.2 b.2)

section
variable {P : Platform}

/-- The rows of a segment that match and are not hidden. -/
def OpenSegment.answers (hidden : PrefixSet) (req : SearchRequest) (l : OpenSegment P) : List Answer :=
  match (Plan.compile req.query l.view : Except QueryError (Plan P)) with
  | .error _ => []
  | .ok plan => (l.matching hidden plan).filterMap fun row =>
      (l.entries[row]?).map fun e => ((l.asked hidden req plan).full row, e)

/-- All rows that match and are not hidden. -/
def answers (hidden : PrefixSet) (req : SearchRequest) (ls : List (OpenSegment P)) : List Answer :=
  ls.flatMap (OpenSegment.answers hidden req)

variable {hidden : PrefixSet} {req : SearchRequest}

/-- The row a candidate stands for. -/
def Candidate.answer (ls : List (OpenSegment P)) (sort : SortKey) (c : Candidate) : Answer :=
  (c.full (ls.map (·.view)) sort, ((ls[c.seg]?).bind fun l => l.entries[c.row]?).getD (.file "/"))

theorem OfRow.answer_eq {ls : List (OpenSegment P)} {l : OpenSegment P} {plan : Plan P} {c : Candidate}
    (h : OfRow hidden req ls l plan c) {e : Entry} (he : l.entries[c.row]? = some e) :
    c.answer ls req.sort = ((l.asked hidden req plan).full c.row, e) := by
  unfold Candidate.answer
  rw [h.full_eq, h.seg, Option.bind_some, he]
  rfl

theorem map_answer_candidates {all : List (OpenSegment P)} {l : OpenSegment P} {which : Nat}
    (hseg : all[which]? = some l) :
    (l.candidates hidden req which).map (Candidate.answer all req.sort) = l.answers hidden req := by
  unfold OpenSegment.candidates OpenSegment.answers
  cases hp : (Plan.compile req.query l.view : Except QueryError (Plan P)) with
  | error _ => rfl
  | ok plan =>
    dsimp only
    rw [List.map_map, ← List.filterMap_eq_map]
    refine List.filterMap_congr fun row hrow => ?_
    have hof : OfRow hidden req all l plan (l.candidate hidden req plan which row) :=
      ⟨hseg, hp, hrow, rfl⟩
    have he : l.entries[row]? = some _ := List.getElem?_eq_getElem hof.row_lt
    rw [he, Option.map_some, Function.comp_apply, Function.comp_apply, hof.answer_eq he]
    rfl

/-- The candidates stand for the rows of the answer. -/
theorem map_answer_candidatesFrom {all : List (OpenSegment P)} (ls : List (OpenSegment P)) :
    ∀ which, ls = all.drop which →
      (candidatesFrom hidden req which ls).map (Candidate.answer all req.sort) =
        answers hidden req ls := by
  induction ls with
  | nil => exact fun _ _ => rfl
  | cons l ls ih =>
    intro which hdrop
    have hseg : all[which]? = some l := by
      have := congrArg (·[0]?) hdrop
      simpa using this.symm
    have hrest : ls = all.drop (which + 1) := by
      have := congrArg List.tail hdrop
      simpa using this
    rw [candidatesFrom, List.map_append, map_answer_candidates hseg, ih (which + 1) hrest]
    rfl

/-- What the merge puts first is first in the answer. -/
theorem answerLe_of_cmpLe {ls : List (OpenSegment P)} {a b : Candidate}
    (ha : a ∈ candidatesFrom hidden req 0 ls) (hb : b ∈ candidatesFrom hidden req 0 ls)
    (h : Search.CmpLe (Candidate.cmp (ls.map (·.view)) req.sort req.descending) a b) :
    answerLe req.descending (a.answer ls req.sort) (b.answer ls req.sort) := by
  obtain ⟨l, plan, hla⟩ := ofRow_of_mem ha
  obtain ⟨m, plan', hmb⟩ := ofRow_of_mem hb
  obtain ⟨e, he, hem, hep, -⟩ := hla.entry
  obtain ⟨f, hf, hfm, hfp, -⟩ := hmb.entry
  rw [Candidate.cmpLe_iff hla.abbreviates hmb.abbreviates, hla.full_eq, hmb.full_eq] at h
  rw [hla.answer_eq he, hmb.answer_eq hf]
  refine h.imp_right fun ⟨hkey, hrest⟩ => ⟨hkey, ?_⟩
  unfold storedLe
  rw [← hem, ← hfm]
  refine hrest.imp_right fun ⟨hmtime, hbreaks⟩ => ⟨hmtime, ?_⟩
  rw [← hep, ← hfp]
  unfold Candidate.Breaks at hbreaks
  split at hbreaks
  · exact hla.stored hmb ‹_› hbreaks hmtime
  · exact hbreaks

/-- The hits of candidates are those of the rows they stand for. -/
theorem hits_of_candidates {ls : List (OpenSegment P)} {cs : List Candidate}
    (h : cs ⊆ candidatesFrom hidden req 0 ls) :
    cs.filterMap (Candidate.hit (ls.map (·.view))) =
      (cs.map (Candidate.answer ls req.sort)).map fun a => a.2.hit P := by
  have hsome : ∀ c ∈ cs, c.hit (ls.map (·.view)) = some ((c.answer ls req.sort).2.hit P) := by
    intro c hc
    obtain ⟨l, plan, hof⟩ := ofRow_of_mem (h hc)
    obtain ⟨e, he, -, -, hhit⟩ := hof.entry
    rw [hhit, hof.answer_eq he]
  rw [List.filterMap_congr hsome, List.map_map]
  exact congrFun List.filterMap_eq_map cs

/-- The page is cut from these rows, sorted, and its total is how many they are, up to the cap. -/
structure PageOf (P : Platform) (req : SearchRequest) (cap : Nat) (rows sorted : List Answer)
    (p : Page) : Prop where
  perm : sorted.Perm rows
  ordered : sorted.Pairwise (answerLe req.descending)
  hits : p.hits = ((sorted.drop req.offset).take req.limit).map fun a => a.2.hit P
  total : p.total = min cap sorted.length

/-! ## A page walked to -/

/-- No two rows of the segment spell the same path. -/
def OpenSegment.Distinct (l : OpenSegment P) : Prop := (l.entries.map (·.path.bytes)).Nodup

/-- No two live rows of the segment spell the same path. -/
def OpenSegment.Apart (l : OpenSegment P) : Prop := ∀ a b e f, l.view.isAlive a = true →
  l.view.isAlive b = true → l.entries[a]? = some e → l.entries[b]? = some f →
    e.path.bytes = f.path.bytes → a = b

theorem OpenSegment.Distinct.apart {l : OpenSegment P} (h : l.Distinct) : l.Apart := by
  intro a b e f _ _ he hf hpath
  obtain ⟨ha, rfl⟩ := List.getElem?_eq_some_iff.mp he
  obtain ⟨hb, rfl⟩ := List.getElem?_eq_some_iff.mp hf
  have hinj := @List.Nodup.getElem_inj_iff _ _ h a (by rwa [List.length_map]) b
    (by rwa [List.length_map])
  rw [List.getElem_map, List.getElem_map] at hinj
  exact hinj.mp hpath

theorem OpenSegment.alive_of_matching {l : OpenSegment P} {plan : Plan P} {row : Nat}
    (h : row ∈ l.matching hidden plan) : l.view.isAlive row = true := by
  have := (List.mem_filter.mp h).2
  rw [Bool.and_eq_true, Bool.and_eq_true] at this
  exact this.1.1

namespace OpenSegment.Apart

theorem unsplit {l : OpenSegment P} (h : l.Apart) : l.Unsplit hidden req := by
  intro hsort _ plan hp row hrow
  have hmatching : (l.asked hidden req plan).shownRows = l.matching hidden plan :=
    l.shownRows_walk hidden plan _ _ _
  have hentry : ∀ r ∈ l.matching hidden plan, ∃ e, l.entries[r]? = some e ∧
      (l.asked hidden req plan).full r = .text e.path.bytes := by
    intro r hr
    have hlt : r < l.entries.length := by
      rw [← l.rows_eq]
      exact List.mem_range.mp (List.mem_of_mem_filter hr)
    have he := List.getElem?_eq_getElem hlt
    refine ⟨_, he, ?_⟩
    have hjoined : l.view.joined r = _ := View.opened_joined (s := (l.entries, l.alive)) he
    change l.view.fullKey r req.sort _ _ = _
    rw [hsort]
    exact congrArg SortValue.text hjoined
  -- no other row shares the path of this one
  have hone : ∀ y ∈ l.matching hidden plan, y ≠ row →
      ¬ keyLt req.descending ((l.asked hidden req plan).full row) ((l.asked hidden req plan).full y) →
        keyLt req.descending ((l.asked hidden req plan).full y)
          ((l.asked hidden req plan).full row) := by
    intro y hy hne hnot
    obtain ⟨e, he, hfe⟩ := hentry y hy
    obtain ⟨f, hf, hff⟩ := hentry row (hmatching ▸ hrow)
    rcases @keyLt_tri req.descending ((l.asked hidden req plan).full y)
      ((l.asked hidden req plan).full row) with hlt | heq | hgt
    · exact hlt
    · rw [hfe, hff] at heq
      exact absurd (h _ _ _ _ (alive_of_matching hy) (alive_of_matching (hmatching ▸ hrow)) he hf
        (SortValue.text.inj heq)) hne
    · exact absurd hgt hnot
  rw [hmatching] at hrow ⊢
  have hnodup : (l.matching hidden plan).Nodup := List.nodup_range.filter _
  obtain ⟨s, t, hl⟩ := List.append_of_mem hrow
  rw [hl] at hnodup hone ⊢
  have hapart : ∀ y ∈ s ++ t, y ≠ row := by
    rintro y hy rfl
    exact (List.nodup_middle.mp hnodup |> List.nodup_cons.mp).1 hy
  have hcount : ∀ r : List Nat, r ⊆ s ++ t → r.countP (fun y => !decide (keyLt
        (l.asked hidden req plan).want.descending ((l.asked hidden req plan).full row)
        ((l.asked hidden req plan).full y))) ≤
      r.countP fun y => decide (keyLt (l.asked hidden req plan).want.descending
        ((l.asked hidden req plan).full y) ((l.asked hidden req plan).full row)) := by
    intro r hr
    refine List.countP_mono_left fun y hy hnot => ?_
    rw [Bool.not_eq_true', decide_eq_false_iff_not] at hnot
    have hmem : y ∈ s ++ row :: t := List.perm_middle.symm.subset (List.mem_cons_of_mem _ (hr hy))
    exact decide_eq_true (hone y hmem (hapart y (hr hy)) hnot)
  have hs := hcount s (List.subset_append_left _ _)
  have ht := hcount t (List.subset_append_right _ _)
  rw [List.countP_append, List.countP_append, List.countP_cons, List.countP_cons]
  have hself := @keyLt_irrefl (l.asked hidden req plan).want.descending
    ((l.asked hidden req plan).full row)
  rw [decide_eq_false hself]
  simp only [Bool.not_false, if_true, Bool.false_eq_true, if_false, Nat.add_zero]
  omega

/-- Rows of one path in one segment are one, and so tie with none of another. -/
theorem untied {ls : List (OpenSegment P)} (h : ∀ l ∈ ls, l.Apart) :
    Untied (ls.map (·.view)) req.sort (candidatesFrom hidden req 0 ls) := by
  intro a ha b hb c hc hab hbc hseg _
  obtain ⟨l, plan, hla⟩ := ofRow_of_mem ha
  obtain ⟨m, plan', hmc⟩ := ofRow_of_mem hc
  have hsame : l = m := by
    have := hla.seg
    rw [hseg, hmc.seg] at this
    exact (Option.some.inj this).symm
  subst hsame
  obtain ⟨e, he, -, hep, -⟩ := hla.entry
  obtain ⟨f, hf, -, hfp, -⟩ := hmc.entry
  refine h l (List.mem_of_getElem? hla.seg) _ _ _ _ (alive_of_matching hla.row)
    (alive_of_matching hmc.row) he hf ?_
  rw [← hep, ← hfp, hab.2.2, hbc.2.2]

end OpenSegment.Apart

/-- The page cut from rows in order, with how many they are, up to the cap. -/
def pageOf (P : Platform) (req : SearchRequest) (sorted : List Answer) : Page :=
  ⟨((sorted.drop req.offset).take req.limit).map fun a => a.2.hit P, min sorted.length req.cap,
    decide (req.cap ≤ sorted.length)⟩

/-- A page walked to is cut from the answer. -/
theorem search_walked_pageOf (u : Search.Unstable Candidate) {ls : List (OpenSegment P)}
    (hquery : queryError req.query ls = none)
    (hwalk : (if req.reaches hidden then reach (ls.map (·.view)) req.offset req.limit req.cap
      else .walk) = .walk)
    (hapart : ∀ l ∈ ls, l.Apart) :
    ∃ sorted, sorted.Perm (answers hidden req ls) ∧ sorted.Pairwise (answerLe req.descending) ∧
      search hidden req u ls = .ok (pageOf P req sorted) := by
  obtain ⟨arranged, harranged, hsearch⟩ := @search_walked P hidden req u ls hquery hwalk
    (fun l hl => (hapart l hl).unsplit) (OpenSegment.Apart.untied hapart)
  refine ⟨arranged.map (Candidate.answer ls req.sort), ?_, ?_, ?_⟩
  · rw [← map_answer_candidatesFrom ls 0 rfl]
    exact harranged.perm.map _
  · rw [List.pairwise_map]
    exact harranged.sorted.imp_of_mem fun {a b} ha hb hab =>
      answerLe_of_cmpLe (harranged.perm.subset ha) (harranged.perm.subset hb) hab
  · rw [hsearch]
    unfold pageOf
    rw [hits_of_candidates fun c hc =>
      harranged.perm.subset (List.mem_of_mem_drop (List.mem_of_mem_take hc)), List.map_take,
      List.map_drop, List.length_map]

/-- A page walked to is one of the answer. -/
theorem search_walked_page (u : Search.Unstable Candidate) {ls : List (OpenSegment P)}
    (hquery : queryError req.query ls = none)
    (hwalk : (if req.reaches hidden then reach (ls.map (·.view)) req.offset req.limit req.cap
      else .walk) = .walk)
    (hdistinct : ∀ l ∈ ls, l.Distinct) :
    ∃ p sorted, search hidden req u ls = .ok p ∧
      PageOf P req req.cap (answers hidden req ls) sorted p := by
  obtain ⟨sorted, hperm, hordered, hsearch⟩ :=
    search_walked_pageOf u hquery hwalk fun l hl => (hdistinct l hl).apart
  exact ⟨_, sorted, hsearch, hperm, hordered, rfl, Nat.min_comm _ _⟩

/-! ## A page that is reached -/

/-- A page that is reached is cut from every live row in the stored order; rows of one date and path
come in any order. -/
theorem reach_page {segs : List (List Entry × Str)} (hdates : Dated segs)
    {offset limit cap : Nat} {p : Page} (h : reach (views P segs) offset limit cap = .page p) :
    ∃ S : List Entry, S.Perm ((views P segs).flatMap View.liveEntries) ∧ S.Pairwise storedLe ∧
      p = ⟨((S.drop offset).take limit).map (Entry.hit P), min S.length cap,
        decide (cap ≤ S.length)⟩ := by
  have hperm : (walked (views P segs)).Perm ((views P segs).flatMap View.liveEntries) :=
    List.perm_insertionSort _ _
  have hsorted : (walked (views P segs)).Pairwise storedLe := pairwise_stored _
  unfold reach at h
  rw [← length_walked] at h
  dsimp only at h
  split at h
  · rename_i hpast
    refine ⟨_, hperm, hsorted, ?_⟩
    rw [← Reach.page.inj h, List.drop_eq_nil_of_le hpast, List.take_nil]
    rfl
  · rename_i hoffset
    rw [not_le] at hoffset
    have hbracket : ¬ (bracket (views P segs)).2 < (bracket (views P segs)).1 := by
      obtain ⟨hall, ⟨a, ha, hlow⟩, -⟩ := bracket_views (P := P) hdates (rowsOf_ne_nil hoffset)
      have := hall a ha
      omega
    rw [if_neg hbracket] at h
    split at h
    · cases h
    · rename_i t _
      split at h
      · cases h
      · rename_i hnewer
        split at h
        · cases h
        · have hleft := @left_cursorsAt P segs t
          have hdropped : (walked (views P segs)).drop (newer (views P segs) t) ⊆
              walked (views P segs) := List.drop_subset _ _
          obtain ⟨S, hS, hSsorted, hpage⟩ := mergePage_arranged (P := P)
            (((views P segs).map (·.seg.rows)).sum + 1) (cursorsAt (views P segs) t)
            (offset - newer (views P segs) t) limit (settled_cursorsAt t) (by
              rw [← hleft.length_eq, List.length_drop]
              have := @length_walked_le P segs
              omega)
          have hS := hS.trans hleft.symm
          have htake : ((walked (views P segs)).take (newer (views P segs) t)).length =
              newer (views P segs) t := by
            rw [List.length_take]
            omega
          have hall : ((walked (views P segs)).take (newer (views P segs) t) ++ S).Perm
              (walked (views P segs)) := by
            refine (hS.append_left _).trans ?_
            rw [List.take_append_drop]
          refine ⟨_, hall.trans hperm, ?_, ?_⟩
          · rw [← List.take_append_drop (newer (views P segs) t) (walked (views P segs)),
              List.pairwise_append] at hsorted
            exact List.pairwise_append.mpr ⟨hsorted.1, hSsorted,
              fun x hx y hy => hsorted.2.2 x hx y (hS.subset hy)⟩
          · have hdrop : ((walked (views P segs)).take (newer (views P segs) t) ++ S).drop offset =
                S.drop (offset - newer (views P segs) t) := by
              conv_lhs =>
                rw [show offset = newer (views P segs) t + (offset - newer (views P segs) t) by omega,
                  ← List.drop_drop, List.drop_left' htake]
            rw [← Reach.page.inj h, hdrop, ← hpage, hall.length_eq]
            rfl

/-- The rows of a page that is reached, and how many they are. -/
theorem reach_arranged {segs : List (List Entry × Str)} (hdates : Dated segs)
    {offset limit cap : Nat} {p : Page} (h : reach (views P segs) offset limit cap = .page p) :
    ∃ S : List Entry, S.Perm ((views P segs).flatMap View.liveEntries) ∧ S.Pairwise storedLe ∧
      p.hits = ((S.drop offset).take limit).map (Entry.hit P) ∧ p.total = min S.length cap := by
  obtain ⟨S, hperm, hsorted, rfl⟩ := reach_page hdates h
  exact ⟨S, hperm, hsorted, rfl, rfl⟩

/-- No bisection of dates that are close overflows. -/
theorem reach_ne_overflow {segs : List (List Entry × Str)} (hdates : Dated segs)
    (hclose : Close segs) {offset limit cap : Nat} :
    reach (views P segs) offset limit cap ≠ .overflow := by
  unfold reach
  rw [← length_walked]
  dsimp only
  split
  · exact Reach.noConfusion
  · rename_i hoffset
    obtain ⟨hbracket, t, hbisect, -⟩ := bisect_close (P := P) hdates (not_le.mp hoffset) hclose
    rw [if_neg hbracket, hbisect]
    dsimp only
    split
    · exact Reach.noConfusion
    · split
      · exact Reach.noConfusion
      · exact Reach.noConfusion

/-- The rows of the segments, dead ones too, and which of them are live. -/
def segmentsOf (ls : List (OpenSegment P)) : List (List Entry × Str) :=
  ls.map fun l => (l.entries, l.alive)

theorem views_segmentsOf (ls : List (OpenSegment P)) :
    views P (segmentsOf ls) = ls.map (·.view) := by
  unfold segmentsOf
  rw [views_eq, List.map_map]
  refine List.map_congr_left fun l _ => ?_
  rw [Function.comp_apply, List.Pairwise.insertionSort_eq l.sorted]
  rfl

/-- What a page that is reached sorts by: the date, or nothing. -/
def reachKey (req : SearchRequest) (e : Entry) : SortValue :=
  if req.sort = .modified then .num e.info.mtime else .num 0

/-- What a page is reached of: every live row. -/
theorem answers_reached (hreaches : req.reaches hidden = true) (ls : List (OpenSegment P)) :
    answers hidden req ls =
      ((ls.map (·.view)).flatMap View.liveEntries).map fun e => (reachKey req e, e) := by
  unfold SearchRequest.reaches SearchRequest.storedOrder at hreaches
  simp only [Bool.and_eq_true, Bool.or_eq_true, beq_iff_eq] at hreaches
  obtain ⟨⟨⟨-, hsort, -⟩, hempty⟩, hhidden⟩ := hreaches
  unfold answers
  rw [List.flatMap_map, List.map_flatMap]
  refine List.flatMap_congr fun l _ => ?_
  unfold OpenSegment.answers
  cases hp : (Plan.compile req.query l.view : Except QueryError (Plan P)) with
  | error e =>
    have hnone := queryError_of_isEmpty hempty [l]
    unfold queryError at hnone
    rw [hp] at hnone
    cases hnone
  | ok plan =>
    have hclauses : plan.clauses = [] :=
      List.isEmpty_iff.mp ((Plan.compile_isEmpty _ _ _ hp).trans hempty)
    have hdoomed : (l.doomed hidden).isEmpty = true := by
      unfold OpenSegment.doomed Doomed.new Doomed.isEmpty
      rw [List.isEmpty_iff.mp hhidden]
      rfl
    have hmatching : l.matching hidden plan = (List.range l.view.seg.rows).filter l.view.isAlive := by
      unfold OpenSegment.matching
      rw [show l.view.seg.rows = l.view.rows from (View.opened_rows (P := P)).trans l.rows_eq.symm]
      refine List.filter_congr fun row _ => ?_
      have haccepts : plan.accepts l.view row (l.view.foldedName row) = true := by
        unfold Plan.accepts
        rw [hclauses]
        rfl
      have hhides : l.hides hidden row = false := Doomed.takes_of_isEmpty hdoomed _ _ _
      rw [haccepts, hhides]
      simp
    dsimp only
    rw [hmatching]
    unfold View.liveEntries
    rw [List.map_filterMap]
    refine List.filterMap_congr fun row _ => ?_
    rw [show l.view.seg.entry row = l.entries[row]? from View.opened_entry row]
    cases he : l.entries[row]? with
    | none => rfl
    | some e =>
      have hterms : (l.asked hidden req plan).scoreTerms = [] := by
        unfold SegmentWalk.scoreTerms
        rw [show (l.asked hidden req plan).plan.clauses = [] from hclauses]
        split <;> rfl
      have hdate : l.view.mtime row = e.info.mtime := View.opened_mtime (s := (l.entries, l.alive)) he
      have hkey : (l.asked hidden req plan).full row = reachKey req e := by
        unfold reachKey
        change l.view.fullKey row req.sort (l.asked hidden req plan).scoreTerms _ = _
        rw [hterms]
        rcases hsort with hsort | hsort
        · rw [hsort, ← hdate]
          rfl
        · rw [hsort]
          rfl
      rw [Option.map_some, Option.map_some, hkey]

theorem answerLe_of_storedLe (hreaches : req.reaches hidden = true) {a b : Entry}
    (h : storedLe a b) : answerLe req.descending (reachKey req a, a) (reachKey req b, b) := by
  unfold SearchRequest.reaches SearchRequest.storedOrder at hreaches
  simp only [Bool.and_eq_true] at hreaches
  unfold answerLe reachKey
  split
  · rw [keyLt_num, SortValue.num.injEq, hreaches.1.1.2.2]
    unfold zoneKey
    rcases h with hlt | ⟨heq, hpath⟩
    · exact Or.inl (by simp only [if_true]; omega)
    · exact Or.inr ⟨heq, Or.inr ⟨heq, hpath⟩⟩
  · exact Or.inr ⟨rfl, h⟩

end

/-- **A page is the brute-force page**: it is cut from the list of all rows that match and are not
hidden, sorted by the key in the direction asked for, then newest first, then by path; and its total
is how many they are, up to the cap, which is at least one.  Where a page is reached the dates are
less than `2^63` apart. -/
theorem search_page (P : Platform) (u : Search.Unstable Candidate) (hidden : PrefixSet)
    (req : SearchRequest) (ls : List (OpenSegment P)) (hquery : queryError req.query ls = none)
    (hdates : Dated (segmentsOf ls)) (hdistinct : ∀ l ∈ ls, l.Distinct)
    (hclose : req.reaches hidden = true → Close (segmentsOf ls)) :
    ∃ p sorted, search hidden req u ls = .ok p ∧
      PageOf P req (max req.countCap 1) (answers hidden req ls) sorted p := by
  by_cases hreaches : req.reaches hidden = true
  · cases hr : reach (ls.map (·.view)) req.offset req.limit req.cap with
    | overflow =>
      rw [← views_segmentsOf] at hr
      exact absurd hr (reach_ne_overflow hdates (hclose hreaches))
    | walk => exact search_walked_page u hquery (by rw [if_pos hreaches, hr]) hdistinct
    | page p =>
      have hsearch : search hidden req u ls = .ok p := by
        unfold search
        dsimp only
        rw [if_pos hreaches, hr]
      rw [← views_segmentsOf] at hr
      obtain ⟨S, hperm, hsorted, hhits, htotal⟩ := reach_arranged hdates hr
      rw [views_segmentsOf] at hperm
      refine ⟨p, S.map fun e => (reachKey req e, e), hsearch, ?_, ?_, ?_, ?_⟩
      · rw [answers_reached hreaches]
        exact hperm.map _
      · rw [List.pairwise_map]
        exact hsorted.imp fun h => answerLe_of_storedLe hreaches h
      · rw [hhits, ← List.map_drop, ← List.map_take, List.map_map]
        rfl
      · rw [htotal, List.length_map]
        exact Nat.min_comm _ _
  · exact search_walked_page u hquery (by rw [if_neg hreaches]) hdistinct

/-- A segment of one file. -/
def loneSegment : OpenSegment .plain where
  entries := [.file "/a"]
  alive := [1]
  orders := ⟨none, none, none⟩
  folders := []
  sorted := List.pairwise_singleton _ _
  bits := rfl
  live row h := by
    have hlt := bitAt_singleton_lt h
    revert h
    revert row
    decide
  built := ⟨fun _ h => (by cases h), fun _ h => (by cases h), fun _ h => (by cases h)⟩
  byRow := noFolders

theorem dated_lone : Dated (segmentsOf [loneSegment]) := by
  unfold Dated
  decide

theorem distinct_lone : ∀ l ∈ [loneSegment], l.Distinct := by
  intro l hl
  rw [List.mem_singleton.mp hl]
  exact List.nodup_singleton _

theorem search_page_lone :
    ∃ p sorted, search .empty ⟨⟨[]⟩, .name, false, 0, 1, 1⟩ (Search.Unstable.stable Candidate)
        [loneSegment] = .ok p ∧
      PageOf .plain ⟨⟨[]⟩, .name, false, 0, 1, 1⟩ (max 1 1)
        (answers .empty ⟨⟨[]⟩, .name, false, 0, 1, 1⟩ [loneSegment]) sorted p :=
  search_page .plain (Search.Unstable.stable Candidate) .empty ⟨⟨[]⟩, .name, false, 0, 1, 1⟩
    [loneSegment] rfl dated_lone distinct_lone fun h => absurd h (by decide)

/-- Asked to count nothing, a search counts one. -/
theorem not_search_page :
    ¬ ∀ (P : Platform) (u : Search.Unstable Candidate) (hidden : PrefixSet) (req : SearchRequest)
      (ls : List (OpenSegment P)), queryError req.query ls = none → Dated (segmentsOf ls) →
        (∀ l ∈ ls, l.Distinct) → ∃ p sorted, search hidden req u ls = .ok p ∧
          PageOf P req req.countCap (answers hidden req ls) sorted p := by
  intro h
  obtain ⟨p, sorted, hsearch, hpage⟩ := h .plain (Search.Unstable.stable Candidate) .empty
    ⟨⟨[]⟩, .name, false, 0, 1, 0⟩ [loneSegment] rfl dated_lone distinct_lone
  have hone : (search .empty ⟨⟨[]⟩, .name, false, 0, 1, 0⟩ (Search.Unstable.stable Candidate)
      [loneSegment]).toOption.map (·.total) = some 1 := by decide
  have htotal := hpage.total
  rw [hsearch] at hone
  have hp : p.total = 1 := Option.some.inj hone
  rw [hp] at htotal
  exact absurd htotal (by simp)

end Scour
