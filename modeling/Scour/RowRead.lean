import Scour.BruteForce
import Scour.Conditions
import Scour.Wildcard

/-!
# What a search reads of a row

Neither the segment a row lies in nor its neighbours come into what a search makes of it.  `reads` is
what each condition reads of an entry, `shown` whether a search shows it, `sortsBy` what it is sorted
by: each a function of the entry.  `answers_eq` says that the rows of an answer are the live entries
that are shown, each under what it sorts by.
-/

namespace Scour

section
variable (P : Platform)

/-! ## A condition, of an entry -/

/-- The name a row is tested by. -/
def Entry.folded (e : Entry) : Str := Folded.foldBytes P.case e.name

/-- What the index reads for a condition.  A directory is asked by its number, the name by what the
arena kept of its fold; for the other conditions the columns hold what the reference asks. -/
def Entry.reads (e : Entry) : Match → Bool
  | .nameContains t => decide (utf8 t <:+: e.folded P)
  | .nameGlob p =>
      match extOf p with
      | some ext =>
          let spelled := foldedExtension e.name (e.folded P)
          spelled != [] && utf8 ext == spelled
      | none =>
          match fromUtf8 (e.folded P) with
          | some cs => globMatches p cs
          | none => false
  | .pathContains t => (PathSet.build P.case (utf8 t) ⟨[e.parent]⟩).holds 0 (e.folded P)
  | .parentIs d => e.parent == trimEnd (utf8 d)
  | .ext list =>
      let spelled := foldedExtension e.name (e.folded P)
      spelled != [] && list.any (fun x => utf8 x == spelled) && !e.isDir
  | .nameLen cmp v =>
      let n := match fromUtf8 (e.folded P) with
        | some cs => cs.length
        | none => (e.folded P).length
      cmp.holds n v.toInt
  | .regex p =>
      match P.regexNew p, fromUtf8 (e.folded P) with
      | .ok re, some cs => P.isMatch re cs
      | _, _ => false
  | .depth cmp v => cmp.holds (min (e.parent.count slash) 65535 + 1 : Nat) v.toInt
  | m => matchesOne P e m

/-- Does the index take the entry for one that matches? -/
def Ast.takes (ast : Ast) (e : Entry) : Bool :=
  ast.groups.all fun g => g.alts.any fun a => e.reads P a.2 != a.1

/-- Is the entry shown, the pending removals being these? -/
def Entry.shown (hidden : PrefixSet) (ast : Ast) (e : Entry) : Bool :=
  ast.takes P e && !scanned hidden e

/-- The text a group of one condition on the name asks for. -/
def Group.term (g : Group) : Option Str :=
  match g.alts with
  | [(false, .nameContains t)] => if (utf8 t).isEmpty then none else some (utf8 t)
  | _ => none

/-- What a search by relevance scores a name by. -/
def Ast.terms (ast : Ast) : List Str := ast.groups.filterMap Group.term

/-- What an entry is sorted by, `total` being what lies under a folder. -/
def Entry.sortsBy (req : SearchRequest) (total : Entry → Option Int64) (e : Entry) : SortValue :=
  match req.sort with
  | .path => .text e.path.bytes
  | .relevance => .num (Ladder.relevance (e.folded P) req.query.terms (stepsOf e.parent))
  | .name => .text (e.folded P)
  | .ext => .text (foldedExtension e.name (e.folded P))
  | .size => .num (if e.isDir then ((total e).map Int64.toInt).getD e.info.size else e.info.size)
  | .modified => .num e.info.mtime
  | .created => .num e.info.ctime
  | .accessed => .num e.info.atime
  | .kind => .num (e.kind P).asU8
  | .mode => .num e.info.mode
  | .uid => .num e.info.uid
  | .gid => .num e.info.gid
  | .disk => .num e.info.disk

end

/-! ## A condition, of a row -/

section
variable {P : Platform}

/-- A row answers a condition as its entry does. -/
theorem evaluate_build {es : List Entry} {row : Nat} {e : Entry}
    (he : (Scour.build es).seg.entry row = some e) {m : Match} {t : Test P}
    (ht : compileMatch P (View.build P es) m = .ok t) :
    evaluate (View.build P es) row (e.folded P) t = e.reads P m := by
  have hdir := dirId_build (P := P) he
  cases m with
  | contentContains p => cases ht
  | nameContains p =>
    obtain rfl := Except.ok.inj ht
    rfl
  | nameGlob p =>
    rcases compileMatch_glob ht with ⟨hp, rfl⟩ | ⟨ext, -, hp, rfl⟩
    · simp only [Entry.reads, hp]
      rfl
    · simp only [Entry.reads, hp, evaluate]
      rw [getD_names_build he]
      simp
  | pathContains p =>
    obtain rfl := Except.ok.inj ht
    -- the set of all directories answers of this one as the set of it alone
    have hget : ∀ f : Str → Bool, ((View.build P es).seg.dirs.paths.map f).getD
        ((View.build P es).seg.dirId row) false = ([e.parent].map f).getD 0 false := by
      intro f
      rw [List.getD_eq_getElem?_getD, List.getElem?_map, hdir]
      rfl
    simp only [Entry.reads, evaluate, PathSet.holds, PathSet.build]
    rw [hget, hget]
    rfl
  | under d =>
    obtain rfl := Except.ok.inj ht
    exact evaluate_under he _ d
  | parentIs d =>
    have hs : (View.build P es).seg.dirs.Sorted := buildSorted_dirs_sorted _
    rw [Bool.eq_iff_iff, evaluate_parentIs_iff he _ d ht]
    simp [Entry.reads]
  | ext list =>
    obtain rfl := Except.ok.inj ht
    have hcol : ((View.build P es).seg.num .isDir row == 0) = !e.isDir := by
      rw [num_build he .isDir (by decide)]
      cases hb : e.isDir <;> simp [columnsOf, hb]
    simp only [Entry.reads, evaluate]
    rw [getD_names_build he, hcol, Bool.false_or]
  | isDir want =>
    obtain rfl := Except.ok.inj ht
    exact evaluate_isDir he _ want
  | size cmp v =>
    obtain rfl := Except.ok.inj ht
    simp only [Entry.reads, evaluate, matchesOne]
    rw [cmpHolds_one, num_build he .size (by decide)]
    rfl
  | kind ks =>
    obtain rfl := Except.ok.inj ht
    exact evaluate_kind he _ ks
  | time f cmp v =>
    obtain rfl := Except.ok.inj ht
    exact evaluate_time he _ f cmp v
  | depth cmp v =>
    obtain rfl := Except.ok.inj ht
    have hdepth : (View.build P es).seg.dirs.depths[(View.build P es).seg.dirId row]? =
        some (min (e.parent.count slash) 65535) := by
      unfold DirTable.depths
      rw [List.getElem?_map, hdir]
      rfl
    simp only [Entry.reads, evaluate, hdepth]
    rw [Nat.cast_succ]
  | regex p =>
    rw [compileMatch] at ht
    cases hre : P.regexNew p with
    | error x =>
      rw [hre] at ht
      cases ht
    | ok re =>
      rw [hre] at ht
      obtain rfl := Except.ok.inj ht
      simp only [Entry.reads, evaluate, hre]
      cases fromUtf8 (e.folded P) <;> rfl
  | nameLen cmp v =>
    obtain rfl := Except.ok.inj ht
    rfl
  | nameContainsCased p =>
    obtain rfl := Except.ok.inj ht
    exact evaluate_nameHasCased he _ p
  | num f cmp v =>
    obtain rfl := Except.ok.inj ht
    simp only [Entry.reads, evaluate, matchesOne]
    rw [cmpHolds_one, numField_build he]
  | bits f mask want any =>
    obtain rfl := Except.ok.inj ht
    simp only [Entry.reads, evaluate, matchesOne]
    rw [numField_build he]

/-- Which rows are live is nothing to a condition. -/
theorem evaluate_alive (v : View) (alive : Str) (row : Nat) (name : Str) (t : Test P) :
    evaluate { v with alive := alive } row name t = evaluate v row name t := by
  cases t <;> rfl

namespace OpenSegment

variable {l : OpenSegment P} {row : Nat} {e : Entry}

theorem view_eq (l : OpenSegment P) : l.view = { View.build P l.entries with alive := l.alive } := by
  unfold view View.opened View.build
  rw [List.Pairwise.insertionSort_eq l.sorted]

theorem compileMatch_view (l : OpenSegment P) (m : Match) :
    compileMatch P l.view m = compileMatch P (View.build P l.entries) m := by
  rw [view_eq]
  rfl

/-- A row answers a condition as its entry does. -/
theorem evaluate_reads (he : l.entries[row]? = some e) {m : Match} {t : Test P}
    (ht : compileMatch P l.view m = .ok t) :
    evaluate l.view row (e.folded P) t = e.reads P m := by
  rw [compileMatch_view] at ht
  rw [view_eq, evaluate_alive]
  refine evaluate_build ?_ ht
  unfold build
  rw [List.Pairwise.insertionSort_eq l.sorted]
  exact buildSorted_entry he

theorem foldedName_eq (he : l.entries[row]? = some e) : l.view.foldedName row = e.folded P := by
  show List.getD (l.entries.map _) row [] = _
  rw [List.getD_eq_getElem?_getD, List.getElem?_map, he]
  rfl

/-! ## A query -/

theorem any_compileAlts (he : l.entries[row]? = some e) (alts : List (Bool × Match)) :
    ∀ {ts : List (Bool × Test P)}, Plan.compileAlts l.view alts = .ok ts →
      (ts.any fun a => evaluate l.view row (e.folded P) a.2 != a.1) =
        alts.any fun a => e.reads P a.2 != a.1 := by
  induction alts with
  | nil =>
    intro ts h
    cases h
    rfl
  | cons a alts ih =>
    intro ts h
    simp only [Plan.compileAlts, bind, Except.bind] at h
    split at h
    · cases h
    · rename_i t ht
      split at h
      · cases h
      · rename_i rest hrest
        cases h
        rw [List.any_cons, List.any_cons, ih hrest, evaluate_reads he ht]

theorem all_compileGroups (he : l.entries[row]? = some e) (groups : List Group) :
    ∀ {cs : List (Clause P)}, Plan.compileGroups l.view groups = .ok cs →
      (cs.all fun c => c.alts.any fun a => evaluate l.view row (e.folded P) a.2 != a.1) =
        groups.all fun g => g.alts.any fun a => e.reads P a.2 != a.1 := by
  induction groups with
  | nil =>
    intro cs h
    cases h
    rfl
  | cons g groups ih =>
    intro cs h
    simp only [Plan.compileGroups, bind, Except.bind] at h
    split at h
    · cases h
    · rename_i alts halts
      split at h
      · cases h
      · rename_i rest hrest
        cases h
        rw [List.all_cons, List.all_cons, ih hrest, any_compileAlts he g.alts halts]

/-- The clauses of a plan are those compiled, in an order of their costs. -/
theorem clauses_of_compile {ast : Ast} {v : View} {plan : Plan P} (hp : Plan.compile ast v = .ok plan) :
    ∃ cs, Plan.compileGroups v ast.groups = .ok cs ∧
      plan.clauses = cs.insertionSort fun a b => Plan.clauseCost a ≤ Plan.clauseCost b := by
  simp only [Plan.compile, bind, Except.bind] at hp
  split at hp
  · cases hp
  · rename_i cs hcs
    cases hp
    exact ⟨cs, hcs, rfl⟩

/-- A plan accepts the rows whose entries the query takes. -/
theorem accepts_eq (he : l.entries[row]? = some e) {ast : Ast} {plan : Plan P}
    (hp : Plan.compile ast l.view = .ok plan) :
    plan.accepts l.view row (l.view.foldedName row) = ast.takes P e := by
  obtain ⟨cs, hcs, hclauses⟩ := clauses_of_compile hp
  unfold Plan.accepts
  rw [hclauses, (List.perm_insertionSort _ cs).all_eq, foldedName_eq he]
  exact all_compileGroups he ast.groups hcs

/-! ## What is hidden -/

/-- The pending removals hide the rows whose entries they cover. -/
theorem hides_eq {hidden : PrefixSet} (hc : hidden.Clean) (he : l.entries[row]? = some e) :
    l.hides hidden row = scanned hidden e := by
  have hok : (⟨0, 0, l.view.seg, List.replicate l.entries.length true, 0⟩ : Live).Ok :=
    ⟨l.entries, rfl, List.length_replicate⟩
  rw [Bool.eq_iff_iff]
  exact takes_iff_scanned hok hidden hc (buildSorted_entry he)

/-! ## What a row is sorted by -/

/-- The needle of a clause of one condition on the name. -/
def needle (c : Clause P) : Option Str :=
  match c.alts with
  | [(false, .nameHas n)] => if n.isEmpty then none else some n
  | _ => none

theorem clauseCost_needle {c : Clause P} (h : (needle c).isSome) : Plan.clauseCost c = 10 := by
  unfold needle at h
  split at h
  · rename_i halts
    unfold Plan.clauseCost
    rw [halts]
    rfl
  · cases h

theorem compileMatch_nameHas {v : View} {m : Match} {n : Str}
    (h : compileMatch P v m = .ok (.nameHas n)) : ∃ t, m = .nameContains t ∧ n = utf8 t := by
  cases m with
  | nameContains t => exact ⟨t, rfl, (Test.nameHas.inj (Except.ok.inj h)).symm⟩
  | nameGlob p => rcases compileMatch_glob h with ⟨-, h⟩ | ⟨ext, -, -, h⟩ <;> cases h
  | regex p =>
    rw [compileMatch] at h
    split at h <;> cases h
  | under d =>
    have h := Except.ok.inj h
    split at h <;> cases h
  | parentIs d =>
    rw [compileMatch] at h
    split at h <;> cases h
  | _ => cases h

theorem needle_compileAlts {v : View} {g : Group} {alts : List (Bool × Test P)}
    (h : Plan.compileAlts v g.alts = .ok alts) : needle ⟨alts⟩ = g.term := by
  obtain ⟨galts⟩ := g
  cases galts with
  | nil =>
    cases h
    rfl
  | cons a rest =>
    obtain ⟨negated, m⟩ := a
    simp only [Plan.compileAlts, bind, Except.bind] at h
    split at h
    · cases h
    · rename_i t ht
      split at h
      · cases h
      · rename_i ts hts
        cases h
        cases rest with
        | cons b rest =>
          obtain ⟨b, m'⟩ := b
          simp only [Plan.compileAlts, bind, Except.bind] at hts
          split at hts
          · cases hts
          · split at hts
            · cases hts
            · cases hts
              unfold needle Group.term
              split
              · rename_i halts
                cases halts
              · split
                · rename_i halts
                  cases halts
                · rfl
        | nil =>
          cases hts
          cases negated with
          | true => rfl
          | false =>
            by_cases hn : ∃ n, t = .nameHas n
            · obtain ⟨n, rfl⟩ := hn
              obtain ⟨x, rfl, rfl⟩ := compileMatch_nameHas ht
              rfl
            · have hneedle : needle (P := P) ⟨[(false, t)]⟩ = none := by
                unfold needle
                cases t <;> first | rfl | exact absurd ⟨_, rfl⟩ hn
              rw [hneedle]
              cases m <;> first | rfl | exact absurd ⟨_, (Except.ok.inj ht).symm⟩ hn

/-- The needles of the clauses are the terms of the query. -/
theorem needles_compileGroups (v : View) (groups : List Group) :
    ∀ {cs : List (Clause P)}, Plan.compileGroups v groups = .ok cs →
      cs.filterMap needle = Ast.terms ⟨groups⟩ := by
  induction groups with
  | nil =>
    intro cs h
    cases h
    rfl
  | cons g groups ih =>
    intro cs h
    simp only [Plan.compileGroups, bind, Except.bind] at h
    split at h
    · cases h
    · rename_i alts halts
      split at h
      · cases h
      · rename_i rest hrest
        cases h
        have hrest := ih hrest
        unfold Ast.terms at hrest ⊢
        rw [List.filterMap_cons, List.filterMap_cons, hrest, needle_compileAlts halts]

theorem scoreTerms_eq {w : SegmentWalk P} {ast : Ast} (hp : Plan.compile ast w.seg = .ok w.plan) :
    w.scoreTerms = if w.want.sort = .relevance then ast.terms else [] := by
  obtain ⟨cs, hcs, hclauses⟩ := clauses_of_compile hp
  unfold SegmentWalk.scoreTerms
  refine if_congr Iff.rfl ?_ rfl
  rw [hclauses, ← needles_compileGroups w.seg ast.groups hcs]
  exact Search.filterMap_insertionSort
    (fun a b ha hb => by rw [clauseCost_needle ha, clauseCost_needle hb]) cs

/-- What is under a folder is what its segment lists for it. -/
def Totals (l : OpenSegment P) (total : Entry → Option Int64) : Prop :=
  ∀ row e, l.entries[row]? = some e → l.view.isAlive row = true → e.isDir = true →
    l.folders.find row = total e

theorem folderSize_eq (he : l.entries[row]? = some e) (halive : l.view.isAlive row = true)
    {total : Entry → Option Int64}
    (htotal : l.Totals total) : folderSize l.view l.folders row =
      if e.isDir then ((total e).map Int64.toInt).getD e.info.size else e.info.size := by
  have hsize : l.view.seg.num .size row = e.info.size := buildSorted_num he .size (by decide)
  have hisDir : l.view.seg.num .isDir row = if e.isDir then 1 else 0 :=
    buildSorted_num he .isDir (by decide)
  unfold folderSize
  rw [hsize, hisDir]
  cases hd : e.isDir with
  | false => simp
  | true =>
    rw [← htotal row e he halive hd]
    by_cases hnil : l.folders.isEmpty
    · rw [List.isEmpty_iff.mp hnil]
      rfl
    · simp [hnil]

/-- A row is sorted by what its entry is. -/
theorem full_eq {hidden : PrefixSet} {req : SearchRequest} {plan : Plan P}
    (hp : Plan.compile req.query l.view = .ok plan) (he : l.entries[row]? = some e)
    (halive : l.view.isAlive row = true) {total : Entry → Option Int64} (htotal : req.sort = .size → l.Totals total) :
    (l.asked hidden req plan).full row = e.sortsBy P req total := by
  have hnum : ∀ f : Field, f ≠ .dirId → l.view.seg.num f row = columnsOf 0 e f :=
    fun f hf => buildSorted_num he f hf
  have hname : l.view.seg.names.getD row [] = e.name := by
    rw [List.getD_eq_getElem?_getD,
      show l.view.seg.names[row]? = some e.name from View.opened_name (s := (l.entries, l.alive)) he]
    rfl
  have hterms := @scoreTerms_eq P (l.asked hidden req plan) req.query hp
  change l.view.fullKey row req.sort (l.asked hidden req plan).scoreTerms
    (if req.sort = .size then l.folders else []) = _
  rw [hterms]
  change l.view.fullKey row req.sort (if req.sort = .relevance then req.query.terms else [])
    (if req.sort = .size then l.folders else []) = _
  unfold View.fullKey Entry.sortsBy sortValue
  cases hsort : req.sort with
  | size =>
    rw [hsort] at htotal
    exact congrArg SortValue.num (folderSize_eq he halive (htotal rfl))
  | path => exact congrArg SortValue.text (View.opened_joined (s := (l.entries, l.alive)) he)
  | relevance =>
    have hsteps : l.view.steps (l.view.seg.dirId row) = stepsOf e.parent := by
      unfold View.steps DirTable.get
      rw [show l.view.seg.dirs.paths[l.view.seg.dirId row]? = some e.parent from
        buildSorted_dirId he]
      rfl
    dsimp only
    rw [foldedName_eq he, hsteps]
    rfl
  | name => exact congrArg SortValue.text (foldedName_eq he)
  | ext =>
    dsimp only
    rw [foldedName_eq he, hname]
  | kind =>
    refine congrArg SortValue.num ?_
    show List.getD (l.entries.map _) row 0 = _
    rw [List.getD_eq_getElem?_getD, List.getElem?_map, he]
    rfl
  | modified => exact congrArg SortValue.num (hnum .mtime (by decide))
  | created => exact congrArg SortValue.num (hnum .ctime (by decide))
  | accessed => exact congrArg SortValue.num (hnum .atime (by decide))
  | mode => exact congrArg SortValue.num (hnum .mode (by decide))
  | uid => exact congrArg SortValue.num (hnum .uid (by decide))
  | gid => exact congrArg SortValue.num (hnum .gid (by decide))
  | disk => exact congrArg SortValue.num (hnum .disk (by decide))

/-! ## The rows of an answer -/

/-- The entries of the rows that are live. -/
def liveEntries (l : OpenSegment P) : List Entry := l.view.liveEntries

/-- The rows a segment answers with are its live entries that are shown. -/
theorem answers_segment {hidden : PrefixSet} (hc : hidden.Clean) {req : SearchRequest}
    {plan : Plan P} (hp : Plan.compile req.query l.view = .ok plan)
    {total : Entry → Option Int64} (htotal : req.sort = .size → l.Totals total) :
    l.answers hidden req =
      (l.liveEntries.filter (Entry.shown P hidden req.query)).map fun e =>
        (e.sortsBy P req total, e) := by
  unfold answers
  rw [hp]
  dsimp only
  unfold matching liveEntries View.liveEntries
  rw [show l.view.seg.rows = l.view.rows from (View.opened_rows (P := P)).trans l.rows_eq.symm,
    List.filter_filterMap, List.map_filterMap, List.filterMap_filter, List.filterMap_filter]
  refine List.filterMap_congr fun row _ => ?_
  rw [show l.view.seg.entry row = l.entries[row]? from View.opened_entry row]
  cases he : l.entries[row]? with
  | none => simp
  | some e =>
    rw [accepts_eq he hp, hides_eq hc he]
    unfold Entry.shown
    cases halive : l.view.isAlive row with
    | false => rfl
    | true =>
      rw [Option.map_some, full_eq hp he halive htotal]
      cases htakes : req.query.takes P e <;> cases hscan : scanned hidden e <;>
        simp [htakes, hscan]

end OpenSegment

/-- The rows of an answer are the live entries that are shown. -/
theorem answers_eq {hidden : PrefixSet} (hc : hidden.Clean) {req : SearchRequest}
    {ls : List (OpenSegment P)} (hquery : queryError req.query ls = none)
    {total : Entry → Option Int64} (htotal : req.sort = .size → ∀ l ∈ ls, l.Totals total) :
    answers hidden req ls =
      ((ls.flatMap OpenSegment.liveEntries).filter (Entry.shown P hidden req.query)).map fun e =>
        (e.sortsBy P req total, e) := by
  induction ls with
  | nil => rfl
  | cons l ls ih =>
    unfold queryError at hquery
    split at hquery
    · cases hquery
    · rename_i plan hp
      have hfirst := OpenSegment.answers_segment hc hp fun hsort => htotal hsort l List.mem_cons_self
      have hrest := ih hquery fun hsort m hm => htotal hsort m (List.mem_cons_of_mem _ hm)
      unfold answers at hrest ⊢
      rw [List.flatMap_cons, List.flatMap_cons, List.filter_append, List.map_append, hfirst, hrest]

end

end Scour
