import Scour.Handed
import Scour.Lib.Arrange
import Scour.Pages

/-!
# The page of all segments

What the merge compares is the key in full, then the date, then the path (`cmpLe_iff`).  Every segment
hands over enough for the page, so the window cut from what they hand over is a window of all rows
that match and are not hidden, arranged in the order asked for (`search_walked`).
-/

namespace Scour

/-! ## What the merge compares -/

/-- `Ord` on strings is their order. -/
theorem compare_of_lt : ∀ {a b : Str}, a < b → compare a b = .lt := by
  intro a
  induction a with
  | nil =>
    intro b h
    cases b with
    | nil => exact absurd h (List.not_lt_nil _)
    | cons y b => rfl
  | cons x a ih =>
    intro b h
    cases b with
    | nil => exact absurd h (List.not_lt_nil _)
    | cons y b =>
      rw [List.compare_eq_compareLex, List.compareLex_cons_cons]
      rcases List.cons_lt_cons_iff.mp h with hlt | ⟨rfl, hlt⟩
      · rw [compare_lt_iff_lt.mpr hlt]
        rfl
      · rw [compare_eq_iff_eq.mpr rfl, ← List.compare_eq_compareLex, ih hlt]
        rfl

theorem compare_of_gt {a b : Str} (h : b < a) : compare a b = .gt := by
  have hswap : compare a b = (compare b a).swap := Std.OrientedCmp.eq_swap
  rw [hswap, compare_of_lt h]
  rfl

theorem compare_self (a : Str) : compare a a = .eq := Std.ReflCmp.compare_self

theorem compare_key (desc : Bool) (x y : SortValue) :
    (if desc then (compare x y).swap else compare x y) =
      if keyLt desc x y then .lt else if x = y then .eq else .gt := by
  unfold keyLt
  rcases lt_trichotomy x y with h | h | h
  · rw [compare_lt_iff_lt.mpr h]
    cases desc <;> simp [h, h.ne, h.not_gt]
  · rw [compare_eq_iff_eq.mpr h]
    cases desc <;> simp [h]
  · rw [compare_gt_iff_gt.mpr h]
    cases desc <;> simp [h, h.ne', h.not_gt]

namespace Candidate

variable {views : List View} {sort : SortKey} {desc : Bool}

/-- What a candidate sorts by in full. -/
def full (views : List View) (sort : SortKey) (c : Candidate) : SortValue :=
  match sort with
  | .name => .text (c.text views .name)
  | .ext => .text (c.text views .ext)
  | _ => c.key

/-- An abbreviated key abbreviates the text of its row. -/
def Abbreviates (views : List View) (sort : SortKey) (c : Candidate) : Prop :=
  keyIsExact sort = false → c.key = .head (head (c.text views sort))

/-- Comparing abbreviated keys and then what they abbreviate is comparing what they abbreviate. -/
theorem compare_full {a b : Candidate} (ha : a.Abbreviates views sort)
    (hb : b.Abbreviates views sort) :
    (if (compare a.key b.key).isEq ∧ keyIsExact sort = false then
        compare (a.text views sort) (b.text views sort) else compare a.key b.key) =
      compare (a.full views sort) (b.full views sort) := by
  cases hexact : keyIsExact sort with
  | true =>
    have hfull : ∀ c : Candidate, c.full views sort = c.key := by
      intro c
      unfold keyIsExact at hexact
      revert hexact
      cases sort <;> simp [full]
    rw [hfull, hfull, if_neg (by simp)]
  | false =>
    have hfull : ∀ c : Candidate, c.full views sort = .text (c.text views sort) := by
      intro c
      unfold keyIsExact at hexact
      revert hexact
      cases sort <;> simp [full]
    rw [hfull, hfull, ha hexact, hb hexact]
    generalize a.text views sort = x
    generalize b.text views sort = y
    simp only [and_true]
    rcases lt_trichotomy x y with h | h | h
    · rw [compare_lt_iff_lt.mpr ((text_lt_text _ _).mpr h)]
      rcases Nat.lt_or_eq_of_le (head_mono h) with hlt | heq
      · rw [compare_lt_iff_lt.mpr ((head_lt_head _ _).mpr hlt)]
        rfl
      · rw [heq, compare_eq_iff_eq.mpr rfl]
        exact compare_of_lt h
    · rw [h, compare_eq_iff_eq.mpr rfl, compare_eq_iff_eq.mpr rfl]
      exact compare_self y
    · rw [compare_gt_iff_gt.mpr ((text_lt_text _ _).mpr h)]
      rcases Nat.lt_or_eq_of_le (head_mono h) with hlt | heq
      · rw [compare_gt_iff_gt.mpr ((head_lt_head _ _).mpr hlt)]
        rfl
      · rw [heq, compare_eq_iff_eq.mpr rfl]
        exact compare_of_gt h

/-- What breaks a tie on key and date: in one segment the row, and the path across segments. -/
def Breaks (views : List View) (a b : Candidate) : Prop :=
  if a.seg = b.seg then a.row ≤ b.row else a.path views ≤ b.path views

theorem compare_breaks (a b : Candidate) :
    (if a.seg = b.seg then compare a.row b.row
      else compare (a.path views) (b.path views)) ≠ .gt ↔ Breaks views a b := by
  unfold Breaks
  split
  · rw [Ne, compare_gt_iff_gt, not_lt]
  · rcases lt_trichotomy (a.path views) (b.path views) with h | h | h
    · simp [compare_of_lt h, h.le]
    · simp [h]
    · simp [compare_of_gt h, h]

/-- The order the merge imposes. -/
theorem cmpLe_iff {a b : Candidate} (ha : a.Abbreviates views sort) (hb : b.Abbreviates views sort) :
    Search.CmpLe (cmp views sort desc) a b ↔
      keyLt desc (a.full views sort) (b.full views sort) ∨
        (a.full views sort = b.full views sort ∧
          (b.mtime < a.mtime ∨ (a.mtime = b.mtime ∧ Breaks views a b))) := by
  unfold Search.CmpLe cmp
  dsimp only
  rw [compare_full ha hb, compare_key, ← compare_breaks]
  generalize a.full views sort = x
  generalize b.full views sort = y
  generalize (if a.seg = b.seg then compare a.row b.row
    else compare (a.path views) (b.path views)) = o
  by_cases hlt : keyLt desc x y
  · simp [hlt]
  by_cases heq : x = y
  · rw [if_neg hlt, if_pos heq]
    rcases lt_trichotomy b.mtime a.mtime with h | h | h
    · simp [compare_lt_iff_lt.mpr h, heq, h]
    · simp [h, heq, heq ▸ hlt]
    · simp [compare_gt_iff_gt.mpr h, heq, h.not_gt, h.ne, heq ▸ hlt]
  · simp [hlt, heq]

/-- Rows the merge does not tell apart by key, date and path. -/
def Ties (views : List View) (sort : SortKey) (a b : Candidate) : Prop :=
  a.full views sort = b.full views sort ∧ a.mtime = b.mtime ∧ a.path views = b.path views

end Candidate

/-- Without a folder table. -/
theorem noFolders : ([] : Folders).Pairwise fun f g => f.1 < g.1 := List.Pairwise.nil

/-! ## The rows that match -/

section
variable {P : Platform}

namespace OpenSegment

/-- The walk a search makes over the segment, whatever it has left to count. -/
def asked (hidden : PrefixSet) (req : SearchRequest) (plan : Plan P) (l : OpenSegment P) :
    SegmentWalk P :=
  l.walk hidden plan ⟨req.sort, req.descending, 0, req.need, req.need⟩
    (if req.sort = .size then l.folders else []) none

/-- A row as the merge compares it. -/
def candidate (hidden : PrefixSet) (req : SearchRequest) (plan : Plan P) (which : Nat)
    (l : OpenSegment P) (row : Nat) : Candidate :=
  ⟨(l.asked hidden req plan).key row, l.view.mtime row, which, row⟩

/-- The matches of one segment, under the number it has. -/
def candidates (hidden : PrefixSet) (req : SearchRequest) (which : Nat) (l : OpenSegment P) :
    List Candidate :=
  match (Plan.compile req.query l.view : Except QueryError (Plan P)) with
  | .error _ => []
  | .ok plan => (l.matching hidden plan).map (l.candidate hidden req plan which)

end OpenSegment

/-- The matches of all segments, the first of them under this number. -/
def candidatesFrom (hidden : PrefixSet) (req : SearchRequest) : Nat → List (OpenSegment P) →
    List Candidate
  | _, [] => []
  | which, l :: ls => l.candidates hidden req which ++ candidatesFrom hidden req (which + 1) ls

variable {hidden : PrefixSet} {req : SearchRequest}

theorem length_candidatesFrom (ls : List (OpenSegment P)) : ∀ which,
    (candidatesFrom hidden req which ls).length = (matchingRows hidden req.query ls).length := by
  induction ls with
  | nil => exact fun _ => rfl
  | cons l ls ih =>
    intro which
    unfold matchingRows at ih ⊢
    rw [candidatesFrom, List.length_append, ih, List.flatMap_cons, List.length_append]
    congr 1
    unfold OpenSegment.candidates
    cases (Plan.compile req.query l.view : Except QueryError (Plan P)) with
    | error _ => rfl
    | ok plan =>
      dsimp only
      rw [List.length_map, List.length_map]

/-- A candidate is a match of the segment it names. -/
structure OfRow (hidden : PrefixSet) (req : SearchRequest) (ls : List (OpenSegment P))
    (l : OpenSegment P) (plan : Plan P) (c : Candidate) : Prop where
  seg : ls[c.seg]? = some l
  compiled : Plan.compile req.query l.view = .ok plan
  row : c.row ∈ l.matching hidden plan
  eq : c = l.candidate hidden req plan c.seg c.row

theorem mem_candidatesFrom {c : Candidate} (ls : List (OpenSegment P)) : ∀ which,
    c ∈ candidatesFrom hidden req which ls →
      ∃ i l, ls[i]? = some l ∧ c.seg = which + i ∧ c ∈ l.candidates hidden req (which + i) := by
  induction ls with
  | nil => exact fun _ h => by cases h
  | cons l ls ih =>
    intro which h
    rcases List.mem_append.mp h with h | h
    · refine ⟨0, l, rfl, ?_, h⟩
      unfold OpenSegment.candidates at h
      split at h
      · cases h
      · obtain ⟨row, -, rfl⟩ := List.mem_map.mp h
        rfl
    · obtain ⟨i, k, hk, hseg, hmem⟩ := ih (which + 1) h
      refine ⟨i + 1, k, hk, by omega, ?_⟩
      rwa [show which + (i + 1) = which + 1 + i by omega]

theorem ofRow_of_mem {ls : List (OpenSegment P)} {c : Candidate}
    (h : c ∈ candidatesFrom hidden req 0 ls) : ∃ l plan, OfRow hidden req ls l plan c := by
  obtain ⟨i, l, hl, hseg, hmem⟩ := mem_candidatesFrom ls 0 h
  rw [Nat.zero_add] at hseg hmem
  unfold OpenSegment.candidates at hmem
  split at hmem
  · cases hmem
  · rename_i plan hplan
    obtain ⟨row, hrow, rfl⟩ := List.mem_map.mp hmem
    exact ⟨l, plan, hl, hplan, hrow, rfl⟩

theorem nodup_candidates (which : Nat) (l : OpenSegment P) :
    (l.candidates hidden req which).Nodup := by
  unfold OpenSegment.candidates
  split
  · exact List.nodup_nil
  · exact (List.nodup_range.filter _).map fun a b hab => (Candidate.mk.inj hab).2.2.2

theorem nodup_candidatesFrom (ls : List (OpenSegment P)) : ∀ which,
    (candidatesFrom hidden req which ls).Nodup := by
  induction ls with
  | nil => exact fun _ => List.nodup_nil
  | cons l ls ih =>
    intro which
    refine List.nodup_append.mpr ⟨nodup_candidates which l, ih _, ?_⟩
    rintro a ha b hb rfl
    obtain ⟨i, -, -, hseg, -⟩ := mem_candidatesFrom ls (which + 1) hb
    obtain ⟨j, m, hj, hwhich, -⟩ := mem_candidatesFrom [l] which (List.mem_append_left _ ha)
    obtain rfl : j = 0 := by
      have := (List.getElem?_eq_some_iff.mp hj).1
      rw [List.length_singleton] at this
      omega
    omega

namespace OfRow

variable {ls : List (OpenSegment P)} {l : OpenSegment P} {plan : Plan P} {c : Candidate}

theorem view (h : OfRow hidden req ls l plan c) : (ls.map (·.view))[c.seg]? = some l.view := by
  rw [List.getElem?_map, h.seg]
  rfl

theorem row_lt (h : OfRow hidden req ls l plan c) : c.row < l.entries.length := by
  rw [← l.rows_eq]
  exact List.mem_range.mp (List.mem_of_mem_filter h.row)

theorem key_eq (h : OfRow hidden req ls l plan c) : c.key = (l.asked hidden req plan).key c.row := by
  conv_lhs => rw [h.eq]
  rfl

theorem mtime_eq (h : OfRow hidden req ls l plan c) : c.mtime = l.view.mtime c.row := by
  conv_lhs => rw [h.eq]
  rfl

theorem path_eq (h : OfRow hidden req ls l plan c) :
    c.path (ls.map (·.view)) = l.view.joined c.row := by
  unfold Candidate.path
  rw [h.view]

theorem text_name (h : OfRow hidden req ls l plan c) :
    c.text (ls.map (·.view)) .name = l.view.foldedName c.row := by
  unfold Candidate.text
  rw [h.view]

theorem text_ext (h : OfRow hidden req ls l plan c) : c.text (ls.map (·.view)) .ext =
    foldedExtension (l.view.seg.names.getD c.row []) (l.view.foldedName c.row) := by
  unfold Candidate.text
  rw [h.view]

theorem full_eq (h : OfRow hidden req ls l plan c) :
    c.full (ls.map (·.view)) req.sort = (l.asked hidden req plan).full c.row := by
  have hfull : (l.asked hidden req plan).full c.row = l.view.fullKey c.row req.sort
    (l.asked hidden req plan).scoreTerms (if req.sort = .size then l.folders else []) := rfl
  have hkey : c.key = sortValue l.view c.row (l.view.foldedName c.row) req.sort
    (l.asked hidden req plan).scoreTerms (if req.sort = .size then l.folders else []) := h.key_eq
  rw [hfull]
  generalize (l.asked hidden req plan).scoreTerms = terms at hkey ⊢
  generalize (if req.sort = .size then l.folders else []) = folders at hkey ⊢
  revert hkey
  cases req.sort <;> intro hkey <;>
    first
      | exact hkey
      | exact congrArg SortValue.text h.text_name
      | exact congrArg SortValue.text h.text_ext

theorem abbreviates (h : OfRow hidden req ls l plan c) :
    c.Abbreviates (ls.map (·.view)) req.sort := by
  intro hexact
  have hkey : c.key = sortValue l.view c.row (l.view.foldedName c.row) req.sort
    (l.asked hidden req plan).scoreTerms (if req.sort = .size then l.folders else []) := h.key_eq
  rw [hkey]
  unfold Candidate.text
  rw [h.view]
  unfold keyIsExact at hexact
  revert hexact
  cases req.sort <;> simp [sortValue]

/-- The row read back. -/
theorem entry (h : OfRow hidden req ls l plan c) :
    ∃ e, l.entries[c.row]? = some e ∧ c.mtime = e.info.mtime ∧
      c.path (ls.map (·.view)) = e.path.bytes ∧ c.hit (ls.map (·.view)) = some (e.hit P) := by
  have he := List.getElem?_eq_getElem h.row_lt
  refine ⟨_, he, ?_, ?_, ?_⟩
  · rw [h.mtime_eq]
    exact View.opened_mtime (s := (l.entries, l.alive)) he
  · rw [h.path_eq]
    exact View.opened_joined (s := (l.entries, l.alive)) he
  · unfold Candidate.hit
    rw [h.view, Option.bind_some]
    have hname : l.view.seg.names[c.row]? = some _ := View.opened_name (s := (l.entries, l.alive)) he
    have hhit : l.view.hit c.row _ = _ := View.opened_hit (s := (l.entries, l.alive)) he
    rw [hname, Option.map_some, hhit]

/-- In one segment the row number is the order of date and path. -/
theorem stored (h : OfRow hidden req ls l plan c) {d : Candidate} {m : OpenSegment P} {plan' : Plan P}
    (hd : OfRow hidden req ls m plan' d) (hseg : c.seg = d.seg) (hle : c.row ≤ d.row)
    (hdate : c.mtime = d.mtime) : c.path (ls.map (·.view)) ≤ d.path (ls.map (·.view)) := by
  obtain rfl : l = m := by
    have := h.seg
    rw [hseg, hd.seg] at this
    exact (Option.some.inj this).symm
  obtain ⟨e, he, hem, hep, -⟩ := h.entry
  obtain ⟨f, hf, hfm, hfp, -⟩ := hd.entry
  rw [hep, hfp]
  rcases Nat.eq_or_lt_of_le hle with heq | hlt
  · rw [heq, hf] at he
    rw [Option.some.inj he]
  · obtain ⟨hi, rfl⟩ := List.getElem?_eq_some_iff.mp he
    obtain ⟨hj, rfl⟩ := List.getElem?_eq_some_iff.mp hf
    have hsorted := List.pairwise_iff_getElem.mp l.sorted _ _ hi hj hlt
    unfold storedLe at hsorted
    rcases hsorted with h | ⟨-, h⟩
    · omega
    · exact h

end OfRow

/-- What ties with rows of one segment from another ties with one row of it. -/
def Untied (views : List View) (sort : SortKey) (l : List Candidate) : Prop :=
  ∀ a ∈ l, ∀ b ∈ l, ∀ c ∈ l, a.Ties views sort b → b.Ties views sort c → a.seg = c.seg →
    b.seg ≠ a.seg → a.row = c.row

/-- The merge can sort by its comparison. -/
theorem compares_candidates {ls : List (OpenSegment P)}
    (hties : Untied (ls.map (·.view)) req.sort (candidatesFrom hidden req 0 ls)) :
    Search.Compares (Candidate.cmp (ls.map (·.view)) req.sort req.descending)
      (candidatesFrom hidden req 0 ls) where
  total a ha b hb := by
    obtain ⟨l, plan, hla⟩ := ofRow_of_mem ha
    obtain ⟨m, plan', hmb⟩ := ofRow_of_mem hb
    rw [Candidate.cmpLe_iff hla.abbreviates hmb.abbreviates,
      Candidate.cmpLe_iff hmb.abbreviates hla.abbreviates]
    rcases @keyLt_tri req.descending (a.full (ls.map (·.view)) req.sort)
      (b.full (ls.map (·.view)) req.sort) with h | h | h
    · exact Or.inl (Or.inl h)
    · rcases lt_trichotomy a.mtime b.mtime with hm | hm | hm
      · exact Or.inr (Or.inr ⟨h.symm, Or.inl hm⟩)
      · have hbreaks : Candidate.Breaks (ls.map (·.view)) a b ∨
            Candidate.Breaks (ls.map (·.view)) b a := by
          unfold Candidate.Breaks
          by_cases hseg : a.seg = b.seg
          · rw [if_pos hseg, if_pos hseg.symm]
            exact Nat.le_total _ _
          · rw [if_neg hseg, if_neg (Ne.symm hseg)]
            exact le_total _ _
        exact hbreaks.imp (fun hr => Or.inr ⟨h, Or.inr ⟨hm, hr⟩⟩)
          fun hr => Or.inr ⟨h.symm, Or.inr ⟨hm.symm, hr⟩⟩
      · exact Or.inl (Or.inr ⟨h, Or.inl hm⟩)
    · exact Or.inr (Or.inl h)
  trans a ha b hb c hc := by
    obtain ⟨l, plan, hla⟩ := ofRow_of_mem ha
    obtain ⟨m, plan', hmb⟩ := ofRow_of_mem hb
    obtain ⟨n, plan'', hnc⟩ := ofRow_of_mem hc
    rw [Candidate.cmpLe_iff hla.abbreviates hmb.abbreviates,
      Candidate.cmpLe_iff hmb.abbreviates hnc.abbreviates,
      Candidate.cmpLe_iff hla.abbreviates hnc.abbreviates]
    rintro (hab | ⟨hab, hab'⟩) (hbc | ⟨hbc, hbc'⟩)
    · exact Or.inl (keyLt_trans hab hbc)
    · exact Or.inl (hbc ▸ hab)
    · exact Or.inl (hab ▸ hbc)
    · refine Or.inr ⟨hab.trans hbc, ?_⟩
      rcases hab' with hm | ⟨hm, hr⟩ <;> rcases hbc' with hm' | ⟨hm', hr'⟩
      · exact Or.inl (hm'.trans hm)
      · exact Or.inl (hm' ▸ hm)
      · exact Or.inl (hm ▸ hm')
      · refine Or.inr ⟨hm.trans hm', ?_⟩
        have hpath : ∀ {x y : Candidate} {k k' : OpenSegment P} {p p' : Plan P},
            OfRow hidden req ls k p x → OfRow hidden req ls k' p' y → x.mtime = y.mtime →
              Candidate.Breaks (ls.map (·.view)) x y →
                x.path (ls.map (·.view)) ≤ y.path (ls.map (·.view)) := by
          intro x y k k' p p' hx hy hmtime hbreaks
          unfold Candidate.Breaks at hbreaks
          split at hbreaks
          · exact hx.stored hy ‹_› hbreaks hmtime
          · exact hbreaks
        have hpab := hpath hla hmb hm hr
        have hpbc := hpath hmb hnc hm' hr'
        unfold Candidate.Breaks at hr hr' ⊢
        split
        · rename_i hac
          by_cases hseg : b.seg = a.seg
          · rw [if_pos hseg.symm] at hr
            rw [if_pos (hseg.trans hac)] at hr'
            exact hr.trans hr'
          · by_contra hlt
            have hpca := hnc.stored hla hac.symm (by omega) (hm.trans hm').symm
            -- all three lie on one path
            have hpa : a.path (ls.map (·.view)) = b.path (ls.map (·.view)) :=
              le_antisymm hpab (hpbc.trans hpca)
            have hpc : b.path (ls.map (·.view)) = c.path (ls.map (·.view)) :=
              le_antisymm hpbc (hpca.trans hpab)
            have := hties a ha b hb c hc ⟨hab, hm, hpa⟩ ⟨hbc, hm', hpc⟩ hac hseg
            omega
        · exact hpab.trans hpbc

/-! ## What the segments hand over -/

theorem OpenSegment.slash_notMem_name (l : OpenSegment P) (row : Nat) :
    slash ∉ l.view.seg.names.getD row [] := by
  show slash ∉ (l.entries.map Entry.name).getD row []
  rw [List.getD_eq_getElem?_getD, List.getElem?_map]
  cases l.entries[row]? with
  | none => exact List.not_mem_nil
  | some e => exact splitPath_name_slash _

/-- A page read backwards through the path order does not end among rows of one path. -/
def OpenSegment.Unsplit (hidden : PrefixSet) (req : SearchRequest) (l : OpenSegment P) : Prop :=
  req.sort = .path → req.descending = true → ∀ plan : Plan P,
    Plan.compile req.query l.view = .ok plan → (l.asked hidden req plan).Whole

/-- A row before another is before it in the merge. -/
theorem before_of_before {ls : List (OpenSegment P)} {l : OpenSegment P} {plan : Plan P} {a b : Nat}
    {which : Nat} (hseg : ls[which]? = some l) (hp : Plan.compile req.query l.view = .ok plan)
    (ha : a ∈ l.matching hidden plan) (hb : b ∈ l.matching hidden plan)
    (hab : (l.asked hidden req plan).Before a b) :
    ¬ Search.CmpLe (Candidate.cmp (ls.map (·.view)) req.sort req.descending)
      (l.candidate hidden req plan which b) (l.candidate hidden req plan which a) := by
  have hra : OfRow hidden req ls l plan (l.candidate hidden req plan which a) := ⟨hseg, hp, ha, rfl⟩
  have hrb : OfRow hidden req ls l plan (l.candidate hidden req plan which b) := ⟨hseg, hp, hb, rfl⟩
  rw [Candidate.cmpLe_iff hrb.abbreviates hra.abbreviates, hra.full_eq, hrb.full_eq]
  unfold SegmentWalk.Before at hab
  rintro (h | ⟨h, hrest⟩)
  · rcases hab with hab | ⟨hab, -⟩
    · exact keyLt_irrefl _ (keyLt_trans hab h)
    · exact keyLt_irrefl _ (hab ▸ h)
  · rcases hab with hab | ⟨-, hrow⟩
    · exact keyLt_irrefl _ (h ▸ hab)
    · have hdate : l.view.mtime b ≤ l.view.mtime a :=
        opened_mtime_le (s := (l.entries, l.alive)) l.sorted hrow.le hrb.row_lt
      rcases hrest with hlt | ⟨-, hbreaks⟩
      · exact absurd hdate (not_le.mpr hlt)
      · exact absurd hrow (not_lt.mpr ((if_pos rfl).mp hbreaks))

/-- What a walk of one segment hands over is enough of its matches. -/
theorem keeps_found {ls : List (OpenSegment P)} {l : OpenSegment P} {plan : Plan P} {which : Nat}
    (hseg : ls[which]? = some l) (hp : Plan.compile req.query l.view = .ok plan)
    (hunsplit : l.Unsplit hidden req) (countCap : Nat) {f : Found}
    (hf : runWith l.view l.orders plan ⟨req.sort, req.descending, 0, req.need, countCap⟩
      (l.conceals hidden) (if req.sort = .size then l.folders else []) = some f) :
    (f.ranked.map fun r => (⟨r.key, r.mtime, which, r.row⟩ : Candidate)).Nodup ∧
      Search.Keeps (Search.CmpLe (Candidate.cmp (ls.map (·.view)) req.sort req.descending)) req.need
        ((l.matching hidden plan).map (l.candidate hidden req plan which))
        (f.ranked.map fun r => ⟨r.key, r.mtime, which, r.row⟩) := by
  have hfolders : (if req.sort = .size then l.folders else []).Pairwise fun f g => f.1 < g.1 := by
    split
    · exact l.byRow
    · exact List.Pairwise.nil
  obtain ⟨f', named, hrun, hfound⟩ := @runWith_found P l.view l.orders plan
    ⟨req.sort, req.descending, 0, req.need, countCap⟩ (l.conceals hidden)
    (if req.sort = .size then l.folders else [])
  obtain rfl : f = f' := Option.some.inj (hf.symm.trans hrun)
  have hsound := @OpenSegment.sound_walk P l hidden _ _ hp
    ⟨req.sort, req.descending, 0, req.need, countCap⟩ _ hfolders named
  have hshown := l.shownRows_walk hidden plan ⟨req.sort, req.descending, 0, req.need, countCap⟩
    (if req.sort = .size then l.folders else []) named
  have hdates : ∀ i j, i ≤ j → j < l.view.rows → l.view.mtime j ≤ l.view.mtime i :=
    fun i j hij hj => opened_mtime_le (s := (l.entries, l.alive)) l.sorted hij (l.rows_eq ▸ hj)
  change (l.walk hidden plan ⟨req.sort, req.descending, 0, req.need, countCap⟩
    (if req.sort = .size then l.folders else []) named).found = some f at hfound
  unfold SegmentWalk.found at hfound
  obtain ⟨⟨s, skipped⟩, hs, rfl⟩ := Option.map_eq_some_iff.mp hfound
  obtain ⟨rows, hands⟩ := SegmentWalk.hands_walk hsound hdates l.slash_notMem_name hs
  have hbefore := hands.before fun hturned => by
    unfold SegmentWalk.turned SegmentWalk.pathStream SegmentWalk.streams at hturned
    simp only [Bool.and_eq_true, beq_iff_eq] at hturned
    have hwhole := hunsplit hturned.1.1.1.1.1 hturned.2 plan hp
    unfold SegmentWalk.Whole at hwhole ⊢
    rw [show (l.asked hidden req plan).shownRows = l.matching hidden plan from
      l.shownRows_walk hidden plan _ _ _] at hwhole
    rw [hshown]
    exact hwhole
  have hneed : (l.walk hidden plan ⟨req.sort, req.descending, 0, req.need, countCap⟩
      (if req.sort = .size then l.folders else []) named).need = req.need := Nat.zero_add _
  have hsub : rows ⊆ l.matching hidden plan := hshown ▸ hands.sub
  rw [hshown, hneed] at hbefore
  dsimp only
  rw [List.map_map, hands.entries, List.map_map]
  change (rows.map (l.candidate hidden req plan which)).Nodup ∧
    Search.Keeps _ _ _ (rows.map (l.candidate hidden req plan which))
  refine ⟨hands.nodup.map fun a b hab => (Candidate.mk.inj hab).2.2.2,
    fun c hc => ?_, fun c hc => ?_⟩
  · obtain ⟨row, hrow, rfl⟩ := List.mem_map.mp hc
    exact List.mem_map_of_mem (hsub hrow)
  · obtain ⟨row, hrow, rfl⟩ := List.mem_map.mp hc
    refine (hbefore row hrow).imp (fun h => List.mem_map_of_mem h) fun h => h.trans ?_
    unfold Search.before
    rw [List.countP_map]
    refine List.countP_mono_left fun y hy hyrow => ?_
    rw [decide_eq_true_eq] at hyrow
    rw [Function.comp_apply, Bool.not_eq_true', decide_eq_false_iff_not]
    exact before_of_before hseg hp hy hrow hyrow

/-- What one segment adds to the pool is enough of its matches. -/
theorem searchSegment_pooled {ls : List (OpenSegment P)} {l : OpenSegment P} {plan : Plan P}
    {which : Nat} (hseg : ls[which]? = some l) (hp : Plan.compile req.query l.view = .ok plan)
    (hunsplit : l.Unsplit hidden req) {s s' : Pooled}
    (h : searchSegment hidden req which l s = .ok s') :
    ∃ cs, s'.pool = s.pool ++ cs ∧ cs.Nodup ∧
      Search.Keeps (Search.CmpLe (Candidate.cmp (ls.map (·.view)) req.sort req.descending)) req.need
        (l.candidates hidden req which) cs := by
  have hcandidates : l.candidates hidden req which =
      (l.matching hidden plan).map (l.candidate hidden req plan which) := by
    unfold OpenSegment.candidates
    rw [hp]
  rw [hcandidates]
  unfold searchSegment at h
  rw [hp] at h
  dsimp only at h
  split at h
  · rename_i hnone
    rw [← Except.ok.inj h]
    exact ⟨[], (List.append_nil _).symm, List.nodup_nil, List.nil_subset _,
      fun c _ => Or.inr (hnone.2 ▸ Nat.zero_le _)⟩
  · split at h
    · cases h
    · rename_i found hf
      rw [← Except.ok.inj h]
      obtain ⟨hnodup, hkeeps⟩ := keeps_found hseg hp hunsplit _ hf
      exact ⟨_, rfl, hnodup, hkeeps⟩

theorem searchSegments_pooled {all : List (OpenSegment P)} (ls : List (OpenSegment P)) :
    ∀ (which : Nat) {s s' : Pooled}, ls = all.drop which → (∀ l ∈ ls, l.Unsplit hidden req) →
      searchSegments hidden req which ls s = .ok s' →
      ∃ cs, s'.pool = s.pool ++ cs ∧ cs.Nodup ∧
        Search.Keeps (Search.CmpLe (Candidate.cmp (all.map (·.view)) req.sort req.descending))
          req.need (candidatesFrom hidden req which ls) cs := by
  induction ls with
  | nil =>
    intro which s s' _ _ h
    rw [← Except.ok.inj h]
    exact ⟨[], (List.append_nil _).symm, List.nodup_nil, Search.Keeps.refl _ _⟩
  | cons l ls ih =>
    intro which s s' hdrop hunsplit h
    have hseg : all[which]? = some l := by
      have := congrArg (·[0]?) hdrop
      simpa using this.symm
    have hrest : ls = all.drop (which + 1) := by
      have := congrArg List.tail hdrop
      simpa using this
    unfold searchSegments at h
    split at h
    · cases h
    · rename_i t ht
      have hp : ∃ plan : Plan P, Plan.compile req.query l.view = .ok plan := by
        cases hp : (Plan.compile req.query l.view : Except QueryError (Plan P)) with
        | error e =>
          unfold searchSegment at ht
          rw [hp] at ht
          cases ht
        | ok plan => exact ⟨plan, rfl⟩
      obtain ⟨plan, hp⟩ := hp
      obtain ⟨cs, hpool, hnodup, hkeeps⟩ :=
        searchSegment_pooled hseg hp (hunsplit l List.mem_cons_self) ht
      obtain ⟨ds, hpool', hnodup', hkeeps'⟩ :=
        ih (which + 1) hrest (fun m hm => hunsplit m (List.mem_cons_of_mem _ hm)) h
      refine ⟨cs ++ ds, by rw [hpool', hpool, List.append_assoc], ?_, hkeeps.concat hkeeps'⟩
      have hall := @nodup_candidatesFrom P hidden req (l :: ls) which
      exact List.nodup_append.mpr ⟨hnodup, hnodup', fun a ha b hb =>
        (List.nodup_append.mp hall).2.2 a (hkeeps.sub ha) b (hkeeps'.sub hb)⟩

/-- **A page walked to** is a page of all rows that match and are not hidden, arranged in the order
asked for. -/
theorem search_walked (u : Search.Unstable Candidate) {ls : List (OpenSegment P)}
    (hquery : queryError req.query ls = none)
    (hwalk : (if req.reaches hidden then reach (ls.map (·.view)) req.offset req.limit req.cap
      else .walk) = .walk)
    (hunsplit : ∀ l ∈ ls, l.Unsplit hidden req)
    (hties : Untied (ls.map (·.view)) req.sort (candidatesFrom hidden req 0 ls)) :
    ∃ arranged, Search.Arranges (Candidate.cmp (ls.map (·.view)) req.sort req.descending)
        (candidatesFrom hidden req 0 ls) arranged ∧
      search hidden req u ls = .ok
        ⟨((arranged.drop req.offset).take req.limit).filterMap (Candidate.hit (ls.map (·.view))),
          min arranged.length req.cap, decide (req.cap ≤ arranged.length)⟩ := by
  have hcounted := @searchSegments_counted P hidden req ls 0 ⟨0, req.cap, []⟩
  rw [hquery] at hcounted
  obtain ⟨s, n, hs, hn, hle, hmin⟩ := hcounted
  obtain ⟨cs, hpool, hnodup, hkeeps⟩ := searchSegments_pooled ls 0 rfl hunsplit hs
  rw [List.nil_append] at hpool
  have hcompares := compares_candidates hties
  obtain ⟨part, hpart, hwindow⟩ :=
    u.window_arranged (hcompares.subset hkeeps.sub) req.offset req.limit
  obtain ⟨arranged, harranged, hfirst⟩ :=
    hpart.extend hcompares (nodup_candidatesFrom ls 0) hnodup hkeeps
  have hlen : arranged.length = (matchingRows hidden req.query ls).length := by
    rw [harranged.perm.length_eq, length_candidatesFrom]
  have hpage : (part.drop req.offset).take req.limit =
      (arranged.drop req.offset).take req.limit := by
    have hdrop := congrArg (List.drop req.offset) hfirst
    unfold SearchRequest.need at hdrop
    rwa [List.drop_take, List.drop_take, Nat.add_sub_cancel_left, eq_comm] at hdrop
  refine ⟨arranged, harranged, ?_⟩
  dsimp only at hn hmin
  unfold search
  dsimp only
  rw [hwalk]
  dsimp only
  rw [hs]
  dsimp only
  rw [hpool, hwindow, hpage, hlen]
  have htotal : min s.counted req.cap = min (matchingRows hidden req.query ls).length req.cap := by
    omega
  have hcapped : req.cap ≤ s.counted ↔ req.cap ≤ (matchingRows hidden req.query ls).length := by
    omega
  rw [htotal, decide_eq_decide.mpr hcapped]

end

end Scour
