import Scour.CharBoundary

/-!
# A name cut at a match

`splitAtMatch` finds the terms in the folded name and cuts the name as it is spelled: `foldIndexed`
says where each folded byte came from.  The cut is at the characters the term came from
(`cut_spec`), for a fold that makes at most one character of one.

What is cut out is the shortest of the terms at the earliest place, where it should be the longest:
`match_covers_iff` says when that is right.
-/

namespace Scour.MatchSplit

/-! ## Folding with a map -/

/-- The loop over the characters: the folded text, and for each byte where its character begins. -/
def foldIndexedLoop (T : CaseTable) : List Char → ℕ → Str × List ℕ
  | [], i => ([], [i])
  | c :: cs, i =>
      let piece := utf8 (DefaultFolder.foldChar T c)
      let (folded, map) := foldIndexedLoop T cs (i + (String.utf8EncodeChar c).length)
      (piece ++ folded, List.replicate piece.length i ++ map)

/-- Folded text, and a map from each folded byte back to the source. -/
def foldIndexed (T : CaseTable) (src : List Char) : Str × List UInt32 :=
  let (folded, map) := foldIndexedLoop T src 0
  (folded, map.map UInt32.ofNat)

/-! ## The cut -/

/-- `str::find` -/
def findText (text needle : Str) : Option ℕ :=
  (List.range (text.length + 1)).find? fun k => needle.isPrefixOf (text.drop k)

/-- The earlier start, and then the lesser length. -/
def beats (a b : ℕ × ℕ) : Bool := a.1 < b.1 || (a.1 = b.1 && a.2 - a.1 < b.2 - b.1)

/-- One more term: where it is, if it is anywhere and before the best so far. -/
def bestStep (T : CaseTable) (folded : Str) (best : Option (ℕ × ℕ)) (term : List Char) :
    Option (ℕ × ℕ) :=
  let needle := utf8 (DefaultFolder.fold T term)
  if needle = [] then best
  else match findText folded needle with
    | none => best
    | some at_ =>
        let cand := (at_, at_ + needle.length)
        if best.all (beats cand ·) then some cand else best

/-- Down to where a character begins, -/
def boundaryDown (s : Str) : ℕ → ℕ
  | 0 => 0
  | a + 1 => if isCharBoundary s (a + 1) then a + 1 else boundaryDown s a

/-- or up, in so many steps. -/
def boundaryUp (s : Str) : ℕ → ℕ → ℕ
  | 0, b => b
  | fuel + 1, b => if isCharBoundary s b then b else boundaryUp s fuel (b + 1)

/-- What precedes the match, the match, and what follows. -/
def splitAtMatch (T : CaseTable) (name : List Char) (terms : List (List Char)) : Str × Str × Str :=
  let s := utf8 name
  let (folded, back) := foldIndexed T name
  match terms.foldl (bestStep T folded) none with
  | none => (s, [], [])
  | some (from_, to_) =>
      let a := boundaryDown s (min ((back[from_]?).getD 0).toNat s.length)
      let b₀ := min ((back[to_]?).getD (UInt32.ofNat s.length)).toNat s.length
      let b := boundaryUp s (s.length - b₀) b₀
      if b < a then (s, [], []) else (s.take a, (s.take b).drop a, s.drop b)

/-! ## The map -/

open DefaultFolder

variable {T : CaseTable}

theorem foldIndexedLoop_text (cs : List Char) (i : ℕ) :
    (foldIndexedLoop T cs i).1 = utf8 (fold T cs) ∧
      (foldIndexedLoop T cs i).2.length = (utf8 (fold T cs)).length + 1 := by
  induction cs generalizing i with
  | nil => exact ⟨rfl, rfl⟩
  | cons c cs ih =>
    obtain ⟨htext, hlen⟩ := ih (i + (String.utf8EncodeChar c).length)
    unfold foldIndexedLoop
    dsimp only
    rw [htext, fold_cons, utf8_append]
    refine ⟨rfl, ?_⟩
    rw [List.length_append, hlen, List.length_replicate, List.length_append]
    omega

/-- The map does not decrease, and stays within the source. -/
theorem foldIndexedLoop_map (cs : List Char) (i : ℕ) :
    (foldIndexedLoop T cs i).2.Pairwise (· ≤ ·) ∧
      ∀ x ∈ (foldIndexedLoop T cs i).2, i ≤ x ∧ x ≤ i + (utf8 cs).length := by
  induction cs generalizing i with
  | nil =>
    refine ⟨List.pairwise_singleton _ _, fun x hx => ?_⟩
    rw [List.mem_singleton.mp hx]
    exact ⟨le_refl _, Nat.le_add_right _ _⟩
  | cons c cs ih =>
    obtain ⟨hpair, hbound⟩ := ih (i + (String.utf8EncodeChar c).length)
    unfold foldIndexedLoop
    dsimp only
    rw [utf8_cons, List.length_append]
    constructor
    · refine List.pairwise_append.mpr ⟨List.pairwise_replicate.mpr (Or.inr (le_refl i)), hpair,
        fun x hx y hy => ?_⟩
      rw [List.eq_of_mem_replicate hx]
      have := hbound y hy
      omega
    · intro x hx
      rcases List.mem_append.mp hx with hx | hx
      · rw [List.eq_of_mem_replicate hx]
        omega
      · have := hbound x hx
        omega

/-- A byte of what a character folds to came from where the character begins. -/
theorem foldIndexedLoop_getElem? (pre : List Char) (c : Char) (post : List Char) (i : ℕ) {k : ℕ}
    (hk : k < (utf8 (foldChar T c)).length) :
    (foldIndexedLoop T (pre ++ c :: post) i).2[(utf8 (fold T pre)).length + k]? =
      some (i + (utf8 pre).length) := by
  induction pre generalizing i with
  | nil =>
    rw [List.nil_append, foldIndexedLoop]
    dsimp only
    rw [fold_nil, utf8_nil, List.length_nil, Nat.zero_add, Nat.add_zero,
      List.getElem?_append_left (by rwa [List.length_replicate]), List.getElem?_replicate, if_pos hk]
  | cons d pre ih =>
    rw [List.cons_append, foldIndexedLoop]
    dsimp only
    rw [fold_cons, utf8_append, List.length_append, Nat.add_assoc,
      List.getElem?_append_right (by rw [List.length_replicate]; omega), List.length_replicate,
      Nat.add_sub_cancel_left, ih, utf8_cons, List.length_append, Nat.add_assoc]

theorem foldIndexedLoop_last (cs : List Char) (i : ℕ) :
    (foldIndexedLoop T cs i).2[(utf8 (fold T cs)).length]? = some (i + (utf8 cs).length) := by
  induction cs generalizing i with
  | nil => rfl
  | cons c cs ih =>
    rw [foldIndexedLoop]
    dsimp only
    rw [fold_cons, utf8_append, List.length_append,
      List.getElem?_append_right (by rw [List.length_replicate]; omega), List.length_replicate,
      Nat.add_sub_cancel_left, ih, utf8_cons, List.length_append, Nat.add_assoc]

/-! ## Finding -/

theorem findText_eq_some {text needle : Str} {k : ℕ} : findText text needle = some k ↔
    needle <+: text.drop k ∧ k ≤ text.length ∧ ∀ j < k, ¬ needle <+: text.drop j := by
  unfold findText
  rw [List.find?_range_eq_some]
  simp only [List.isPrefixOf_iff_prefix, Bool.not_eq_true', Bool.eq_false_iff, ne_eq,
    List.mem_range, Nat.lt_succ_iff]

theorem findText_eq_none {text needle : Str} (h : findText text needle = none) :
    ¬ needle <:+: text := by
  rintro ⟨l, r, rfl⟩
  unfold findText at h
  rw [List.find?_eq_none] at h
  refine h l.length (List.mem_range.mpr ?_) ?_
  · rw [List.length_append, List.length_append]
    omega
  · rw [List.isPrefixOf_iff_prefix, List.append_assoc, List.drop_left' rfl]
    exact List.prefix_append _ _

/-- A term that is not empty, and where it is first. -/
structure Found (T : CaseTable) (folded : Str) (term : List Char) (p : ℕ × ℕ) : Prop where
  ne_nil : utf8 (fold T term) ≠ []
  first : findText folded (utf8 (fold T term)) = some p.1
  last : p.2 = p.1 + (utf8 (fold T term)).length

theorem bestStep_cases (T : CaseTable) (folded : Str) (best : Option (ℕ × ℕ)) (term : List Char) :
    (bestStep T folded best term = best ∧ ∀ p, ¬ Found T folded term p) ∨
      ∃ p, Found T folded term p ∧
        bestStep T folded best term = if best.all (beats p ·) then some p else best := by
  unfold bestStep
  dsimp only
  split
  · rename_i hnil
    exact Or.inl ⟨rfl, fun p hp => hp.ne_nil hnil⟩
  · rename_i hne
    split
    · rename_i hnone
      refine Or.inl ⟨rfl, fun p hp => ?_⟩
      have hfirst := hp.first
      rw [hnone] at hfirst
      cases hfirst
    · rename_i at_ hat
      exact Or.inr ⟨(at_, _), ⟨hne, hat, rfl⟩, rfl⟩

theorem beats_iff {a b : ℕ × ℕ} :
    beats a b = true ↔ a.1 < b.1 ∨ a.1 = b.1 ∧ a.2 - a.1 < b.2 - b.1 := by
  simp only [beats, Bool.or_eq_true, Bool.and_eq_true, decide_eq_true_eq]

/-- The best is a term's, and no term's is better. -/
theorem foldl_best (folded : Str) (terms : List (List Char)) (best : Option (ℕ × ℕ)) :
    (terms.foldl (bestStep T folded) best = none → best = none ∧
      ∀ t ∈ terms, ∀ p, ¬ Found T folded t p) ∧
    ∀ p, terms.foldl (bestStep T folded) best = some p →
      (best = some p ∨ ∃ t ∈ terms, Found T folded t p) ∧
      (∀ b, best = some b → beats b p = false) ∧
      ∀ t ∈ terms, ∀ q, Found T folded t q → beats q p = false := by
  induction terms generalizing best with
  | nil =>
    refine ⟨fun h => ⟨h, nofun⟩, fun p h => ⟨Or.inl h, fun b hb => ?_, nofun⟩⟩
    obtain rfl : b = p := Option.some.inj (hb.symm.trans h)
    rw [Bool.eq_false_iff, Ne, beats_iff]
    omega
  | cons t terms ih =>
    obtain ⟨hnone, hsome⟩ := ih (bestStep T folded best t)
    rw [List.foldl_cons]
    have hfound : ∀ p q, Found T folded t p → Found T folded t q → p = q := by
      intro p q hp hq
      have hfirst := Option.some.inj (hp.first.symm.trans hq.first)
      exact Prod.ext hfirst (by rw [hp.last, hq.last, hfirst])
    rcases bestStep_cases T folded best t with ⟨hsame, hnot⟩ | ⟨c, hc, hstep⟩
    · rw [hsame] at hnone hsome ⊢
      refine ⟨fun h => ⟨(hnone h).1, fun u hu p hp => ?_⟩, fun p h => ?_⟩
      · rcases List.mem_cons.mp hu with rfl | hu
        · exact hnot p hp
        · exact (hnone h).2 u hu p hp
      · obtain ⟨hfrom, hbest, hall⟩ := hsome p h
        refine ⟨hfrom.imp_right fun ⟨u, hu, hp⟩ => ⟨u, List.mem_cons_of_mem _ hu, hp⟩, hbest,
          fun u hu q hq => ?_⟩
        rcases List.mem_cons.mp hu with rfl | hu
        · exact absurd hq (hnot q)
        · exact hall u hu q hq
    · have hset : bestStep T folded best t ≠ none := by
        rw [hstep]
        split
        · exact Option.some_ne_none _
        · rename_i hall
          rintro rfl
          exact hall rfl
      refine ⟨fun h => absurd (hnone h).1 hset, fun p h => ?_⟩
      obtain ⟨hfrom, hbest, hall⟩ := hsome p h
      obtain ⟨b, hb⟩ := Option.ne_none_iff_exists'.mp hset
      have hbp := hbest b hb
      -- the step's own best is the candidate or the best before, whichever is not beaten
      have hstep' : (b = c ∨ best = some b) ∧ beats c b = false ∧
          ∀ b', best = some b' → beats b' b = false := by
        rw [hstep] at hb
        simp only [Bool.eq_false_iff, Ne, beats_iff]
        split at hb
        · rename_i hbeats
          obtain rfl := Option.some.inj hb
          refine ⟨Or.inl rfl, by omega, fun b' hb' => ?_⟩
          rw [hb', Option.all_some, beats_iff] at hbeats
          omega
        · rename_i hbeats
          rw [hb, Option.all_some, beats_iff] at hbeats
          refine ⟨Or.inr hb, hbeats, fun b' hb' => ?_⟩
          obtain rfl := Option.some.inj (hb.symm.trans hb')
          omega
      obtain ⟨horigin, hcb, hprev⟩ := hstep'
      have htrans : ∀ q, beats q b = false → beats q p = false := by
        intro q hq
        rw [Bool.eq_false_iff, Ne, beats_iff] at hq hbp ⊢
        omega
      refine ⟨?_, fun b' hb' => htrans b' (hprev b' hb'), fun u hu q hq => ?_⟩
      · rcases hfrom with hfrom | ⟨u, hu, hp⟩
        · obtain rfl := Option.some.inj (hb.symm.trans hfrom)
          rcases horigin with rfl | horigin
          · exact Or.inr ⟨t, List.mem_cons_self, hc⟩
          · exact Or.inl horigin
        · exact Or.inr ⟨u, List.mem_cons_of_mem _ hu, hp⟩
      · rcases List.mem_cons.mp hu with rfl | hu
        · obtain rfl := hfound q c hq hc
          exact htrans q hcb
        · exact hall u hu q hq

/-! ## Back to the spelling -/

/-- A character folds to one at most: `İ` lowercases to two, and the second is dropped. -/
def OneByOne (T : CaseTable) : Prop := ∀ c, (foldChar T c).length ≤ 1

/-- Each folded character came from one of the name. -/
theorem split_before (hT : OneByOne T) {name fl m : List Char} {x : Char}
    (h : fold T name = fl ++ x :: m) :
    ∃ c1 c rest, name = c1 ++ c :: rest ∧ fold T c1 = fl ∧ foldChar T c = [x] ∧ fold T rest = m := by
  induction name generalizing fl with
  | nil => simp at h
  | cons d ds ih =>
    rw [fold_cons] at h
    have hd := hT d
    cases hfold : foldChar T d with
    | nil =>
      rw [hfold, List.nil_append] at h
      obtain ⟨c1, c, rest, rfl, hc1, hc, hrest⟩ := ih h
      exact ⟨d :: c1, c, rest, rfl, by rw [fold_cons, hfold, hc1]; rfl, hc, hrest⟩
    | cons y ys =>
      rw [hfold, List.length_cons] at hd
      obtain rfl : ys = [] := List.length_eq_zero_iff.mp (by omega)
      rw [hfold, List.singleton_append] at h
      cases fl with
      | nil =>
        obtain ⟨rfl, rfl⟩ := List.cons.inj h
        exact ⟨[], d, ds, rfl, rfl, hfold, rfl⟩
      | cons z fl =>
        obtain ⟨rfl, hrest⟩ := List.cons.inj h
        obtain ⟨c1, c, rest, rfl, hc1, hc, hrest⟩ := ih hrest
        exact ⟨d :: c1, c, rest, rfl, by rw [fold_cons, hfold, hc1]; rfl, hc, hrest⟩

/-- A text within a text begins and ends with characters of it. -/
theorem text_within {cs ds : List Char} {l r : Str} (hne : ds ≠ []) (h : utf8 cs = l ++ (utf8 ds ++ r)) :
    ∃ cl cr, cs = cl ++ ds ++ cr ∧ utf8 cl = l ∧ utf8 cr = r := by
  obtain ⟨d, ds', rfl⟩ := List.exists_cons_of_ne_nil hne
  obtain ⟨b, rest, hb, hlead, -, -⟩ := utf8EncodeChar_bytes d
  have hboundary : isCharBoundary (utf8 cs) l.length = true := by
    unfold isCharBoundary
    rw [h, utf8_cons, hb, List.getElem?_append_right (le_refl _), Nat.sub_self, List.append_assoc,
      List.cons_append, List.getElem?_cons_zero, Option.any_some, hlead]
    simp
  obtain ⟨⟨cl, hcl⟩, ⟨cm, hcm⟩⟩ := isText_of_boundary ⟨cs, rfl⟩ hboundary
  rw [h, List.take_left' rfl] at hcl
  rw [h, List.drop_left' rfl] at hcm
  obtain ⟨cr, hcr⟩ := boundary_of_append hcm
  refine ⟨cl, cr, utf8_injective ?_, hcl, hcr⟩
  rw [utf8_append, utf8_append, hcl, hcr, h, List.append_assoc]

theorem boundaryDown_of {s : Str} {a : ℕ} (h : isCharBoundary s a = true) : boundaryDown s a = a := by
  cases a with
  | zero => rfl
  | succ a => rw [boundaryDown, if_pos h]

theorem boundaryUp_of {s : Str} {b : ℕ} (h : isCharBoundary s b = true) (fuel : ℕ) :
    boundaryUp s fuel b = b := by
  cases fuel with
  | zero => rfl
  | succ fuel => rw [boundaryUp, if_pos h]

/-- A name as a file system has them. -/
structure Name where
  text : List Char
  length_lt : (utf8 text).length < 2 ^ 32

variable {name : Name} {terms : List (List Char)}

theorem back_eq {k i : ℕ} (h : (foldIndexedLoop T name.text 0).2[k]? = some i) :
    ∃ w, (foldIndexed T name.text).2[k]? = some w ∧ w.toNat = i := by
  have hle := ((foldIndexedLoop_map (T := T) name.text 0).2 i (List.mem_of_getElem? h)).2
  have hlt := name.length_lt
  refine ⟨UInt32.ofNat i, ?_, ?_⟩
  · unfold foldIndexed
    dsimp only
    rw [List.getElem?_map, h]
    rfl
  · rw [UInt32.toNat_ofNat', Nat.mod_eq_of_lt (by omega)]

/-- A cut at these places. -/
theorem splitAtMatch_eq {p : ℕ × ℕ} {c1 c2 c3 : List Char}
    (hbest : terms.foldl (bestStep T (utf8 (fold T name.text))) none = some p)
    (hname : name.text = c1 ++ c2 ++ c3)
    (hfrom : (foldIndexedLoop T name.text 0).2[p.1]? = some (utf8 c1).length)
    (hto : (foldIndexedLoop T name.text 0).2[p.2]? = some (utf8 (c1 ++ c2)).length) :
    splitAtMatch T name.text terms = (utf8 c1, utf8 c2, utf8 c3) := by
  obtain ⟨wa, ha, ha'⟩ := back_eq hfrom
  obtain ⟨wb, hb, hb'⟩ := back_eq hto
  have htext : (foldIndexed T name.text).1 = utf8 (fold T name.text) :=
    (foldIndexedLoop_text _ _).1
  have hlen : (utf8 name.text).length = (utf8 c1).length + (utf8 c2).length + (utf8 c3).length := by
    rw [hname, utf8_append, utf8_append, List.length_append, List.length_append]
  have hlen12 : (utf8 (c1 ++ c2)).length = (utf8 c1).length + (utf8 c2).length := by
    rw [utf8_append, List.length_append]
  have hdown : isCharBoundary (utf8 name.text) (utf8 c1).length = true := by
    rw [hname, List.append_assoc]
    exact isCharBoundary_utf8 c1 _
  have hup : isCharBoundary (utf8 name.text) (utf8 (c1 ++ c2)).length = true := by
    rw [hname]
    exact isCharBoundary_utf8 (c1 ++ c2) _
  unfold splitAtMatch
  dsimp only
  rw [htext, hbest]
  dsimp only
  rw [ha, hb, Option.getD_some, Option.getD_some, ha', hb', Nat.min_eq_left (by omega),
    Nat.min_eq_left (by omega), boundaryDown_of hdown, boundaryUp_of hup, if_neg (by omega), hname,
    utf8_append, utf8_append, List.append_assoc, List.take_left' rfl, ← List.append_assoc,
    ← utf8_append, List.take_left' rfl, List.drop_left' rfl, utf8_append, List.drop_left' rfl]

/-- The best term is cut out, from the characters it came from. -/
theorem cut_spec (hT : OneByOne T) {t : List Char} {p : ℕ × ℕ}
    (hbest : terms.foldl (bestStep T (utf8 (fold T name.text))) none = some p)
    (hfound : Found T (utf8 (fold T name.text)) t p) :
    ∃ c1 c2 c3, splitAtMatch T name.text terms = (utf8 c1, utf8 c2, utf8 c3) ∧
      name.text = c1 ++ c2 ++ c3 ∧ fold T c2 = fold T t ∧ (utf8 (fold T c1)).length = p.1 := by
  obtain ⟨hpre, hle, -⟩ := findText_eq_some.mp hfound.first
  obtain ⟨r, hr⟩ := hpre
  have hne : fold T t ≠ [] := fun h => hfound.ne_nil (by rw [h]; rfl)
  have hsplit : utf8 (fold T name.text) =
      (utf8 (fold T name.text)).take p.1 ++ (utf8 (fold T t) ++ r) := by
    rw [hr, List.take_append_drop]
  obtain ⟨fl, fr, hfold, hfl, -⟩ := text_within hne hsplit
  have hstart : (utf8 fl).length = p.1 := by
    rw [hfl, List.length_take, Nat.min_eq_left hle]
  obtain ⟨x, m, hx⟩ := List.exists_cons_of_ne_nil hne
  -- the first character of the term, and the one behind it if there is one
  obtain ⟨c1, c, rest, hname, hc1, hc, -⟩ := split_before hT
    (show fold T name.text = fl ++ x :: (m ++ fr) by rw [hfold, hx, List.append_assoc]; rfl)
  have hfrom : (foldIndexedLoop T name.text 0).2[p.1]? = some (utf8 c1).length := by
    have hx' : 0 < (utf8 (foldChar T c)).length := by
      obtain ⟨b, bs, hb, -⟩ := utf8EncodeChar_bytes x
      rw [hc, utf8_cons, hb]
      exact Nat.zero_lt_succ _
    have hback := foldIndexedLoop_getElem? c1 c rest 0 hx'
    rwa [← hname, hc1, hstart, Nat.add_zero, Nat.zero_add] at hback
  have hlast : p.2 = (utf8 (fl ++ fold T t)).length := by
    rw [hfound.last, utf8_append, List.length_append, hstart]
  cases fr with
  | nil =>
    have hto := foldIndexedLoop_last (T := T) name.text 0
    rw [hfold, List.append_nil, ← hlast, Nat.zero_add] at hto
    refine ⟨c1, c :: rest, [], splitAtMatch_eq hbest (by rw [hname, List.append_nil]) hfrom
      (by rw [hto, hname]), by rw [hname, List.append_nil], ?_, by rw [hc1, hstart]⟩
    rw [hname, fold_append, hc1, List.append_nil] at hfold
    exact List.append_cancel_left hfold
  | cons y fr =>
    obtain ⟨d1, d, rest', hname', hd1, hd, -⟩ := split_before hT
      (show fold T name.text = fl ++ fold T t ++ y :: fr by rw [hfold, List.append_assoc])
    have hy : 0 < (utf8 (foldChar T d)).length := by
      obtain ⟨b, bs, hb, -⟩ := utf8EncodeChar_bytes y
      rw [hd, utf8_cons, hb]
      exact Nat.zero_lt_succ _
    have hto := foldIndexedLoop_getElem? d1 d rest' 0 hy
    rw [← hname', hd1, ← hlast, Nat.add_zero, Nat.zero_add] at hto
    -- the second place is behind the first
    obtain ⟨a, rfl, -⟩ | ⟨a, ha, -⟩ := List.append_eq_append_iff.mp (hname.symm.trans hname')
    · rw [fold_append, hc1] at hd1
      exact ⟨c1, a, d :: rest', splitAtMatch_eq hbest hname' hfrom hto, hname',
        List.append_cancel_left hd1, by rw [hc1, hstart]⟩
    · rw [ha, fold_append, hd1, List.append_assoc] at hc1
      have hlen := congrArg List.length hc1
      rw [List.length_append, List.length_append, hx, List.length_cons] at hlen
      omega

/-! ## What should be cut out -/

/-- A cut that covers what matched: the earliest of the terms, and the longest of those there. -/
structure Covers (T : CaseTable) (name : List Char) (terms : List (List Char))
    (cut : Str × Str × Str) : Prop where
  joined : cut.1 ++ cut.2.1 ++ cut.2.2 = utf8 name
  text : IsText cut.1 ∧ IsText cut.2.1 ∧ IsText cut.2.2
  empty : cut.2.1 = [] ↔
    ∀ t ∈ terms, fold T t ≠ [] → ¬ utf8 (fold T t) <:+: utf8 (fold T name)
  term : cut.2.1 ≠ [] → ∃ c1 c2, utf8 c1 = cut.1 ∧ utf8 c2 = cut.2.1 ∧
    (∃ t ∈ terms, fold T c2 = fold T t) ∧
    (∀ u ∈ terms, fold T u ≠ [] → ∀ k, utf8 (fold T u) <+: (utf8 (fold T name)).drop k →
      (utf8 (fold T c1)).length ≤ k) ∧
    ∀ u ∈ terms, utf8 (fold T u) <+: (utf8 (fold T name)).drop (utf8 (fold T c1)).length →
      (utf8 (fold T u)).length ≤ (utf8 (fold T c2)).length

/-- At the earliest place of any term no two different ones are. -/
def OneThere (T : CaseTable) (name : List Char) (terms : List (List Char)) : Prop :=
  ∀ k, (∀ u ∈ terms, fold T u ≠ [] → ∀ j < k, ¬ utf8 (fold T u) <+: (utf8 (fold T name)).drop j) →
    ∀ t ∈ terms, ∀ u ∈ terms, fold T t ≠ [] → fold T u ≠ [] →
      utf8 (fold T t) <+: (utf8 (fold T name)).drop k →
      utf8 (fold T u) <+: (utf8 (fold T name)).drop k → fold T t = fold T u

theorem utf8_ne_nil {cs : List Char} : utf8 cs ≠ [] ↔ cs ≠ [] :=
  not_congr ⟨fun h => utf8_injective h, fun h => by rw [h]; rfl⟩

/-- A term that is somewhere is first there or before. -/
theorem found_of_prefix {folded : Str} {u : List Char} (hne : fold T u ≠ []) {k : ℕ}
    (h : utf8 (fold T u) <+: folded.drop k) : ∃ q, Found T folded u q ∧ q.1 ≤ k := by
  cases hfind : findText folded (utf8 (fold T u)) with
  | none =>
    obtain ⟨r, hr⟩ := h
    refine absurd ⟨folded.take k, r, ?_⟩ (findText_eq_none hfind)
    rw [List.append_assoc, hr, List.take_append_drop]
  | some at_ =>
    refine ⟨(at_, at_ + _), ⟨utf8_ne_nil.mpr hne, hfind, rfl⟩, not_lt.mp fun hlt => ?_⟩
    exact (findText_eq_some.mp hfind).2.2 k hlt h

theorem prefix_of_infix {folded : Str} {u : List Char} (h : utf8 (fold T u) <:+: folded) :
    ∃ k, utf8 (fold T u) <+: folded.drop k := by
  obtain ⟨l, r, rfl⟩ := h
  refine ⟨l.length, ?_⟩
  rw [List.append_assoc, List.drop_left' rfl]
  exact List.prefix_append _ _

theorem foldIndexed_spec (name : Name) :
    (foldIndexed T name.text).1 = utf8 (fold T name.text) ∧
      (foldIndexed T name.text).2.Pairwise (· ≤ ·) ∧
      (foldIndexed T name.text).2.length = (utf8 (fold T name.text)).length + 1 := by
  obtain ⟨htext, hlen⟩ := foldIndexedLoop_text (T := T) name.text 0
  obtain ⟨hpair, hbound⟩ := foldIndexedLoop_map (T := T) name.text 0
  have hlt := name.length_lt
  unfold foldIndexed
  dsimp only
  refine ⟨htext, List.pairwise_map.mpr (hpair.imp_of_mem fun {x y} hx hy hxy => ?_), ?_⟩
  · have hx' := hbound x hx
    have hy' := hbound y hy
    rw [UInt32.le_iff_toNat_le, UInt32.toNat_ofNat', UInt32.toNat_ofNat',
      Nat.mod_eq_of_lt (by omega), Nat.mod_eq_of_lt (by omega)]
    exact hxy
  · rw [List.length_map, hlen]

/-- Nothing is cut out where no term is. -/
theorem splitAtMatch_none
    (hbest : terms.foldl (bestStep T (utf8 (fold T name.text))) none = none) :
    splitAtMatch T name.text terms = (utf8 name.text, [], []) ∧
      ∀ t ∈ terms, fold T t ≠ [] → ¬ utf8 (fold T t) <:+: utf8 (fold T name.text) := by
  refine ⟨?_, fun t ht hne hin => ?_⟩
  · unfold splitAtMatch
    dsimp only
    rw [(foldIndexed_spec name).1, hbest]
  · obtain ⟨k, hk⟩ := prefix_of_infix hin
    obtain ⟨q, hq, -⟩ := found_of_prefix hne hk
    exact ((foldl_best _ _ _).1 hbest).2 t ht q hq

/-- The cut covers what matched exactly where the terms at the earliest place are one. -/
theorem match_covers_iff (hT : OneByOne T) (name : Name) (terms : List (List Char)) :
    ((foldIndexed T name.text).1 = utf8 (fold T name.text) ∧
      (foldIndexed T name.text).2.Pairwise (· ≤ ·) ∧
      (foldIndexed T name.text).2.length = (utf8 (fold T name.text)).length + 1) ∧
    (Covers T name.text terms (splitAtMatch T name.text terms) ↔ OneThere T name.text terms) := by
  refine ⟨foldIndexed_spec name, ?_⟩
  cases hbest : terms.foldl (bestStep T (utf8 (fold T name.text))) none with
  | none =>
    obtain ⟨hcut, hnone⟩ := splitAtMatch_none hbest
    rw [hcut]
    refine iff_of_true ⟨?_, ⟨⟨_, rfl⟩, ⟨[], rfl⟩, ⟨[], rfl⟩⟩, iff_of_true rfl hnone,
      fun h => absurd rfl h⟩ fun k _ t ht _ _ hne _ hk _ => ?_
    · rw [List.append_nil, List.append_nil]
    · exact absurd (hk.isInfix.trans (List.drop_suffix _ _).isInfix) (hnone t ht hne)
  | some p =>
    obtain ⟨hfrom, -, hall⟩ := (foldl_best _ _ _).2 p hbest
    obtain ⟨t₀, ht₀, hfound⟩ := hfrom.resolve_left nofun
    obtain ⟨c1, c2, c3, hcut, hname, hc2, hc1⟩ := cut_spec hT hbest hfound
    have hthere := (findText_eq_some.mp hfound.first).1
    have hne₀ : fold T t₀ ≠ [] := utf8_ne_nil.mp hfound.ne_nil
    have hmiddle : utf8 c2 ≠ [] := by
      rw [utf8_ne_nil]
      rintro rfl
      exact hne₀ hc2.symm
    -- no term is before, and none there is shorter
    have hearliest : ∀ u ∈ terms, fold T u ≠ [] → ∀ k,
        utf8 (fold T u) <+: (utf8 (fold T name.text)).drop k → p.1 ≤ k := by
      intro u hu hne k hk
      obtain ⟨q, hq, hle⟩ := found_of_prefix hne hk
      have hbeats := hall u hu q hq
      rw [Bool.eq_false_iff, Ne, beats_iff] at hbeats
      omega
    have hshortest : ∀ u ∈ terms, fold T u ≠ [] →
        utf8 (fold T u) <+: (utf8 (fold T name.text)).drop p.1 →
          (utf8 (fold T t₀)).length ≤ (utf8 (fold T u)).length := by
      intro u hu hne hk
      obtain ⟨q, hq, hle⟩ := found_of_prefix hne hk
      have hbeats := hall u hu q hq
      have hlast := hq.last
      have hlast₀ := hfound.last
      rw [Bool.eq_false_iff, Ne, beats_iff] at hbeats
      omega
    rw [hcut]
    constructor
    · intro hcovers k hk t ht u hu hnet hneu hkt hku
      obtain ⟨d1, d2, hd1, hd2, -, hfirst, hlongest⟩ := hcovers.term hmiddle
      obtain rfl := utf8_injective hd1
      obtain rfl := utf8_injective hd2
      -- the earliest place is where the cut is
      have hkp : k = p.1 := Nat.le_antisymm
        (not_lt.mp fun hlt => hk t₀ ht₀ hne₀ p.1 hlt hthere) (hearliest t ht hnet k hkt)
      subst hkp
      rw [hc1, hc2] at hlongest
      have hone : ∀ v ∈ terms, fold T v ≠ [] →
          utf8 (fold T v) <+: (utf8 (fold T name.text)).drop p.1 → fold T v = fold T t₀ := by
        intro v hv hne hp
        refine utf8_injective ?_
        have hlen := Nat.le_antisymm (hlongest v hv hp) (hshortest v hv hne hp)
        exact (List.prefix_of_prefix_length_le hp hthere hlen.le).eq_of_length hlen
      rw [hone t ht hnet hkt, hone u hu hneu hku]
    · intro hone
      have hsame : ∀ u ∈ terms, fold T u ≠ [] →
          utf8 (fold T u) <+: (utf8 (fold T name.text)).drop p.1 → fold T u = fold T t₀ :=
        fun u hu hne hp => hone p.1 (fun v hv hnev j hj hp' =>
          absurd (hearliest v hv hnev j hp') (not_le.mpr hj)) u hu t₀ ht₀ hne hne₀ hp hthere
      refine ⟨?_, ⟨⟨c1, rfl⟩, ⟨c2, rfl⟩, ⟨c3, rfl⟩⟩, ?_, fun _ => ⟨c1, c2, rfl, rfl,
        ⟨t₀, ht₀, hc2⟩, fun u hu hne k hk => ?_, fun u hu hp => ?_⟩⟩
      · rw [hname, utf8_append, utf8_append]
      · refine iff_of_false hmiddle fun hnone => hnone t₀ ht₀ hne₀ ?_
        exact hthere.isInfix.trans (List.drop_suffix _ _).isInfix
      · rw [hc1]
        exact hearliest u hu hne k hk
      · rw [hc1] at hp
        by_cases hne : fold T u = []
        · rw [hne]
          exact Nat.zero_le _
        · rw [hsame u hu hne hp, hc2]

theorem oneByOne_asciiOnly : OneByOne .asciiOnly := by
  intro c
  unfold foldChar CaseTable.asciiOnly
  rw [List.flatMap_singleton]
  split
  · exact Nat.zero_le _
  · split <;> exact le_refl _

/-- One term, in other letters than the name has. -/
theorem covers_report : Covers .asciiOnly ['R', 'e', 'p', 'o', 'r', 't'] [['E', 'P']]
    (splitAtMatch .asciiOnly ['R', 'e', 'p', 'o', 'r', 't'] [['E', 'P']]) :=
  (match_covers_iff oneByOne_asciiOnly ⟨['R', 'e', 'p', 'o', 'r', 't'], by decide⟩ [['E', 'P']]).2.mpr
    fun _ _ t ht u hu _ _ _ _ => by rw [List.mem_singleton.mp ht, List.mem_singleton.mp hu]

/-- Of two terms that begin a name the shorter one is cut out. -/
theorem not_covers : splitAtMatch .asciiOnly ['r', 'e', 'p', 'o', 'r', 't']
      [['r', 'e', 'p', 'o', 'r', 't'], ['r', 'e', 'p']] = ([], str "rep", str "ort") ∧
    ¬ Covers .asciiOnly ['r', 'e', 'p', 'o', 'r', 't']
      [['r', 'e', 'p', 'o', 'r', 't'], ['r', 'e', 'p']]
      (splitAtMatch .asciiOnly ['r', 'e', 'p', 'o', 'r', 't']
        [['r', 'e', 'p', 'o', 'r', 't'], ['r', 'e', 'p']]) := by
  have hcut : splitAtMatch .asciiOnly ['r', 'e', 'p', 'o', 'r', 't']
      [['r', 'e', 'p', 'o', 'r', 't'], ['r', 'e', 'p']] = ([], str "rep", str "ort") := by
    decide +kernel
  refine ⟨hcut, fun hcovers => ?_⟩
  rw [hcut] at hcovers
  obtain ⟨c1, c2, h1, h2, -, -, hlongest⟩ := hcovers.term (by decide +kernel)
  obtain rfl : c1 = [] := utf8_injective h1
  obtain rfl : c2 = ['r', 'e', 'p'] := utf8_injective (h2.trans (by decide +kernel))
  have hle := hlongest ['r', 'e', 'p', 'o', 'r', 't'] List.mem_cons_self (by decide +kernel)
  exact absurd hle (by decide +kernel)

end Scour.MatchSplit
