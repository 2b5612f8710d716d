import Scour.Kept

/-!
# What each condition means

`compileMatch` answers a condition from what the segment stores: a column, a directory number, what
the arena kept of the folded name.  The reference answers it from the entry.  `Agrees` is when the
two say the same of a row (`compileMatch_iff`), for every condition but the path and the wildcard
ones, which have laws of their own.

They part for a row in the root asked for its depth or its parent, for a name whose fold has another
length, for a list that asks for no extension, and where the fold of a name did not fit the buffer.
-/

namespace Scour

variable (P : Platform)

/-- An extension list is asked of what the stored fold ends in.  Of a directory, and of a name that
spells no extension, the reference reads the empty one, which no row of the index has. -/
def ExtAgrees (e : Entry) (list : List Text) : Prop :=
  if e.isDir = true ∨ extensionIsEligible e.name = false then [] ∉ list
  else
    (extension (Folded.foldBytes P.case e.name) ≠ [] ∧
        extension (Folded.foldBytes P.case e.name) ∈ list.map utf8) ↔
      foldName P.case (extStr e.name) ∈ list

/-- When a row answers a condition as its entry does. -/
def Agrees (e : Entry) : Match → Prop
  | .nameContains t => t <:+: keptName P.case e.name ↔ t <:+: foldName P.case e.name
  | .regex p => ∀ re, P.regexNew p = .ok re →
      P.isMatch re (keptName P.case e.name) = P.isMatch re (foldName P.case e.name)
  | .nameLen cmp v =>
      cmp.holds (keptName P.case e.name).length v.toInt = cmp.holds (chars e.name).length v.toInt
  | .ext list => ExtAgrees P e list
  | .depth cmp v =>
      -- the separator that is the root is counted twice
      if e.parent = [slash] then cmp.holds 2 v.toInt = cmp.holds 1 v.toInt
      -- and more separators than sixteen bits count are that many
      else 65535 < e.parent.count slash →
        cmp.holds 65536 v.toInt = cmp.holds (e.path.bytes.count slash) v.toInt
  -- a trailing separator is trimmed, and the root is all of it
  | .parentIs d => ¬ (d = ['/'] ∧ e.parent = [slash])
  | _ => True

section

variable {P} {es : List Entry} {row : Nat} {e : Entry}
  (he : (Scour.build es).seg.entry row = some e)
include he

/-! ## Columns -/

theorem num_build (f : Field) (hf : f ≠ .dirId) :
    (View.build P es).seg.num f row = columnsOf 0 e f :=
  buildSorted_num (stored_of_entry he) f hf

theorem dirId_build :
    (View.build P es).seg.dirs.paths[(View.build P es).seg.dirId row]? = some e.parent :=
  buildSorted_dirId (stored_of_entry he)

theorem kind_build : (View.build P es).kind row = (e.kind P).asU8 := by
  show List.getD (List.map _ (es.insertionSort storedLe)) row 0 = _
  rw [List.getD_eq_getElem?_getD, List.getElem?_map, stored_of_entry he]
  rfl

theorem numField_build (f : NumField) :
    (View.build P es).seg.num (numField f) row = numOf e f := by
  cases f <;> exact num_build he _ (by decide)

theorem timeField_build (f : TimeField) :
    (View.build P es).seg.num (timeField f) row = timeOf e f := by
  cases f <;> exact num_build he _ (by decide)

theorem evaluate_isDir (name : Str) (want : Bool) :
    evaluate (View.build P es) row name (.num .isDir .eq (if want then 1 else 0) 1 : Test P) =
      (e.isDir == want) := by
  simp only [evaluate]
  rw [num_build he .isDir (by decide)]
  cases hb : e.isDir <;> cases want <;> simp [cmpHolds, columnsOf, Cmp.holds, hb]

omit he in
/-- A number is compared to as it is. -/
theorem cmpHolds_one (cmp : Cmp) (v : Int64) (got : Int) :
    cmpHolds cmp v 1 got = cmp.holds got v.toInt := by
  unfold cmpHolds
  rw [if_neg fun h => absurd h.2 (by decide)]

theorem evaluate_time (name : Str) (f : TimeField) (cmp : Cmp) (v : Int64) :
    evaluate (View.build P es) row name (.num (timeField f) cmp v 86400 : Test P) =
      matchesOne P e (.time f cmp v) := by
  simp only [evaluate, matchesOne]
  rw [timeField_build he]
  cases cmp <;> simp [cmpHolds]

/-! ## Kinds -/

omit he in
theorem Kind.asU8_injective {a b : Kind} (h : a.asU8 = b.asU8) : a = b := by
  cases a <;> cases b <;> first | rfl | cases h

omit he in
/-- The bits of the mask are those of the kinds in the list. -/
theorem testBit_kinds (ks : List Kind) (i : Nat) : ∀ m : Nat,
    (ks.foldl (fun m k => m ||| 1 <<< k.asU8) m).testBit i =
      (m.testBit i || ks.any fun k => k.asU8 == i) := by
  induction ks with
  | nil => simp
  | cons k ks ih =>
    intro m
    rw [List.foldl_cons, ih, List.any_cons, Nat.testBit_or, Nat.shiftLeft_eq, Nat.one_mul,
      Nat.testBit_two_pow, Bool.or_assoc]
    rfl

omit he in
theorem and_shift_ne_zero (m k : Nat) : (m &&& 1 <<< k != 0) = m.testBit k := by
  cases h : m.testBit k with
  | true =>
    rw [bne_iff_ne]
    intro h0
    have := congrArg (fun n => n.testBit k) h0
    simp [Nat.testBit_and, Nat.shiftLeft_eq, h] at this
  | false =>
    rw [bne_eq_false_iff_eq]
    apply Nat.eq_of_testBit_eq
    intro i
    rw [Nat.testBit_and, Nat.zero_testBit, Nat.shiftLeft_eq, Nat.one_mul, Nat.testBit_two_pow]
    by_cases hik : k = i
    · subst hik
      rw [h, Bool.false_and]
    · simp [hik]

theorem evaluate_kind (name : Str) (ks : List Kind) :
    evaluate (View.build P es) row name
        (.kindIn (ks.foldl (fun m k => m ||| 1 <<< k.asU8) 0) : Test P) =
      ks.contains (e.kind P) := by
  have hlt := (e.kind P).asU8_lt
  simp only [evaluate]
  rw [kind_build he, Int.toNat_natCast, and_shift_ne_zero, testBit_kinds, Nat.zero_testBit,
    Bool.false_or]
  have h1 : (decide ((0 : Int) ≤ ((e.kind P).asU8 : Int)) && decide (((e.kind P).asU8 : Int) < 16)) =
      true := by
    simp
    omega
  rw [h1, Bool.true_and, Bool.eq_iff_iff, List.any_eq_true, List.contains_iff_mem]
  constructor
  · rintro ⟨k, hk, hke⟩
    rwa [← Kind.asU8_injective (beq_iff_eq.mp hke)]
  · intro h
    exact ⟨_, h, beq_self_eq_true _⟩

/-! ## Directories -/

theorem evaluate_under (name : Str) (d : Text) :
    evaluate (View.build P es) row name
        (if ((View.build P es).seg.dirs.subtree (utf8 d)).isEmpty then .never
          else .dirIn ((View.build P es).seg.dirs.subtree (utf8 d)) : Test P) =
      matchesOne P e (.under d) := by
  have hs : (View.build P es).seg.dirs.Sorted := buildSorted_dirs_sorted _
  have hin := (View.build P es).seg.dirs.subtree_contains_iff hs (utf8 d) _ _ (dirId_build he)
  have hscope : evaluate (View.build P es) row name
      (if ((View.build P es).seg.dirs.subtree (utf8 d)).isEmpty then .never
        else .dirIn ((View.build P es).seg.dirs.subtree (utf8 d)) : Test P) =
      ((View.build P es).seg.dirs.subtree (utf8 d)).contains ((View.build P es).seg.dirId row) := by
    split
    · rename_i hempty
      exact (DirScope.not_contains_of_isEmpty _ hempty _).symm
    · rfl
  rw [hscope, Bool.eq_iff_iff, hin]
  simp only [matchesOne]
  rw [Bool.and_eq_true, Bool.and_eq_true, decide_eq_true_eq]
  by_cases hd : trimEnd (utf8 d) = []
  · obtain ⟨t, ht⟩ := e.path.head
    obtain ⟨l, r, hp, -, hsplit, -⟩ := e.path.split
    have hroot : Below e.parent [] := by
      unfold Entry.parent Below
      rw [hsplit]
      by_cases hl : l = []
      · rw [if_pos hl]
        exact List.prefix_refl _
      · obtain ⟨b, l, rfl⟩ := List.exists_cons_of_ne_nil hl
        rw [hp] at ht
        have hb : b = slash := (List.cons.inj ht).1
        rw [if_neg hl, hb]
        exact ⟨l, rfl⟩
    rw [hd, ht]
    simp [hroot]
  · rw [show e.parent = _ ∨ Below e.parent _ ↔ _ from
      (below_iff_dir e.path _ hd (trimEnd_trimEnd _)).symm]
    unfold Below
    rw [prefix_iff_lt_getElem, and_assoc]
    simp [hd]

/-- The test is whether the row's directory is the trimmed one. -/
theorem evaluate_parentIs_iff (name : Str) (d : Text) {t : Test P}
    (ht : compileMatch P (View.build P es) (.parentIs d) = .ok t) :
    evaluate (View.build P es) row name t = true ↔ e.parent = trimEnd (utf8 d) := by
  have hs : (View.build P es).seg.dirs.Sorted := buildSorted_dirs_sorted _
  have hdir := dirId_build (P := P) he
  rw [compileMatch] at ht
  cases hx : (View.build P es).seg.dirs.exact (utf8 d) with
  | some id =>
    rw [hx] at ht
    obtain rfl := Except.ok.inj ht
    have hid := (DirTable.exact_eq_some_iff _ hs _ _).mp hx
    simp only [evaluate]
    rw [DirScope.contains_iff]
    constructor
    · rintro (h | h)
      · rw [Option.some.inj h, hdir, Option.some.injEq] at hid
        exact hid
      · exact absurd (Nat.lt_of_le_of_lt h.1 h.2) (Nat.lt_irrefl id)
    · intro h
      left
      show some id = some _
      rw [← hx]
      exact (DirTable.exact_eq_some_iff _ hs (utf8 d) _).mpr (by rw [hdir, h])
  | none =>
    rw [hx] at ht
    obtain rfl := Except.ok.inj ht
    simp only [evaluate, Bool.false_eq_true, false_iff]
    intro h
    have := (DirTable.exact_eq_some_iff _ hs (utf8 d) _).mpr (by rw [hdir, h])
    rw [hx] at this
    cases this

theorem evaluate_parentIs (name : Str) (d : Text) {t : Test P}
    (ht : compileMatch P (View.build P es) (.parentIs d) = .ok t) :
    evaluate (View.build P es) row name t = matchesOne P e (.parentIs d) ↔
      ¬ (d = ['/'] ∧ e.parent = [slash]) := by
  rw [Bool.eq_iff_iff, evaluate_parentIs_iff he name d ht]
  simp only [matchesOne, Bool.or_eq_true, Bool.and_eq_true, beq_iff_eq]
  constructor
  · rintro h ⟨rfl, hroot⟩
    have := h.mpr (Or.inr ⟨rfl, hroot⟩)
    rw [hroot] at this
    exact absurd this (by decide)
  · intro h
    constructor
    · exact Or.inl
    · rintro (h1 | h1)
      · exact h1
      · exact absurd h1 h

omit he in
/-- The separators of a path are those of its directory and the one before the name, except that
the root is one separator. -/
theorem count_slash_path (p : Path) : p.bytes.count slash =
    if (splitPath p.bytes).1 = [slash] then 1 else (splitPath p.bytes).1.count slash + 1 := by
  obtain ⟨l, r, hp, hr, hs, hl⟩ := p.split
  have hcount : p.bytes.count slash = l.count slash + 1 := by
    rw [hp, List.count_append, List.count_cons_self, List.count_eq_zero.mpr hr]
  rw [hs, hcount]
  by_cases h : l = []
  · simp [h]
  · simp [h, hl]

theorem evaluate_depth (name : Str) (cmp : Cmp) (v : Int64) :
    evaluate (View.build P es) row name
        (.depth (View.build P es).seg.dirs.depths cmp v : Test P) = matchesOne P e (.depth cmp v) ↔
      Agrees P e (.depth cmp v) := by
  have hdepth : (View.build P es).seg.dirs.depths[(View.build P es).seg.dirId row]? =
      some (min (e.parent.count slash) 65535) := by
    unfold DirTable.depths
    rw [List.getElem?_map, dirId_build he]
    rfl
  have hpath := count_slash_path e.path
  simp only [evaluate, matchesOne, Agrees, hdepth]
  by_cases hroot : e.parent = [slash]
  · rw [if_pos hroot]
    rw [if_pos (show (splitPath e.path.bytes).1 = [slash] from hroot)] at hpath
    rw [hroot, hpath]
    rfl
  · rw [if_neg hroot]
    rw [if_neg (show ¬ (splitPath e.path.bytes).1 = [slash] from hroot)] at hpath
    have hpath : e.path.bytes.count slash = e.parent.count slash + 1 := hpath
    by_cases hdeep : 65535 < e.parent.count slash
    · rw [Nat.min_eq_right (by omega)]
      simp [hdeep]
    · rw [Nat.min_eq_left (by omega), hpath]
      simp [hdeep]

/-! ## Names -/

theorem evaluate_nameLen (htext : IsText e.path.bytes) (cmp : Cmp) (v : Int64) :
    evaluate (View.build P es) row (View.foldedName (View.build P es) row) (.nameLen cmp v : Test P) =
      cmp.holds (keptName P.case e.name).length v.toInt := by
  rw [foldedName_build he, ← utf8_keptName P.case (isText_name htext)]
  simp only [evaluate, fromUtf8_utf8]

theorem evaluate_nameHas (htext : IsText e.path.bytes) (t : Text) :
    evaluate (View.build P es) row (View.foldedName (View.build P es) row) (.nameHas (utf8 t) : Test P) =
      decide (t <:+: keptName P.case e.name) := by
  rw [foldedName_build he, ← utf8_keptName P.case (isText_name htext)]
  simp only [evaluate, utf8_infix_iff]

theorem evaluate_regex (htext : IsText e.path.bytes) (re : P.Re) :
    evaluate (View.build P es) row (View.foldedName (View.build P es) row) (.regex re : Test P) =
      P.isMatch re (keptName P.case e.name) := by
  rw [foldedName_build he, ← utf8_keptName P.case (isText_name htext)]
  simp only [evaluate, fromUtf8_utf8]

theorem evaluate_nameHasCased (name : Str) (t : Text) :
    evaluate (View.build P es) row name (.nameHasCased t : Test P) =
      decide (utf8 t <:+: e.name) := by
  have hname : (View.build P es).seg.names[row]? = some e.name :=
    buildSorted_name (stored_of_entry he)
  simp only [evaluate, hname]

theorem getD_names_build : (View.build P es).seg.names.getD row [] = e.name := by
  have hname : (View.build P es).seg.names[row]? = some e.name :=
    buildSorted_name (stored_of_entry he)
  rw [List.getD_eq_getElem?_getD, hname]
  rfl

theorem evaluate_ext (list : List Text) :
    evaluate (View.build P es) row (View.foldedName (View.build P es) row)
        (.ext list false : Test P) = matchesOne P e (.ext list) ↔ ExtAgrees P e list := by
  have hcol : ((View.build P es).seg.num .isDir row == 0) = !e.isDir := by
    rw [num_build he .isDir (by decide)]
    cases hb : e.isDir <;> simp [columnsOf, hb]
  have hlist (x : Str) : (list.any fun t => utf8 t == x) = decide (x ∈ list.map utf8) := by
    rw [Bool.eq_iff_iff, List.any_eq_true, decide_eq_true_eq, List.mem_map]
    simp
  simp only [evaluate, matchesOne, ExtAgrees, Bool.false_or]
  rw [getD_names_build he, hcol, foldedName_build he, hlist]
  unfold foldedExtension Entry.ext
  cases hdir : e.isDir with
  | true => simp
  | false =>
    cases helig : extensionIsEligible e.name with
    | false => simp [extStr, helig, chars, show fromUtf8 [] = some [] from fromUtf8_utf8 []]
    | true =>
      simp only [Bool.false_eq_true, if_false, if_true, Bool.not_false, Bool.and_true]
      rw [Bool.eq_iff_iff, Bool.and_eq_true, bne_iff_ne, decide_eq_true_eq, List.contains_iff_mem]
      rfl

end

/-! ## The law -/

/-- A row answers a condition as the reference answers it of the row's entry. -/
theorem compileMatch_iff (P : Platform) (es : List Entry) (htext : ∀ e ∈ es, IsText e.path.bytes)
    (row : Nat) (e : Entry) (he : (Scour.build es).seg.entry row = some e) (m : Match)
    (hm : ∀ p, m ≠ .pathContains p ∧ m ≠ .nameGlob p) (t : Test P)
    (ht : compileMatch P (View.build P es) m = .ok t) :
    evaluate (View.build P es) row (View.foldedName (View.build P es) row) t = matchesOne P e m ↔
      Agrees P e m := by
  have htx := isText_of_entry htext he
  cases m with
  | nameGlob p => exact absurd rfl (hm p).2
  | pathContains p => exact absurd rfl (hm p).1
  | contentContains p => cases ht
  | parentIs d => exact evaluate_parentIs he _ d ht
  | nameContains p =>
    obtain rfl := Except.ok.inj ht
    rw [evaluate_nameHas he htx]
    exact decide_eq_decide
  | under d =>
    obtain rfl := Except.ok.inj ht
    simp only [Agrees, iff_true]
    exact evaluate_under he _ d
  | ext list =>
    obtain rfl := Except.ok.inj ht
    exact evaluate_ext he list
  | isDir want =>
    obtain rfl := Except.ok.inj ht
    simp only [Agrees, iff_true]
    exact evaluate_isDir he _ want
  | size cmp v =>
    obtain rfl := Except.ok.inj ht
    simp only [Agrees, iff_true, evaluate, matchesOne]
    rw [cmpHolds_one, num_build he .size (by decide)]
    rfl
  | kind ks =>
    obtain rfl := Except.ok.inj ht
    simp only [Agrees, iff_true]
    exact evaluate_kind he _ ks
  | time f cmp v =>
    obtain rfl := Except.ok.inj ht
    simp only [Agrees, iff_true]
    exact evaluate_time he _ f cmp v
  | depth cmp v =>
    obtain rfl := Except.ok.inj ht
    exact evaluate_depth he _ cmp v
  | regex p =>
    rw [compileMatch] at ht
    cases hre : P.regexNew p with
    | error x =>
      rw [hre] at ht
      cases ht
    | ok re =>
      rw [hre] at ht
      obtain rfl := Except.ok.inj ht
      rw [evaluate_regex he htx]
      simp only [matchesOne, Agrees, hre]
      constructor
      · intro h re' hre'
        rw [← Except.ok.inj hre']
        exact h
      · intro h
        exact h re rfl
  | nameLen cmp v =>
    obtain rfl := Except.ok.inj ht
    rw [evaluate_nameLen he htx]
    rfl
  | nameContainsCased p =>
    obtain rfl := Except.ok.inj ht
    simp only [Agrees, iff_true]
    exact evaluate_nameHasCased he _ p
  | num f cmp v =>
    obtain rfl := Except.ok.inj ht
    simp only [Agrees, iff_true, evaluate, matchesOne]
    rw [cmpHolds_one, numField_build he]
  | bits f mask want any =>
    obtain rfl := Except.ok.inj ht
    simp only [Agrees, iff_true, evaluate, matchesOne]
    rw [numField_build he]

/-- A file two levels down, found by its depth. -/
theorem compileMatch_file :
    evaluate (View.build .plain [.file "/d/f"]) 0 (View.foldedName (View.build .plain [.file "/d/f"]) 0)
        (.depth (View.build .plain [.file "/d/f"]).seg.dirs.depths .eq 2 : Test .plain) =
      matchesOne .plain (.file "/d/f") (.depth .eq 2) := by
  have htext : ∀ e ∈ [Entry.file "/d/f"], IsText e.path.bytes := by
    intro e he
    rw [List.mem_singleton.mp he]
    exact ⟨"/d/f".toList, rfl⟩
  refine (compileMatch_iff .plain [.file "/d/f"] htext 0 (.file "/d/f") (buildSorted_entry rfl)
    (.depth .eq 2) (fun p => ⟨Match.noConfusion, Match.noConfusion⟩) _ rfl).mpr ?_
  have hroot : ¬ (Entry.file "/d/f").parent = [slash] := by decide
  simp only [Agrees]
  rw [if_neg hroot]
  decide

/-- No file in the root is asked for by its parent. -/
theorem not_compileMatch : ¬ ∀ (P : Platform) (es : List Entry),
    (∀ e ∈ es, IsText e.path.bytes) → ∀ (row : Nat) (e : Entry),
    (Scour.build es).seg.entry row = some e → ∀ m : Match,
    (∀ p, m ≠ .pathContains p ∧ m ≠ .nameGlob p) → ∀ t : Test P,
    compileMatch P (View.build P es) m = .ok t →
      evaluate (View.build P es) row (View.foldedName (View.build P es) row) t =
        matchesOne P e m := by
  intro h
  have htext : ∀ e ∈ [Entry.file "/f"], IsText e.path.bytes := by
    intro e he
    rw [List.mem_singleton.mp he]
    exact ⟨"/f".toList, rfl⟩
  have hm : ∀ p, Match.parentIs ['/'] ≠ .pathContains p ∧ Match.parentIs ['/'] ≠ .nameGlob p :=
    fun p => ⟨Match.noConfusion, Match.noConfusion⟩
  have := h .plain [.file "/f"] htext 0 (.file "/f") (buildSorted_entry rfl) (.parentIs ['/']) hm
    .never rfl
  exact absurd this (by decide)

end Scour
