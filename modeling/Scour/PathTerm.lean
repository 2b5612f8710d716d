import Scour.Lib.Straddle
import Scour.Plan

/-!
# A path term

The path test never builds a path: it asks the row's directory for the term, its name for a term
without a separator, and the two together for a term over the last separator.  What it answers is
whether the term is in the path as it was kept, the directory and the name each folded into a buffer
(`holds_iff`), but for one term at the root, where the directory is itself the separator.

`pathIn_iff` compares that with the substring of the folded path.
-/

namespace Scour

/-- `DefaultFolder::fold`, on the bytes of a text. -/
def DefaultFolder.foldStr (T : CaseTable) (b : Str) : Str :=
  match fromUtf8 b with
  | some cs => utf8 (DefaultFolder.fold T cs)
  | none => []

/-- The path as the index keeps it to be searched: the directory and the name, each folded into a
buffer. -/
def keptPath (T : CaseTable) (path : Str) : Str :=
  let (dir, name) := splitPath path
  if dir = [slash] then slash :: Folded.foldBytes T name
  else Folded.foldBytes T dir ++ slash :: Folded.foldBytes T name

/-- A term of two separators before the beginning of a name in the root. -/
def AtRootDoubled (T : CaseTable) (path term : Str) : Prop :=
  (splitPath path).1 = [slash] ∧ ∃ tail, term = slash :: slash :: tail ∧ slash ∉ tail ∧
    tail <+: Folded.foldBytes T (splitPath path).2

/-! ## The parts of a path -/

theorem foldStr_utf8 (T : CaseTable) (cs : List Char) :
    DefaultFolder.foldStr T (utf8 cs) = utf8 (DefaultFolder.fold T cs) := by
  unfold DefaultFolder.foldStr
  rw [fromUtf8_utf8]

theorem foldStr_append_slash (T : CaseTable) (c1 c2 : List Char) :
    DefaultFolder.foldStr T (utf8 c1 ++ slash :: utf8 c2) =
      DefaultFolder.foldStr T (utf8 c1) ++ slash :: DefaultFolder.foldStr T (utf8 c2) := by
  have he : utf8 ['/'] = [slash] := by decide
  have hcut : utf8 c1 ++ slash :: utf8 c2 = utf8 (c1 ++ '/' :: c2) := by
    rw [utf8_append, show '/' :: c2 = ['/'] ++ c2 from rfl, utf8_append, he]
    rfl
  rw [hcut, foldStr_utf8, foldStr_utf8, foldStr_utf8, DefaultFolder.fold_append, utf8_append,
    DefaultFolder.fold_cons, DefaultFolder.foldChar_slash, utf8_append, he]
  rfl

/-- Past its last separator a folded path holds no other, and before it stands the folded
directory, or nothing at the root. -/
theorem Path.folded_parts (T : CaseTable) (p : Path) (h : IsText p.bytes) :
    ∃ dir name, (splitPath p.bytes).2 = utf8 name ∧ '/' ∉ name ∧
      ((splitPath p.bytes).1 = [slash] ∧ dir = [] ∨
        (splitPath p.bytes).1 ≠ [slash] ∧ (splitPath p.bytes).1 = utf8 dir) ∧
      DefaultFolder.foldStr T p.bytes =
        utf8 (DefaultFolder.fold T dir) ++ slash :: utf8 (DefaultFolder.fold T name) := by
  obtain ⟨cs, hcs⟩ := h
  obtain ⟨l, r, hp, hr, hs, hl⟩ := p.split
  rw [hp] at hcs
  obtain ⟨dir, name, -, hdir, hname⟩ := utf8_split cs l r hcs
  have hns : '/' ∉ name := by
    rw [← slash_mem_utf8, hname]
    exact hr
  refine ⟨dir, name, by rw [hs, hname], hns, ?_, ?_⟩
  · rw [hs, ← hdir]
    cases dir with
    | nil => exact Or.inl ⟨rfl, rfl⟩
    | cons c dir =>
      right
      have hne : utf8 (c :: dir) ≠ [] := by
        rw [utf8_cons]
        intro h0
        exact String.utf8EncodeChar_ne_nil (List.append_eq_nil_iff.mp h0).1
      rw [hdir] at hne
      simp only [hdir, if_neg hne]
      exact ⟨hl, trivial⟩
  · rw [hp, ← hdir, ← hname, foldStr_append_slash, foldStr_utf8, foldStr_utf8]

/-! ## The test -/

/-- What the test answers of a directory and a name without a separator, both folded. -/
theorem PathSet.holds_iff (T : CaseTable) (term : Str) (dirs : DirTable) (dir : Nat) (d name : Str)
    (hd : dirs.paths[dir]? = some d) (hname : slash ∉ name) :
    (PathSet.build T term dirs).holds dir name = true ↔
      (term <:+: Folded.foldBytes T d ++ slash :: name) ∨
        slash ∉ term ∧ term <:+ Folded.foldBytes T d := by
  have hwhole : (PathSet.build T term dirs).whole.getD dir false =
      decide (term <:+: Folded.foldBytes T d) := by
    simp [PathSet.build, List.getD_eq_getElem?_getD, hd]
  cases hsplit : rsplitOnce term with
  | none =>
    have hns := (rsplitOnce_eq_none_iff term).mp hsplit
    have hending : (PathSet.build T term dirs).ending.getD dir false =
        decide (term <:+ Folded.foldBytes T d) := by
      simp [PathSet.build, hsplit, List.getD_eq_getElem?_getD, hd]
    unfold PathSet.holds
    rw [hwhole, hending, Search.infix_append_cons_of_notMem hns]
    simp only [PathSet.build, hsplit, hns, if_false, Option.any_some, not_false_eq_true, true_and,
      List.nil_prefix, decide_true, Bool.and_true, Bool.or_eq_true, decide_eq_true_eq]
  | some lr =>
    obtain ⟨u, v⟩ := lr
    obtain ⟨rfl, hv⟩ := (rsplitOnce_eq_some_iff term u v).mp hsplit
    have hending : (PathSet.build T (u ++ slash :: v) dirs).ending.getD dir false =
        decide (u <:+ Folded.foldBytes T d) := by
      simp [PathSet.build, hsplit, List.getD_eq_getElem?_getD, hd]
    have htail : (PathSet.build T (u ++ slash :: v) dirs).tail = v := by
      simp [PathSet.build, hsplit]
    have hin : (PathSet.build T (u ++ slash :: v) dirs).inName = none := by
      simp [PathSet.build]
    unfold PathSet.holds
    rw [hwhole, hending, htail, hin, Search.append_cons_infix_append_cons hv hname]
    simp

theorem foldBytes_slash (T : CaseTable) : Folded.foldBytes T [slash] = [slash] := rfl

/-- At the root the test also sees the directory, which is the separator once more. -/
theorem infix_slash_slash_iff (term G : Str) (hG : slash ∉ G) :
    (term <:+: [slash] ++ slash :: G ∨ slash ∉ term ∧ term <:+ [slash]) ↔
      term <:+: [] ++ slash :: G ∨
        ∃ tail, term = slash :: slash :: tail ∧ slash ∉ tail ∧ tail <+: G := by
  rcases hsplit : rsplitOnce term with _ | ⟨u, v⟩
  · -- without a separator only the name can hold it
    have hns := (rsplitOnce_eq_none_iff term).mp hsplit
    have hlone : ∀ l : Str, term <:+: l → l = [slash] → term = [] := by
      rintro l h1 rfl
      rcases List.infix_cons_iff.mp h1 with h1 | h1
      · rcases List.prefix_cons_iff.mp h1 with rfl | ⟨t, rfl, -⟩
        · rfl
        · exact absurd (by simp) hns
      · exact List.infix_nil.mp h1
    rw [Search.infix_append_cons_of_notMem hns, Search.infix_append_cons_of_notMem hns]
    constructor
    · rintro ((h1 | h1) | ⟨-, h1⟩)
      · exact Or.inl (Or.inl (List.infix_nil.mpr (hlone _ h1 rfl)))
      · exact Or.inl (Or.inr h1)
      · exact Or.inl (Or.inl (List.infix_nil.mpr (hlone _ h1.isInfix rfl)))
    · rintro ((h1 | h1) | ⟨tail, rfl, -, -⟩)
      · exact Or.inl (Or.inl (h1.trans List.nil_infix))
      · exact Or.inl (Or.inr h1)
      · exact absurd (by simp) hns
  · obtain ⟨rfl, hv⟩ := (rsplitOnce_eq_some_iff term u v).mp hsplit
    rw [Search.append_cons_infix_append_cons hv hG, Search.append_cons_infix_append_cons hv hG]
    constructor
    · rintro ((h1 | ⟨h1, h2⟩) | ⟨h1, -⟩)
      · have hlen := h1.length_le
        simp only [List.length_append, List.length_cons, List.length_nil] at hlen
        have hu : u = [] := List.length_eq_zero_iff.mp (by omega)
        have hv' : v = [] := List.length_eq_zero_iff.mp (by omega)
        exact Or.inl (Or.inr ⟨hu ▸ List.suffix_refl _, hv' ▸ List.nil_prefix⟩)
      · rcases List.suffix_cons_iff.mp h1 with rfl | h1
        · exact Or.inr ⟨v, rfl, hv, h2⟩
        · exact Or.inl (Or.inr ⟨h1, h2⟩)
      · exact absurd (by simp) h1
    · rintro ((h1 | ⟨h1, h2⟩) | ⟨tail, h1, ht, h2⟩)
      · exact absurd h1.length_le (by simp)
      · exact Or.inl (Or.inr ⟨h1.trans (List.nil_suffix), h2⟩)
      · obtain ⟨rfl, rfl⟩ := Search.append_cons_inj (u := u) (l := [slash]) hv ht h1
        exact Or.inl (Or.inr ⟨List.suffix_refl _, h2⟩)

theorem keptPath_eq_ite (T : CaseTable) (path : Str) :
    keptPath T path = if (splitPath path).1 = [slash] then
        [] ++ slash :: Folded.foldBytes T (splitPath path).2
      else Folded.foldBytes T (splitPath path).1 ++ slash :: Folded.foldBytes T (splitPath path).2 :=
  rfl

/-- The test answers whether the kept path holds the term, and yes to a doubled separator before a
name in the root. -/
theorem PathSet.holds_kept (T : CaseTable) (term : Str) (dirs : DirTable) (dir : Nat) (p : Path)
    (h : IsText p.bytes) (hd : dirs.paths[dir]? = some (splitPath p.bytes).1) :
    (PathSet.build T term dirs).holds dir (Folded.foldBytes T (splitPath p.bytes).2) = true ↔
      term <:+: keptPath T p.bytes ∨ AtRootDoubled T p.bytes term := by
  obtain ⟨-, cs, hname, hns, -, -⟩ := p.folded_parts T h
  have hG : slash ∉ Folded.foldBytes T (splitPath p.bytes).2 := by
    rw [hname]
    exact Folded.slash_notMem_foldBytes T cs hns
  rw [PathSet.holds_iff T term dirs dir _ _ hd hG, keptPath_eq_ite]
  unfold AtRootDoubled
  by_cases hroot : (splitPath p.bytes).1 = [slash]
  · rw [if_pos hroot, hroot, foldBytes_slash, infix_slash_slash_iff _ _ hG]
    simp only [true_and]
  · rw [if_neg hroot]
    constructor
    · rintro (h1 | ⟨-, h2⟩)
      · exact Or.inl h1
      · exact Or.inl (h2.isInfix.trans (List.prefix_append _ _).isInfix)
    · rintro (h1 | ⟨h1, -⟩)
      · exact Or.inl h1
      · exact absurd h1 hroot

/-- A doubled separator is in no path, kept or whole. -/
theorem not_infix_of_atRootDoubled (T : CaseTable) (p : Path) (h : IsText p.bytes) (term : Str)
    (hd : AtRootDoubled T p.bytes term) : ¬ term <:+: DefaultFolder.foldStr T p.bytes := by
  obtain ⟨hroot, tail, rfl, ht, -⟩ := hd
  obtain ⟨dir, name, -, hns, hdir, hfull⟩ := p.folded_parts T h
  have hnil : dir = [] := by
    rcases hdir with ⟨-, h⟩ | ⟨h, -⟩
    · exact h
    · exact absurd hroot h
  have hg : slash ∉ utf8 (DefaultFolder.fold T name) := by
    rw [slash_mem_utf8, DefaultFolder.slash_mem_fold]
    exact hns
  rw [hfull, hnil]
  show ¬ [slash] ++ slash :: tail <:+: [] ++ slash :: utf8 (DefaultFolder.fold T name)
  rw [Search.append_cons_infix_append_cons ht hg]
  rintro (h1 | ⟨h1, -⟩)
  · exact absurd h1.length_le (by simp)
  · exact absurd h1.length_le (by simp)

/-- The path test accepts a row exactly when its folded path holds the term, if and only if cutting
the directory and the name at the buffer makes no difference to that, and the term is not a doubled
separator before the beginning of a name in the root. -/
theorem pathIn_iff (P : Platform) (es : List Entry) (htext : ∀ e ∈ es, IsText e.path.bytes)
    (row : Nat) (e : Entry) (he : (Scour.build es).seg.entry row = some e) (term : Text) :
    ((evaluate (View.build P es) row (View.foldedName (View.build P es) row)
        (.pathIn (PathSet.build P.case (utf8 term) (View.build P es).seg.dirs) : Test P) = true ↔
      utf8 term <:+: DefaultFolder.foldStr P.case e.path.bytes) ↔
    ((utf8 term <:+: keptPath P.case e.path.bytes ↔
        utf8 term <:+: DefaultFolder.foldStr P.case e.path.bytes) ∧
      ¬ AtRootDoubled P.case e.path.bytes (utf8 term))) := by
  have hrow : (es.insertionSort storedLe)[row]? = some e := by
    rw [← he]
    exact (buildSorted_entry_eq row).symm
  have htx : IsText e.path.bytes :=
    htext e ((List.mem_insertionSort _).mp (List.mem_of_getElem? hrow))
  have hfold : View.foldedName (View.build P es) row =
      Folded.foldBytes P.case (splitPath e.path.bytes).2 := by
    show List.getD (List.map _ (es.insertionSort storedLe)) row [] = _
    rw [List.getD_eq_getElem?_getD, List.getElem?_map, hrow]
    rfl
  have htest : evaluate (View.build P es) row (View.foldedName (View.build P es) row)
      (.pathIn (PathSet.build P.case (utf8 term) (View.build P es).seg.dirs) : Test P) = true ↔
        utf8 term <:+: keptPath P.case e.path.bytes ∨
          AtRootDoubled P.case e.path.bytes (utf8 term) := by
    rw [hfold]
    exact PathSet.holds_kept P.case (utf8 term) _ _ e.path htx (buildSorted_dirId hrow)
  rw [htest]
  by_cases hd : AtRootDoubled P.case e.path.bytes (utf8 term)
  · have hno := not_infix_of_atRootDoubled P.case e.path htx (utf8 term) hd
    constructor
    · intro h
      exact absurd (h.mp (Or.inr hd)) hno
    · rintro ⟨-, h⟩
      exact absurd hd h
  · constructor
    · intro h
      refine ⟨?_, hd⟩
      rw [← h]
      exact ⟨Or.inl, fun h1 => h1.resolve_right hd⟩
    · rintro ⟨h, -⟩
      rw [← h]
      exact ⟨fun h1 => h1.resolve_right hd, Or.inl⟩

/-- A file two directories down, found by a term over both its separators. -/
theorem pathIn_file :
    evaluate (View.build .plain [.file "/d/e/F"]) 0 (View.foldedName (View.build .plain [.file "/d/e/F"]) 0)
        (.pathIn (PathSet.build .asciiOnly (utf8 "d/e/f".toList)
          (View.build .plain [.file "/d/e/F"]).seg.dirs) : Test .plain) = true ↔
      utf8 "d/e/f".toList <:+: DefaultFolder.foldStr .asciiOnly (utf8 "/d/e/F".toList) := by
  have hkept : keptPath .asciiOnly (utf8 "/d/e/F".toList) = utf8 "/d/e/f".toList := by decide
  have hfull : DefaultFolder.foldStr .asciiOnly (utf8 "/d/e/F".toList) = utf8 "/d/e/f".toList := by
    rw [foldStr_utf8]
    decide
  have htext : ∀ e ∈ [Entry.file "/d/e/F"], IsText e.path.bytes := by
    intro e he
    rw [List.mem_singleton.mp he]
    exact ⟨"/d/e/F".toList, rfl⟩
  have h := pathIn_iff .plain [.file "/d/e/F"] htext 0 (.file "/d/e/F") (buildSorted_entry rfl)
    "d/e/f".toList
  refine h.mpr ⟨?_, ?_⟩
  · show _ <:+: keptPath .asciiOnly (utf8 "/d/e/F".toList) ↔
      _ <:+: DefaultFolder.foldStr .asciiOnly (utf8 "/d/e/F".toList)
    rw [hkept, hfull]
  · rintro ⟨-, tail, ht, -⟩
    have h0 : (utf8 "d/e/f".toList).head? = some slash := by
      rw [ht]
      rfl
    exact absurd h0 (by decide)

/-! ## A directory longer than the buffer -/

theorem noDouble_replicate_append (n : Nat) (b : UInt8) (hb : b ≠ slash) (l : Str) :
    noDouble (List.replicate n b ++ l) = noDouble l := by
  induction n with
  | zero => rfl
  | succ n ih =>
    rw [← ih, List.replicate_succ, List.cons_append]
    cases hl : List.replicate n b ++ l with
    | nil => rfl
    | cons c rest => simp [noDouble, hb]

/-- `/aaa…a/f`, with a directory of `n + 1` letters. -/
def longPath (n : Nat) : Path where
  bytes := slash :: (List.replicate (n + 1) 97 ++ [slash, 102])
  ok := by
    have h := noDouble_replicate_append (n + 1) 97 (by decide) [slash, 102]
    rw [List.replicate_succ, List.cons_append] at h ⊢
    simp only [isPath, List.head?_cons, beq_self_eq_true, Bool.true_and]
    rw [noDouble, h]
    decide

theorem longPath_split (n : Nat) :
    splitPath (longPath n).bytes = (slash :: List.replicate (n + 1) 97, [102]) := by
  have h : rsplitOnce (longPath n).bytes = some (slash :: List.replicate (n + 1) 97, [102]) :=
    rsplitOnce_append (slash :: List.replicate (n + 1) 97) [102] (by decide)
  unfold splitPath
  rw [h]

theorem utf8_replicate (n : Nat) (cs : List Char) :
    utf8 (List.replicate n 'a' ++ cs) = List.replicate n 97 ++ utf8 cs := by
  induction n with
  | zero => rfl
  | succ n ih =>
    rw [List.replicate_succ, List.cons_append, utf8_cons, ih, List.replicate_succ, List.cons_append]
    rfl

theorem longPath_text (n : Nat) :
    (longPath n).bytes = utf8 ('/' :: (List.replicate (n + 1) 'a' ++ ['/', 'f'])) := by
  rw [utf8_cons, utf8_replicate]
  rfl

/-- Its folded path has the letter of the directory, -/
theorem longPath_has (n : Nat) :
    utf8 ['a'] <:+: DefaultFolder.foldStr CaseTable.asciiOnly (longPath n).bytes := by
  rw [longPath_text, foldStr_utf8, List.replicate_succ, List.cons_append, DefaultFolder.fold_cons,
    DefaultFolder.fold_cons, utf8_append, utf8_append]
  exact ⟨[slash], utf8 (DefaultFolder.fold .asciiOnly _), rfl⟩

/-- and what is kept of it has not. -/
theorem longPath_kept (n : Nat) (h : FOLD_CAP ≤ n) :
    keptPath CaseTable.asciiOnly (longPath n).bytes = [slash, 102] := by
  have hbytes : slash :: List.replicate (n + 1) 97 = utf8 ('/' :: List.replicate (n + 1) 'a') := by
    have hr := utf8_replicate (n + 1) []
    rw [List.append_nil, utf8_nil, List.append_nil] at hr
    rw [utf8_cons, hr]
    rfl
  have hlong : Folded.foldBytes CaseTable.asciiOnly (slash :: List.replicate (n + 1) 97) = [] := by
    rw [hbytes]
    apply Folded.foldBytes_long
    · intro c hc
      rcases List.mem_cons.mp hc with rfl | hc
      · decide
      · rw [List.eq_of_mem_replicate hc]
        decide
    · rw [List.length_cons, List.length_replicate]
      omega
  rw [keptPath_eq_ite, longPath_split]
  simp only
  rw [if_neg (by simp [List.replicate_succ]), hlong]
  rfl

theorem longPath_missed (n : Nat) (h : FOLD_CAP ≤ n) :
    evaluate (View.build .plain [⟨0, longPath n, false, .UNKNOWN⟩]) 0
      (View.foldedName (View.build .plain [⟨0, longPath n, false, .UNKNOWN⟩]) 0)
      (.pathIn (PathSet.build .asciiOnly (utf8 ['a'])
        (View.build .plain [⟨0, longPath n, false, .UNKNOWN⟩]).seg.dirs) : Test .plain) = false := by
  rw [Bool.eq_false_iff]
  intro hacc
  have hfold : View.foldedName (View.build .plain [⟨0, longPath n, false, .UNKNOWN⟩]) 0 =
      Folded.foldBytes CaseTable.asciiOnly (splitPath (longPath n).bytes).2 := rfl
  rw [hfold] at hacc
  have hk := (PathSet.holds_kept CaseTable.asciiOnly (utf8 ['a']) _ _ (longPath n)
    ⟨_, (longPath_text n).symm⟩ (buildSorted_dirId
      (rfl : [(⟨0, longPath n, false, .UNKNOWN⟩ : Entry)][0]? = some _))).mp hacc
  rw [longPath_kept n h] at hk
  rcases hk with hk | ⟨-, tail, ht, -⟩
  · exact absurd hk (by decide)
  · have h0 : (utf8 ['a']).head? = some slash := by
      rw [ht]
      rfl
    exact absurd h0 (by decide)

/-- A file in a directory whose path is longer than the buffer, and a letter of the directory. -/
theorem not_pathIn :
    ¬ ∀ (P : Platform) (es : List Entry), (∀ e ∈ es, IsText e.path.bytes) →
      ∀ (row : Nat) (e : Entry), (Scour.build es).seg.entry row = some e → ∀ term : Text,
        (evaluate (View.build P es) row (View.foldedName (View.build P es) row)
          (.pathIn (PathSet.build P.case (utf8 term) (View.build P es).seg.dirs) : Test P) = true ↔
        utf8 term <:+: DefaultFolder.foldStr P.case e.path.bytes) := by
  intro h
  have htext : ∀ e ∈ [(⟨0, longPath FOLD_CAP, false, .UNKNOWN⟩ : Entry)], IsText e.path.bytes := by
    intro e he
    rw [List.mem_singleton.mp he]
    exact ⟨_, (longPath_text FOLD_CAP).symm⟩
  have hacc := (h .plain _ htext 0 _ (buildSorted_entry rfl) ['a']).mpr (longPath_has FOLD_CAP)
  have hmiss := longPath_missed FOLD_CAP (le_refl _)
  exact absurd (hmiss.symm.trans hacc) (by decide)

end Scour
