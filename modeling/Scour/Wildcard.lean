import Scour.Kept

/-!
# The wildcard fast path

`*.rs` is compiled to a test of the extension, every other pattern to the matcher.  Both are asked of
what the arena kept of the folded name.  The matcher takes `*.ext` for every name that ends so
(`globMatches_ext`); the extension test takes those whose spelling has an extension, and something
before it (`nameGlob_iff`).
-/

namespace Scour

/-! ## `*` and a literal -/

/-- Wildcards that stand for themselves in no name. -/
def isWild (c : Char) : Bool := c == '*' || c == '?'

/-- Resuming at the last `*` looks for the rest of the pattern at the end of the text.  `m` is what
has been matched since. -/
theorem globLoop_star (l : Text) (hl : ∀ c ∈ l, isWild c = false) (fuel : Nat) :
    ∀ m p t : Text, l = m ++ p → (m ++ t).length * (l.length + 2) + p.length + 1 ≤ fuel →
      (globLoop fuel p t (some (l, m ++ t)) = true ↔ l <:+ m ++ t) := by
  induction fuel with
  | zero =>
    intro m p t _ h
    omega
  | succ fuel ih =>
    intro m p t hm hfuel
    have hp : ∀ c ∈ p, isWild c = false := fun c hc => hl c (by rw [hm]; exact List.mem_append_right _ hc)
    cases t with
    | nil =>
      have hdrop : p.dropWhile (· == '*') = p := by
        cases p with
        | nil => rfl
        | cons c p =>
          have hc := hp c List.mem_cons_self
          simp only [isWild, Bool.or_eq_false_iff] at hc
          rw [List.dropWhile_cons_of_neg (by simp [hc.1])]
      unfold globLoop
      rw [hdrop, List.append_nil, List.isEmpty_iff]
      constructor
      · rintro rfl
        rw [hm, List.append_nil]
      · intro h
        have hlen := h.length_le
        rw [hm, List.length_append] at hlen
        exact List.length_eq_zero_iff.mp (by omega)
    | cons c t =>
      obtain ⟨x, rest, hrest⟩ : ∃ x rest, m ++ c :: t = x :: rest :=
        List.exists_cons_of_ne_nil (by simp)
      have hlen : (m ++ c :: t).length = rest.length + 1 := by rw [hrest, List.length_cons]
      -- one character further along
      have hnext : (globLoop fuel l rest (some (l, rest)) = true ↔ l <:+ rest) := by
        apply ih [] l rest rfl
        have hpl : l.length = m.length + p.length := by rw [hm, List.length_append]
        have hmul := Nat.add_mul rest.length 1 (l.length + 2)
        rw [hlen] at hfuel
        rw [List.nil_append]
        omega
      have hsuffix : l ≠ m ++ c :: t → (l <:+ rest ↔ l <:+ m ++ c :: t) := by
        intro hne
        rw [hrest, List.suffix_cons_iff]
        rw [hrest] at hne
        simp [hne]
      cases p with
      | nil =>
        have hne : l ≠ m ++ c :: t := by
          intro h
          have := congrArg List.length h
          rw [hm] at this
          simp at this
        unfold globLoop
        rw [if_neg (by simp), if_neg (by simp), hrest]
        simp only
        rw [hnext, ← hrest]
        exact hsuffix hne
      | cons d p =>
        have hd := hp d List.mem_cons_self
        simp only [isWild, Bool.or_eq_false_iff, beq_eq_false_iff_ne] at hd
        unfold globLoop
        rw [if_neg (by simp [hd.1])]
        by_cases hdc : d = c
        · subst hdc
          rw [if_pos (by simp)]
          have hm' : l = (m ++ [d]) ++ p := by rw [hm]; simp
          have := ih (m ++ [d]) p t hm' (by
            rw [List.append_assoc]
            simp only [List.singleton_append, List.length_cons] at hfuel ⊢
            omega)
          rw [List.append_assoc] at this
          exact this
        · have hne : l ≠ m ++ c :: t := by
            rw [hm]
            intro h
            exact hdc (List.cons.inj (List.append_cancel_left h)).1
          rw [if_neg (by simp [hd.2, hdc]), hrest]
          simp only
          rw [hnext, ← hrest]
          exact hsuffix hne

/-- `*` and a literal match the texts that end in the literal. -/
theorem globMatches_ext {l : Text} (hl : ∀ c ∈ l, isWild c = false) (t : Text) :
    globMatches ('*' :: l) t = true ↔ l <:+ t := by
  unfold globMatches
  cases t with
  | nil =>
    have hdrop : ('*' :: l).dropWhile (· == '*') = l := by
      rw [List.dropWhile_cons_of_pos (by simp)]
      cases l with
      | nil => rfl
      | cons c l =>
        have hc := hl c List.mem_cons_self
        simp only [isWild, Bool.or_eq_false_iff] at hc
        rw [List.dropWhile_cons_of_neg (by simp [hc.1])]
    unfold globLoop
    rw [hdrop, List.isEmpty_iff, List.suffix_nil]
  | cons c t =>
    unfold globLoop
    rw [if_pos (by simp)]
    apply globLoop_star l hl _ [] l (c :: t) rfl
    simp only [List.nil_append, List.length_cons]
    have := Nat.mul_le_mul_left (t.length + 1) (show l.length + 2 ≤ l.length + 1 + 2 by omega)
    have := Nat.add_mul (t.length + 1) 1 (l.length + 1 + 2)
    omega

/-! ## The extension -/

/-- What is after the last dot, when something is before it. -/
theorem extension_eq_iff {b x : Str} (hx : x ≠ []) (hdot : 46 ∉ x) :
    extension b = x ↔ ∃ pre, pre ≠ [] ∧ b = pre ++ 46 :: x := by
  have hsplit := List.takeWhile_append_dropWhile (p := fun c : UInt8 => c != 46) (l := b.reverse)
  constructor
  · intro h
    unfold extension at h
    simp only at h
    split at h
    · rename_i hc
      cases hd : b.reverse.dropWhile (fun c => c != 46) with
      | nil =>
        have hall := List.dropWhile_eq_nil_iff.mp hd 46 (by simpa using hc.1)
        simp at hall
      | cons c rest =>
        have hc46 : c = 46 := by
          have := List.head_dropWhile_not (l := b.reverse) (fun c : UInt8 => c != 46) (by simp [hd])
          simpa [hd] using this
        rw [hd, hc46] at hsplit
        have hrev := congrArg List.reverse hsplit
        rw [List.reverse_reverse, List.reverse_append, List.reverse_cons, h] at hrev
        refine ⟨rest.reverse, ?_, by rw [← hrev]; simp⟩
        intro hnil
        have hlen := congrArg List.length hrev
        rw [hnil] at hlen
        simp only [List.nil_append, List.length_append, List.length_singleton] at hlen
        rw [h] at hc
        omega
    · exact absurd h.symm hx
  · rintro ⟨pre, hpre, rfl⟩
    have htake : (pre ++ 46 :: x).reverse.takeWhile (fun c => c != 46) = x.reverse := by
      rw [List.reverse_append, List.reverse_cons, List.append_assoc,
        List.takeWhile_append_of_pos (fun c hc => ?_)]
      · simp
      · rw [List.mem_reverse] at hc
        rw [bne_iff_ne]
        rintro rfl
        exact hdot hc
    have hpos := List.length_pos_of_ne_nil hpre
    have hxpos := List.length_pos_of_ne_nil hx
    unfold extension
    simp only [htake, List.reverse_reverse]
    rw [if_pos]
    refine ⟨by simp, ?_, hxpos⟩
    simp only [List.length_append, List.length_cons]
    omega

/-- The same of texts. -/
theorem extension_utf8_iff {t ext : Text} (hne : ext ≠ []) (hdot : '.' ∉ ext) :
    extension (utf8 t) = utf8 ext ↔ '.' :: ext <:+ t ∧ t ≠ '.' :: ext := by
  have h46 : utf8 ('.' :: ext) = 46 :: utf8 ext := rfl
  have hx : utf8 ext ≠ [] := by
    intro h
    exact hne (utf8_injective (h.trans utf8_nil.symm))
  have hdot' : (46 : UInt8) ∉ utf8 ext := by
    intro h
    obtain ⟨c, hc, hb⟩ := List.mem_flatMap.mp h
    have := (mem_utf8EncodeChar_iff c 46 (by decide)).mp hb
    exact hdot (by rwa [show c = '.' from Char.toNat_inj.mp this] at hc)
  rw [extension_eq_iff hx hdot']
  constructor
  · rintro ⟨pre, hpre, h⟩
    have hcut : utf8 t = pre ++ (utf8 ('.' :: ext) ++ []) := by rw [h, h46, List.append_nil]
    obtain ⟨s, r, ht, hs, hr⟩ := utf8_cut hcut
    obtain rfl : r = [] := utf8_injective (hr.trans utf8_nil.symm)
    rw [List.append_nil] at ht
    refine ⟨⟨s, ht.symm⟩, ?_⟩
    rintro rfl
    have hnil : s = [] := by
      have := congrArg List.length ht
      rw [List.length_append] at this
      exact List.length_eq_zero_iff.mp (by omega)
    rw [hnil] at hs
    exact hpre hs.symm
  · rintro ⟨⟨s, rfl⟩, hne'⟩
    refine ⟨utf8 s, ?_, by rw [utf8_append, h46]⟩
    intro h
    obtain rfl : s = [] := utf8_injective (h.trans utf8_nil.symm)
    exact hne' rfl

/-! ## The law -/

/-- The extension a pattern asks for, when it is `*.` and an extension. -/
def extOf : Text → Option Text
  | '*' :: '.' :: ext =>
      if ext ≠ [] ∧ ¬ (ext.any fun c => c == '*' || c == '?' || c == '.') then some ext else none
  | _ => none

/-- When the test a pattern is compiled to agrees with the matcher over the folded name.  What was
kept of the name matches when the name does, and a name that ends in the extension asked for spells
one, with something before it. -/
def GlobAgrees (T : CaseTable) (p : Text) (name : Str) : Prop :=
  match extOf p with
  | none => globMatches p (keptName T name) = globMatches p (foldName T name)
  | some ext =>
      globMatches p (foldName T name) = true ↔
        globMatches p (keptName T name) = true ∧ extensionIsEligible name = true ∧
          keptName T name ≠ '.' :: ext

theorem extOf_star (ext : Text) : extOf ('*' :: '.' :: ext) =
    if ext ≠ [] ∧ ¬ (ext.any fun c => c == '*' || c == '?' || c == '.') then some ext else none :=
  rfl

theorem extOf_of_ne {p : Text} (h : ∀ ext, p ≠ '*' :: '.' :: ext) : extOf p = none := by
  unfold extOf
  split
  · exact absurd rfl (h _)
  · rfl

/-- The test a pattern is compiled to. -/
theorem compileMatch_glob {P : Platform} {v : View} {p : Text} {t : Test P}
    (ht : compileMatch P v (.nameGlob p) = .ok t) :
    (extOf p = none ∧ t = .nameGlob p) ∨
      ∃ ext, p = '*' :: '.' :: ext ∧ extOf p = some ext ∧ t = .ext [ext] true := by
  simp only [compileMatch] at ht
  split at ht
  · rename_i ext
    rw [extOf_star]
    split at ht
    · rename_i h
      right
      exact ⟨ext, rfl, if_pos h, (Except.ok.inj ht).symm⟩
    · rename_i h
      left
      exact ⟨if_neg h, (Except.ok.inj ht).symm⟩
  · rename_i hshape
    left
    exact ⟨extOf_of_ne fun ext hp => hshape ext hp, (Except.ok.inj ht).symm⟩

theorem extOf_spec {p ext : Text} (h : extOf p = some ext) :
    p = '*' :: '.' :: ext ∧ ext ≠ [] ∧ '.' ∉ ext ∧ ∀ c ∈ '.' :: ext, isWild c = false := by
  unfold extOf at h
  split at h
  · rename_i x
    split at h
    · rename_i hx
      obtain rfl := Option.some.inj h
      obtain ⟨hne, hany⟩ := hx
      simp only [List.any_eq_true, not_exists, not_and, Bool.not_eq_true] at hany
      refine ⟨rfl, hne, fun hc => ?_, fun c hc => ?_⟩
      · simpa using hany '.' hc
      · rcases List.mem_cons.mp hc with rfl | hc
        · rfl
        · have := hany c hc
          simp only [Bool.or_eq_false_iff] at this
          simp [isWild, this.1.1, this.1.2]
    · cases h
  · cases h

theorem globMatches_extOf {p ext : Text} (h : extOf p = some ext) (t : Text) :
    globMatches p t = true ↔ '.' :: ext <:+ t := by
  obtain ⟨rfl, -, -, hl⟩ := extOf_spec h
  exact globMatches_ext hl t

/-- Where the fold fits the buffer only the extension test can part from the matcher. -/
theorem globAgrees_of_fit {T : CaseTable} {p : Text} {name : Str} (h : IsText name)
    (hfit : (utf8 (foldName T name)).length ≤ FOLD_CAP) :
    GlobAgrees T p name ↔ ∀ ext, extOf p = some ext → '.' :: ext <:+ foldName T name →
      extensionIsEligible name = true ∧ foldName T name ≠ '.' :: ext := by
  unfold GlobAgrees
  rw [keptName_eq T h hfit]
  cases hp : extOf p with
  | none => simp
  | some ext =>
    simp only [Option.some.injEq, forall_eq']
    rw [globMatches_extOf hp]
    constructor
    · intro h1 h2
      exact (h1.mp h2).2
    · intro h1
      exact ⟨fun h2 => ⟨h2, h1 h2⟩, fun h2 => h2.1⟩

/-- A row answers a wildcard as the matcher answers it of the folded name. -/
theorem nameGlob_iff (P : Platform) (es : List Entry) (htext : ∀ e ∈ es, IsText e.path.bytes)
    (row : Nat) (e : Entry) (he : (Scour.build es).seg.entry row = some e) (p : Text) (t : Test P)
    (ht : compileMatch P (View.build P es) (.nameGlob p) = .ok t) :
    evaluate (View.build P es) row (View.foldedName (View.build P es) row) t =
        globMatches p (foldName P.case e.name) ↔
      GlobAgrees P.case p e.name := by
  have htx := isText_name (isText_of_entry htext he)
  rw [foldedName_build he, ← utf8_keptName P.case htx]
  unfold GlobAgrees
  rcases compileMatch_glob ht with ⟨hp, rfl⟩ | ⟨ext, -, hp, rfl⟩
  · rw [hp]
    simp only [evaluate, fromUtf8_utf8]
  · obtain ⟨-, hne, hdot, -⟩ := extOf_spec hp
    have hname : (View.build P es).seg.names.getD row [] = e.name := by
      have hget : (View.build P es).seg.names[row]? = some e.name :=
        buildSorted_name (stored_of_entry he)
      rw [List.getD_eq_getElem?_getD, hget]
      rfl
    have hbytes : utf8 ext ≠ [] := fun h => hne (utf8_injective (h.trans utf8_nil.symm))
    -- the test holds of a name that spells an extension and whose kept fold ends in the one asked
    have htest : evaluate (View.build P es) row (utf8 (keptName P.case e.name))
        (.ext [ext] true : Test P) = true ↔
        '.' :: ext <:+ keptName P.case e.name ∧ extensionIsEligible e.name = true ∧
          keptName P.case e.name ≠ '.' :: ext := by
      simp only [evaluate, hname, List.any_cons, List.any_nil, Bool.or_false, Bool.true_or,
        Bool.and_true, Bool.and_eq_true, bne_iff_ne, beq_iff_eq]
      unfold foldedExtension
      cases extensionIsEligible e.name with
      | false => simp
      | true =>
        simp only [if_true, true_and]
        rw [← extension_utf8_iff hne hdot]
        constructor
        · rintro ⟨-, h⟩
          exact h.symm
        · intro h
          rw [h]
          exact ⟨hbytes, rfl⟩
    rw [hp]
    simp only
    rw [Bool.eq_iff_iff, htest, globMatches_extOf hp, globMatches_extOf hp]
    exact Iff.comm

/-- A pattern of the common shape, over a common name. -/
theorem nameGlob_file :
    evaluate (View.build .plain [.file "/d/f.RS"]) 0
        (View.foldedName (View.build .plain [.file "/d/f.RS"]) 0)
        (.ext [['r', 's']] true : Test .plain) =
      globMatches "*.rs".toList (foldName Platform.plain.case (Entry.file "/d/f.RS").name) := by
  have htext : ∀ e ∈ [Entry.file "/d/f.RS"], IsText e.path.bytes := by
    intro e he
    rw [List.mem_singleton.mp he]
    exact ⟨"/d/f.RS".toList, rfl⟩
  have hname : (Entry.file "/d/f.RS").name = utf8 "f.RS".toList := by decide
  have hfold : foldName Platform.plain.case (Entry.file "/d/f.RS").name = "f.rs".toList := by
    rw [hname, foldName, chars_utf8]
    decide
  refine (nameGlob_iff .plain [.file "/d/f.RS"] htext 0 (.file "/d/f.RS") (buildSorted_entry rfl)
    "*.rs".toList _ rfl).mpr ?_
  rw [globAgrees_of_fit ⟨_, hname.symm⟩ (by rw [hfold]; decide), hfold]
  intro ext hext _
  obtain rfl : ['r', 's'] = ext := Option.some.inj hext
  exact ⟨by decide, by decide⟩

/-- `*.rs` is asked of a name that begins with its last dot. -/
theorem not_nameGlob : ¬ ∀ (P : Platform) (es : List Entry), (∀ e ∈ es, IsText e.path.bytes) →
    ∀ (row : Nat) (e : Entry), (Scour.build es).seg.entry row = some e →
    ∀ p : Text, DefaultFolder.fold P.case p = p → ∀ t : Test P,
    compileMatch P (View.build P es) (.nameGlob p) = .ok t →
      evaluate (View.build P es) row (View.foldedName (View.build P es) row) t =
        globMatches p (foldName P.case e.name) := by
  intro h
  have htext : ∀ e ∈ [Entry.file "/.rs"], IsText e.path.bytes := by
    intro e he
    rw [List.mem_singleton.mp he]
    exact ⟨"/.rs".toList, rfl⟩
  have hname : (Entry.file "/.rs").name = utf8 ".rs".toList := by decide
  have hfold : foldName Platform.plain.case (Entry.file "/.rs").name = ".rs".toList := by
    rw [hname, foldName, chars_utf8]
    decide
  have := h .plain [.file "/.rs"] htext 0 (.file "/.rs") (buildSorted_entry rfl) "*.rs".toList
    (by decide) (.ext [['r', 's']] true) rfl
  rw [hfold] at this
  exact absurd this (by decide)

end Scour
