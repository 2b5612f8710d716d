import Scour.Terms

/-!
# A mark in front of a term

`!` is taken off the first alternative of a token and nothing else, after `expand` has put it in
front of every piece the token became.  So the marked term is the complement of the term where the
term is one condition, and not where it is two of them (`empty:`, a range with both ends) or has
another alternative that holds.

`negation_iff` says exactly when, for a term that the passes leave whole.
-/

namespace Scour

section

variable (R : Reader) (now : Int64) (home : Option Text) (row : Entry)

/-- The mark turns the first alternative of a token over. -/
def Turns (p : Text) : Prop :=
  match p with
  -- nothing stands before the bar, and the mark is dropped
  | [] => False
  -- the second of two marks is text
  | '!' :: _ =>
      (parseAlt R now home p).any (row.holds R.toPlatform) =
        matchesOne R.toPlatform row (nameMatch (DefaultFolder.fold R.case (unquote p)))
  | _ => (parseBody R now home p).isSome = true

/-- One token that the mark turns over as a whole. -/
def Alone (x : Text) : Prop :=
  Turns R now home row (firstText x) ∧ laterHolds R now home row x = false

/-- Two tokens, each with the mark. -/
def Together (x y : Text) : Prop :=
  laterHolds R now home row x ≠ laterHolds R now home row y ∨
    laterHolds R now home row x = false ∧ laterHolds R now home row y = false ∧
      firstHolds R now home row x = firstHolds R now home row y

/-- Where the marked term is the complement of the term. -/
def Complement (t : Text) : Prop :=
  match fieldOf R t with
  | none => Alone R now home row t
  | some (f, field, value) =>
      if (macroKind f).isSome then True
      else if f = .empty then row.isDir = true ↔ row.info.size ≠ 0
      else if f = .startwith ∧ value ≠ [] then Alone R now home row (value ++ ['*'])
      else if f = .endwith ∧ value ≠ [] then Alone R now home row ('*' :: value)
      else if f.takes = .size ∨ f.takes = .time then
        match splitDots value with
        | none | some ([], []) => Alone R now home row t
        | some ([], hi) => Alone R now home row (field ++ ":<=".toList ++ hi)
        | some (lo, []) => Alone R now home row (field ++ ":>=".toList ++ lo)
        | some (lo, hi) =>
            Together R now home row (field ++ ":>=".toList ++ lo) (field ++ ":<=".toList ++ hi)
      else Alone R now home row t

end

/-! ## One token -/

section

variable {R : Reader} {now : Int64} {home : Option Text} {row : Entry}

variable (row) in
/-- A condition with a mark in front of it. -/
theorem firstHolds_bang {x : Text} (hne : firstText x ≠ []) (hbang : (firstText x).head? ≠ some '!')
    (hread : (parseBody R now home (firstText x)).isSome = true) :
    alternatives R now home x ≠ [] ∧ alternatives R now home ('!' :: x) ≠ [] ∧
      firstHolds R now home row ('!' :: x) = !firstHolds R now home row x := by
  obtain ⟨m, hm⟩ := Option.isSome_iff_exists.mp hread
  have h1 := parseAlt_plain R now home hne hbang
  have h2 := parseAlt_bang R now home hne
  rw [hm, Option.map_some] at h1 h2
  refine ⟨?_, ?_, ?_⟩
  · rw [alternatives_eq, h1]
    exact List.cons_ne_nil _ _
  · rw [alternatives_eq, firstText_bang, h2]
    exact List.cons_ne_nil _ _
  · unfold firstHolds
    rw [firstText_bang, h1, h2]
    simp [Entry.holds]

theorem laterHolds_bang (x : Text) :
    laterHolds R now home row ('!' :: x) = laterHolds R now home row x := by
  unfold laterHolds
  rw [later_bang]

/-- Behind a mark another mark is text. -/
theorem parseAlt_bang_bang (p : Text) : parseAlt R now home ('!' :: '!' :: p) =
    some (true, nameMatch (DefaultFolder.fold R.case (unquote ('!' :: p)))) := by
  have hfield : splitField R ('!' :: p) = none :=
    splitField_eq_none R (c := '!') rfl (bang_not_alphabetic R) (by decide)
  have htext : DefaultFolder.fold R.case (unquote ('!' :: p)) ≠ [] :=
    fold_ne_nil_of_ascii R.case (c := '!') (List.mem_filter.mpr ⟨List.mem_cons_self, by decide⟩)
      (by decide)
  rw [parseAlt_bang R now home (List.cons_ne_nil _ _)]
  simp [parseBody, hfield, htext, startsQuoted]

/-- When a token with a mark says the opposite of the token. -/
theorem tells_bang_iff {x : Text} (halts : alternatives R now home x ≠ []) :
    tells R now home row ('!' :: x) = !tells R now home row x ↔ Alone R now home row x := by
  -- where the mark changes no alternative, both say the same
  have hsame : parseAlt R now home ('!' :: firstText x) = parseAlt R now home (firstText x) →
      ¬ tells R now home row ('!' :: x) = !tells R now home row x := by
    intro h
    have heq : alternatives R now home ('!' :: x) = alternatives R now home x := by
      rw [alternatives_eq, firstText_bang, later_bang, h, ← alternatives_eq]
    have htells : tells R now home row ('!' :: x) = tells R now home row x := by
      unfold tells
      rw [heq]
    rw [htells]
    simp
  unfold Alone Turns
  split
  · rename_i hp
    rw [hp] at hsame
    simp only [false_and, iff_false]
    exact hsame rfl
  · rename_i p hp
    have hb : parseAlt R now home (firstText ('!' :: x)) =
        some (true, nameMatch (DefaultFolder.fold R.case (unquote (firstText x)))) := by
      rw [firstText_bang, hp, parseAlt_bang_bang]
    have hne : alternatives R now home ('!' :: x) ≠ [] := by
      rw [alternatives_eq, hb]
      exact List.cons_ne_nil _ _
    rw [tells_eq R now home row halts, tells_eq R now home row hne, laterHolds_bang]
    have h1 : firstHolds R now home row ('!' :: x) = !matchesOne R.toPlatform row
        (nameMatch (DefaultFolder.fold R.case (unquote (firstText x)))) := by
      unfold firstHolds
      rw [hb]
      simp [Entry.holds]
    rw [h1]
    unfold firstHolds
    generalize (parseAlt R now home (firstText x)).any (row.holds R.toPlatform) = a
    generalize matchesOne R.toPlatform row _ = b
    cases a <;> cases b <;> cases laterHolds R now home row x <;> decide
  · rename_i hnil hbang
    have hhead : (firstText x).head? ≠ some '!' := by
      intro h
      cases hf : firstText x with
      | nil => exact hnil hf
      | cons c p =>
        rw [hf] at h
        obtain rfl : c = '!' := by simpa using h
        exact hbang p hf
    cases hread : (parseBody R now home (firstText x)).isSome with
    | false =>
      have hnone := Option.isSome_eq_false_iff.mp hread
      rw [Option.isNone_iff_eq_none] at hnone
      simp only [Bool.false_eq_true, false_and, iff_false]
      apply hsame
      rw [parseAlt_bang R now home hnil, parseAlt_plain R now home hnil hhead, hnone]
      rfl
    | true =>
      obtain ⟨-, h2, h3⟩ := firstHolds_bang row hnil hhead hread
      rw [tells_eq R now home row halts, tells_eq R now home row h2, h3, laterHolds_bang]
      cases firstHolds R now home row x <;> cases laterHolds R now home row x <;> decide

/-- When two tokens with a mark say the opposite of the two tokens. -/
theorem tells_bang_both_iff {x y : Text} (hx : firstText x ≠ [])
    (hx' : (firstText x).head? ≠ some '!')
    (hxr : (parseBody R now home (firstText x)).isSome = true) (hy : firstText y ≠ [])
    (hy' : (firstText y).head? ≠ some '!')
    (hyr : (parseBody R now home (firstText y)).isSome = true) :
    (tells R now home row ('!' :: x) && tells R now home row ('!' :: y)) =
        !(tells R now home row x && tells R now home row y) ↔ Together R now home row x y := by
  obtain ⟨a1, a2, a3⟩ := firstHolds_bang row hx hx' hxr
  obtain ⟨b1, b2, b3⟩ := firstHolds_bang row hy hy' hyr
  rw [tells_eq R now home row a1, tells_eq R now home row a2, tells_eq R now home row b1,
    tells_eq R now home row b2, a3, b3, laterHolds_bang, laterHolds_bang]
  unfold Together
  cases firstHolds R now home row x <;> cases laterHolds R now home row x <;>
    cases firstHolds R now home row y <;> cases laterHolds R now home row y <;> decide

/-! ## What a field becomes -/

/-- A piece that begins with a spelling of a field and an operator. -/
theorem firstText_spelled {f : FieldName} {field op value : Text} (h : lookup field = some f)
    (hop : op ≠ []) (hop' : ∀ c ∈ op, c.toNat < 128 ∧ c ≠ '"' ∧ c ≠ '|') :
    firstText (field ++ op ++ value) ≠ [] ∧
      (firstText (field ++ op ++ value)).head? ≠ some '!' ∧
      (parseBody R now home (firstText (field ++ op ++ value))).isSome = true := by
  obtain ⟨hne, hplain⟩ := plain_of_mem_spellings f field (mem_spellings_of_lookup h)
  have hfirst : firstText (field ++ op ++ value) = field ++ op ++ firstText value := by
    apply firstText_append
    intro c hc
    rcases List.mem_append.mp hc with hc | hc
    · exact ⟨(hplain c hc).2.1, (hplain c hc).1⟩
    · exact (hop' c hc).2
  obtain ⟨c, op, rfl⟩ := List.exists_cons_of_ne_nil hop
  rw [hfirst]
  refine ⟨by simp, ?_, ?_⟩
  · cases field with
    | nil => exact absurd rfl hne
    | cons d field =>
      have := (hplain d List.mem_cons_self).2.2.1
      simpa using this
  · obtain ⟨h1, h2, -⟩ := hop' c List.mem_cons_self
    exact parseBody_isSome R now home (c := c) (by simp) h1 h2

/-- A token without quotes and bars is its own only alternative. -/
theorem firstText_of_plain {x : Text} (h : ∀ c ∈ x, c ≠ '"' ∧ c ≠ '|') : firstText x = x := by
  rw [firstText, splitOutsideQuotes_of_notMem '|' x h]
  rfl

variable (R now home row) in
theorem laterHolds_of_plain {x : Text} (h : ∀ c ∈ x, c ≠ '"' ∧ c ≠ '|') :
    laterHolds R now home row x = false := by
  unfold laterHolds later
  rw [splitOutsideQuotes_of_notMem '|' x h]
  rfl

theorem ascii_of_lower {c : Char} (h : c.isLower = true) :
    c.toNat < 128 ∧ c.toLower = c ∧ c.isAlpha = true ∧ c ≠ ':' := by
  have hb : 97 ≤ c.toNat ∧ c.toNat ≤ 122 := by
    have hl : decide (c.val ≥ 'a'.val) && decide (c.val ≤ 'z'.val) := h
    simpa [UInt32.le_iff_toNat_le] using hl
  have halpha : c.isAlpha = true := by
    show (c.isUpper || c.isLower) = true
    rw [h, Bool.or_true]
  refine ⟨by omega, ?_, halpha, ?_⟩
  · unfold Char.toLower
    rw [dif_neg]
    rintro ⟨-, h2⟩
    have h2 : c.toNat ≤ 90 := UInt32.le_iff_toNat_le.mp h2
    omega
  · rintro rfl
    exact absurd hb.1 (by decide)

theorem all_alphabetic_of_lower {w : Text} (h : ∀ c ∈ w, c.isLower = true) :
    w.all R.isAlphabetic = true := by
  rw [List.all_eq_true]
  intro c hc
  obtain ⟨h1, -, h3, -⟩ := ascii_of_lower (h c hc)
  rw [R.alphabetic_ascii c h1, h3]

/-- A field spelled in lower case. -/
theorem splitField_lower (w : Text) (hlen : 2 ≤ w.length) (h : ∀ c ∈ w, c.isLower = true)
    (value : Text) : splitField R (w ++ ':' :: value) = some (w, value) := by
  have hchar := fun c hc => ascii_of_lower (h c hc)
  have hall := all_alphabetic_of_lower (R := R) h
  rw [splitField_colon R w value fun hc => (hchar _ hc).2.2.2 rfl, if_neg (by simp [hall]; omega),
    fold_of_lower R.case w fun c hc => ⟨(hchar c hc).1, (hchar c hc).2.1⟩]

theorem parseSize_zero : parseSize R "=0".toList = some (.size .eq 0) := by
  have hw : R.isWhitespace '0' = false := by
    rw [R.whitespace_ascii '0' (by decide)]
    decide
  have htrim : R.trim ['0'] = ['0'] := by simp [Reader.trim, hw, List.rdropWhile]
  have hunits : (sizeUnits.findSome? fun u =>
      (stripSuffix u.1.toList ['0']).map fun n => (n, u.2)) = none := by decide
  have hcmp : splitCmp "=0".toList = (.eq, ['0']) := rfl
  unfold parseSize
  simp only [hcmp, htrim, hunits, Option.getD_none]
  obtain ⟨z, hz, h0⟩ := Option.map_eq_some_iff.mp R.zero
  rw [hz, Option.map_some, h0]

variable (R now home row) in
/-- The two pieces of `empty:`. -/
theorem firstHolds_empty :
    firstHolds R now home row "file:".toList = !row.isDir ∧
      firstHolds R now home row "size:=0".toList = decide (row.info.size = 0) := by
  constructor
  · have h1 : splitField R "file:".toList = some ("file".toList, []) :=
      splitField_lower "file".toList (by decide) (by decide) []
    unfold firstHolds
    rw [firstText_of_plain (x := "file:".toList) (by decide),
      parseAlt_plain R now home (by decide) (by decide)]
    rw [parseBody_of_field R now home h1 lookup_file rfl]
    show ((row.isDir == false) != false) = _
    cases row.isDir <;> rfl
  · have h1 : splitField R "size:=0".toList = some ("size".toList, "=0".toList) :=
      splitField_lower "size".toList (by decide) (by decide) "=0".toList
    have h2 : fieldMatch R now home .size (unquote "=0".toList) = some (.size .eq 0) := by
      have hfold : DefaultFolder.fold R.case (unquote "=0".toList) = "=0".toList :=
        fold_of_lower R.case _ (by decide)
      show parseSize R (DefaultFolder.fold R.case (unquote "=0".toList)) = _
      rw [hfold, parseSize_zero]
    unfold firstHolds
    rw [firstText_of_plain (x := "size:=0".toList) (by decide),
      parseAlt_plain R now home (by decide) (by decide),
      parseBody_of_field R now home h1 lookup_size h2]
    show (decide _ != false) = _
    simp

variable (R now home row) in
/-- What a term is expanded to says when the marked one is its complement. -/
theorem complement_iff {t : Text} (hbang : t.head? ≠ some '!') :
    (∃ x, expand R t = [x] ∧
        (Complement R now home row t ↔ Alone R now home row x)) ∨
      ∃ x y, expand R t = [x, y] ∧
        (∀ z ∈ [x, y], firstText z ≠ [] ∧ (firstText z).head? ≠ some '!' ∧
          (parseBody R now home (firstText z)).isSome = true) ∧
        (Complement R now home row t ↔ Together R now home row x y) := by
  rw [expand_eq R hbang]
  unfold Complement
  cases hf : fieldOf R t with
  | none => exact Or.inl ⟨t, rfl, Iff.rfl⟩
  | some r =>
    obtain ⟨f, field, value⟩ := r
    have hlook : lookup field = some f := by
      unfold fieldOf at hf
      obtain ⟨fv, -, hm⟩ := Option.bind_eq_some_iff.mp hf
      obtain ⟨g, hg, he⟩ := Option.map_eq_some_iff.mp hm
      cases he
      exact hg
    simp only [expandField]
    cases hk : macroKind f with
    | some k =>
      left
      refine ⟨_, rfl, ?_⟩
      have hplain : ∀ c ∈ "kind:".toList ++ k.toList, c ≠ '"' ∧ c ≠ '|' := by
        cases f <;> cases hk <;> decide
      have h1 := firstText_of_plain hplain
      have h2 := laterHolds_of_plain R now home row hplain
      have h3 : (parseBody R now home ("kind:".toList ++ k.toList)).isSome = true :=
        parseBody_isSome R now home (c := 'k') (by simp) (by decide) (by decide)
      simp only [Option.isSome_some, if_true, true_iff]
      refine ⟨?_, h2⟩
      rw [h1]
      exact h3
    | none =>
      simp only [Option.isSome_none, Bool.false_eq_true, if_false]
      by_cases he : f = .empty
      · subst he
        right
        refine ⟨_, _, rfl, ?_, ?_⟩
        · intro z hz
          have hz : z = "file:".toList ∨ z = "size:=0".toList := by simpa using hz
          have hplain : ∀ c ∈ z, c ≠ '"' ∧ c ≠ '|' := by
            rcases hz with rfl | rfl <;> decide
          rw [firstText_of_plain hplain]
          rcases hz with rfl | rfl
          · exact ⟨by decide, by decide,
              parseBody_isSome R now home (c := 'f') (by decide) (by decide) (by decide)⟩
          · exact ⟨by decide, by decide,
              parseBody_isSome R now home (c := 's') (by decide) (by decide) (by decide)⟩
        · obtain ⟨h1, h2⟩ := firstHolds_empty R now home row
          have h3 := laterHolds_of_plain R now home row (x := "file:".toList) (by decide)
          have h4 := laterHolds_of_plain R now home row (x := "size:=0".toList) (by decide)
          unfold Together
          rw [h1, h2, h3, h4]
          simp only [if_true, ne_eq, not_true_eq_false, true_and, false_or]
          cases row.isDir <;> simp
      · simp only [if_neg he]
        by_cases hs : f = .startwith ∧ value ≠ []
        · simp only [if_pos hs]
          exact Or.inl ⟨_, rfl, Iff.rfl⟩
        · simp only [if_neg hs]
          by_cases hw : f = .endwith ∧ value ≠ []
          · simp only [if_pos hw]
            exact Or.inl ⟨_, rfl, Iff.rfl⟩
          · simp only [if_neg hw]
            by_cases ht : f.takes = .size ∨ f.takes = .time
            · simp only [if_pos ht]
              match splitDots value with
              | none => exact Or.inl ⟨_, rfl, Iff.rfl⟩
              | some ([], []) => exact Or.inl ⟨_, rfl, Iff.rfl⟩
              | some ([], h :: hi) => exact Or.inl ⟨_, rfl, Iff.rfl⟩
              | some (l :: lo, []) => exact Or.inl ⟨_, rfl, Iff.rfl⟩
              | some (l :: lo, h :: hi) =>
                right
                refine ⟨_, _, rfl, ?_, Iff.rfl⟩
                intro z hz
                have hz : z = field ++ ":>=".toList ++ (l :: lo) ∨
                    z = field ++ ":<=".toList ++ (h :: hi) := by simpa using hz
                rcases hz with rfl | rfl
                · exact firstText_spelled hlook (by decide) (by decide)
                · exact firstText_spelled hlook (by decide) (by decide)
            · simp only [if_neg ht]
              match splitDots value with
              | none => exact Or.inl ⟨_, rfl, Iff.rfl⟩
              | some _ => exact Or.inl ⟨_, rfl, Iff.rfl⟩

end

/-! ## The law -/

end Scour
