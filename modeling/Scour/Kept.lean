import Scour.Reference

/-!
# The name a row is tested by

A row is tested by what the arena keeps of its folded name.  `keptName` is that as a text: a beginning
of the fold (`keptName_prefix`), and all of it when it fits the buffer (`keptName_eq`).  A test over
the bytes of texts is one over their characters (`utf8_infix_iff`).
-/

namespace Scour

/-! ## Substrings of texts -/

theorem utf8EncodeChar_append_inj {c d : Char} {x y : Str}
    (h : String.utf8EncodeChar c ++ x = String.utf8EncodeChar d ++ y) : c = d ∧ x = y := by
  have hc := ByteArray.utf8DecodeChar?_utf8EncodeChar_append (b := x.toByteArray) (c := c)
  have hd := ByteArray.utf8DecodeChar?_utf8EncodeChar_append (b := y.toByteArray) (c := d)
  rw [← List.toByteArray_append] at hc hd
  rw [h, hd, Option.some.injEq] at hc
  subst hc
  refine ⟨rfl, List.append_cancel_left h⟩

/-- A text that begins another does so by characters. -/
theorem utf8_prefix_iff {a b : Text} : utf8 a <+: utf8 b ↔ a <+: b := by
  constructor
  · intro h
    induction a generalizing b with
    | nil => exact List.nil_prefix
    | cons c a ih =>
      obtain ⟨s, hs⟩ := h
      cases b with
      | nil =>
        have hne : String.utf8EncodeChar c ≠ [] := String.utf8EncodeChar_ne_nil
        simp [hne] at hs
      | cons d b =>
        rw [utf8_cons, utf8_cons, List.append_assoc] at hs
        obtain ⟨rfl, hrest⟩ := utf8EncodeChar_append_inj hs
        rw [List.cons_prefix_cons]
        exact ⟨rfl, ih ⟨s, hrest⟩⟩
  · rintro ⟨s, rfl⟩
    rw [utf8_append]
    exact List.prefix_append _ _

/-- The bytes of a text within those of another begin and end where characters do. -/
theorem utf8_cut {b : Text} {c : Char} {a : Text} {s r : Str}
    (h : utf8 b = s ++ (utf8 (c :: a) ++ r)) :
    ∃ s' r', b = s' ++ (c :: a ++ r') ∧ utf8 s' = s ∧ utf8 r' = r := by
  induction b generalizing s with
  | nil =>
    have hne : String.utf8EncodeChar c ≠ [] := String.utf8EncodeChar_ne_nil
    simp [hne] at h
  | cons d b ih =>
    rcases s with _ | ⟨x, s⟩
    · obtain ⟨r', hr⟩ := utf8_prefix_iff.mp ⟨r, h.symm⟩
      refine ⟨[], r', hr.symm, rfl, ?_⟩
      rw [← hr, utf8_append] at h
      exact List.append_cancel_left h
    · -- the first character of `a` does not start within `d`
      have hlen : (String.utf8EncodeChar d).length ≤ (x :: s).length := by
        by_contra hlt
        push Not at hlt
        have hpos : 0 < (String.utf8EncodeChar c).length :=
          List.length_pos_of_ne_nil String.utf8EncodeChar_ne_nil
        have hd : (String.utf8EncodeChar d)[(x :: s).length]? =
            some (String.utf8EncodeChar c)[0] := by
          have h1 : (utf8 (d :: b))[(x :: s).length]? =
              (String.utf8EncodeChar d)[(x :: s).length]? := by
            rw [utf8_cons, List.getElem?_append_left hlt]
          rw [← h1, h, utf8_cons, List.append_assoc, List.getElem?_append_right (le_refl _),
            Nat.sub_self, List.getElem?_append_left hpos, List.getElem?_eq_getElem hpos]
        obtain ⟨hlt', hd⟩ := List.getElem?_eq_some_iff.mp hd
        have hfirst : ((String.utf8EncodeChar c)[0]).IsUTF8FirstByte := by simp
        rw [← hd, UInt8.isUTF8FirstByte_getElem_utf8EncodeChar] at hfirst
        simp at hfirst
      rw [utf8_cons] at h
      obtain ⟨t, ht, hs⟩ | ⟨t, ht, hs⟩ := List.append_eq_append_iff.mp h
      · obtain ⟨s', r', hb, hs', hr'⟩ := ih hs
        refine ⟨d :: s', r', by rw [hb]; rfl, ?_, hr'⟩
        rw [utf8_cons, hs', ht]
      · have ht' : t = [] := by
          rw [ht, List.length_append] at hlen
          exact List.length_eq_zero_iff.mp (by omega)
        rw [ht', List.append_nil] at ht
        rw [ht', List.nil_append] at hs
        obtain ⟨s', r', hb, hs', hr'⟩ := ih (s := []) hs.symm
        refine ⟨d :: s', r', by rw [hb]; rfl, ?_, hr'⟩
        rw [utf8_cons, hs', List.append_nil, ht]

theorem utf8_infix_iff {a b : Text} : utf8 a <:+: utf8 b ↔ a <:+: b := by
  constructor
  · rintro ⟨s, r, h⟩
    cases a with
    | nil => exact List.nil_infix
    | cons c a =>
      rw [List.append_assoc] at h
      obtain ⟨s', r', rfl, -, -⟩ := utf8_cut h.symm
      exact ⟨s', r', List.append_assoc _ _ _⟩
  · rintro ⟨s, r, rfl⟩
    rw [utf8_append, utf8_append]
    exact List.infix_append _ _ _

theorem utf8_chars {b : Str} (h : IsText b) : utf8 (chars b) = b := by
  obtain ⟨cs, rfl⟩ := h
  rw [chars, fromUtf8_utf8]
  rfl

theorem chars_utf8 (cs : Text) : chars (utf8 cs) = cs := by
  rw [chars, fromUtf8_utf8]
  rfl

/-! ## What the arena keeps -/

namespace Folded

variable (T : CaseTable)

theorem pushAll_text (cs : List Char) : ∀ buf : Str,
    ∃ k, k <+: cs ∧ (pushAll buf cs).1 = buf ++ utf8 k ∧ ((pushAll buf cs).2 = true → k = cs) := by
  induction cs with
  | nil =>
    intro buf
    exact ⟨[], List.nil_prefix, by simp [pushAll], fun _ => rfl⟩
  | cons c cs ih =>
    intro buf
    unfold pushAll
    simp only
    split
    · refine ⟨[], List.nil_prefix, by simp, fun h => ?_⟩
      cases h
    · obtain ⟨k, h1, h2, h3⟩ := ih (buf ++ String.utf8EncodeChar c)
      refine ⟨c :: k, List.cons_prefix_cons.mpr ⟨rfl, h1⟩, ?_, fun h => ?_⟩
      · rw [h2, utf8_cons, List.append_assoc]
      · rw [h3 h]

/-- The loop appends whole characters of the fold. -/
theorem foldLoop_text (fuel : Nat) : ∀ (cs : List Char) (buf : Str),
    ∃ k, k <+: DefaultFolder.fold T cs ∧ foldLoop T fuel cs buf = buf ++ utf8 k := by
  induction fuel with
  | zero =>
    intro cs buf
    exact ⟨[], List.nil_prefix, by simp [foldLoop]⟩
  | succ fuel ih =>
    intro cs buf
    have hrun : ∀ c ∈ cs.takeWhile isAscii, isAscii c = true := fun c hc =>
      List.mem_takeWhile_imp hc
    have hsplit := List.takeWhile_append_dropWhile (p := isAscii) (l := cs)
    have hfold : DefaultFolder.fold T cs = DefaultFolder.fold T (cs.takeWhile isAscii) ++
        DefaultFolder.fold T (cs.dropWhile isAscii) := by
      rw [← DefaultFolder.fold_append, hsplit]
    rw [hfold]
    unfold foldLoop
    simp only
    split
    · exact ⟨[], List.nil_prefix, by simp⟩
    · rw [(asciiLower_utf8 T _ hrun).1]
      cases hd : cs.dropWhile isAscii with
      | nil => exact ⟨_, List.prefix_append _ _, rfl⟩
      | cons c rest =>
        simp only
        rw [lowered_eq, DefaultFolder.fold_cons]
        obtain ⟨k, h1, h2, h3⟩ := pushAll_text (DefaultFolder.foldChar T c)
          (buf ++ utf8 (DefaultFolder.fold T (cs.takeWhile isAscii)))
        split
        · rename_i buf' hp
          rw [hp] at h2 h3
          obtain rfl := h3 rfl
          obtain ⟨k', h4, h5⟩ := ih rest buf'
          refine ⟨DefaultFolder.fold T (cs.takeWhile isAscii) ++ (DefaultFolder.foldChar T c ++ k'),
            ?_, ?_⟩
          · rw [List.prefix_append_right_inj, List.prefix_append_right_inj]
            exact h4
          · rw [h5, show buf' = _ from h2]
            simp
        · rename_i buf' hp
          rw [hp] at h2
          refine ⟨DefaultFolder.fold T (cs.takeWhile isAscii) ++ k, ?_, ?_⟩
          · rw [List.prefix_append_right_inj]
            exact h1.trans (List.prefix_append _ _)
          · rw [show buf' = _ from h2]
            simp

/-- What is kept of a text is a text. -/
theorem foldBytes_text (cs : List Char) :
    ∃ k, k <+: DefaultFolder.fold T cs ∧ foldBytes T (utf8 cs) = utf8 k := by
  by_cases hshort : (utf8 cs).length ≤ FOLD_CAP ∧ (utf8 cs).all (· < 128) = true
  · refine ⟨_, List.prefix_refl _, ?_⟩
    rw [foldBytes, if_pos hshort, (asciiLower_utf8 T cs (isAscii_of_bytes hshort.2)).1]
  · rw [foldBytes, if_neg hshort, fromUtf8_utf8]
    simpa using foldLoop_text T cs.length cs []

end Folded

/-- The fold of a name, as a query is compared to it. -/
def foldName (T : CaseTable) (name : Str) : Text := DefaultFolder.fold T (chars name)

/-- What the arena keeps of it. -/
def keptName (T : CaseTable) (name : Str) : Text := chars (Folded.foldBytes T name)

section

variable (T : CaseTable) {name : Str} (h : IsText name)
include h

theorem utf8_keptName : utf8 (keptName T name) = Folded.foldBytes T name := by
  obtain ⟨cs, rfl⟩ := h
  obtain ⟨k, -, hk⟩ := Folded.foldBytes_text T cs
  rw [keptName, hk, chars_utf8]

theorem keptName_prefix : keptName T name <+: foldName T name := by
  obtain ⟨cs, rfl⟩ := h
  obtain ⟨k, hk1, hk2⟩ := Folded.foldBytes_text T cs
  rw [keptName, hk2, chars_utf8, foldName, chars_utf8]
  exact hk1

theorem keptName_eq (hfit : (utf8 (foldName T name)).length ≤ FOLD_CAP) :
    keptName T name = foldName T name := by
  obtain ⟨cs, rfl⟩ := h
  rw [foldName, chars_utf8] at hfit ⊢
  rw [keptName, Folded.foldBytes_eq T cs hfit, chars_utf8]

end

/-! ## A row and its entry -/

section

variable {P : Platform} {es : List Entry} {row : Nat} {e : Entry}

theorem isText_name (h : IsText e.path.bytes) : IsText e.name := by
  obtain ⟨cs, hcs⟩ := h
  obtain ⟨l, r, hp, -, hs, -⟩ := e.path.split
  rw [hp] at hcs
  obtain ⟨c1, c2, -, -, h2⟩ := utf8_split cs l r hcs
  unfold Entry.name
  rw [hs]
  exact ⟨c2, h2⟩

/-- A row of a built segment is an entry in the stored order. -/
theorem stored_of_entry (he : (Scour.build es).seg.entry row = some e) :
    (es.insertionSort storedLe)[row]? = some e := by
  rw [← he]
  exact (buildSorted_entry_eq row).symm

theorem isText_of_entry (htext : ∀ e ∈ es, IsText e.path.bytes)
    (he : (Scour.build es).seg.entry row = some e) : IsText e.path.bytes :=
  htext e ((List.mem_insertionSort _).mp (List.mem_of_getElem? (stored_of_entry he)))

/-- The name a walk hands over is what was kept of the entry's. -/
theorem foldedName_build (he : (Scour.build es).seg.entry row = some e) :
    View.foldedName (View.build P es) row = Folded.foldBytes P.case e.name := by
  show List.getD (List.map _ (es.insertionSort storedLe)) row [] = _
  rw [List.getD_eq_getElem?_getD, List.getElem?_map, stored_of_entry he]
  rfl

end

end Scour
