import Scour.Text

/-!
# Where a text may be cut

`isCharBoundary` is what `str` asks of a byte before it cuts there.  A text cut at a boundary is two
texts (`isText_of_boundary`), and what two texts have in common up to a boundary of one of them is
up to a boundary of the other (`boundary_of_take_eq`).
-/

namespace Scour

/-- A byte that goes on with a character. -/
def isContinuation (b : UInt8) : Bool := 128 ≤ b && b < 192

/-- `str::is_char_boundary`. -/
def isCharBoundary (s : Str) (n : Nat) : Bool :=
  n == 0 || n == s.length || (s[n]?).any fun b => !isContinuation b

/-- How many bytes go on with a character that begins with this one. -/
def goOn (b : UInt8) : Nat := if b < 128 then 0 else if b < 224 then 1 else if b < 240 then 2 else 3

theorem isContinuation_ofNat {n : Nat} (h : n < 256) :
    isContinuation (UInt8.ofNat n) = true ↔ 128 ≤ n ∧ n < 192 := by
  unfold isContinuation
  rw [Bool.and_eq_true, decide_eq_true_eq, decide_eq_true_eq, UInt8.le_iff_toNat_le,
    UInt8.lt_iff_toNat_lt, UInt8.toNat_ofNat', Nat.mod_eq_of_lt h]
  rfl

theorem goOn_ofNat {n : Nat} (h : n < 256) :
    goOn (UInt8.ofNat n) = if n < 128 then 0 else if n < 224 then 1 else if n < 240 then 2 else 3 := by
  unfold goOn
  simp only [UInt8.lt_iff_toNat_lt, UInt8.toNat_ofNat', Nat.mod_eq_of_lt h]
  rfl

/-- The first byte of a character says how many follow it, and only those go on with one. -/
theorem utf8EncodeChar_bytes (c : Char) :
    ∃ b rest, String.utf8EncodeChar c = b :: rest ∧ isContinuation b = false ∧
      rest.length = goOn b ∧ ∀ x ∈ rest, isContinuation x = true := by
  have hgo : ∀ n, isContinuation (UInt8.ofNat (n % 64 + 128)) = true :=
    fun n => (isContinuation_ofNat (by omega)).mpr (by omega)
  have hlead : ∀ n, n < 256 → ¬ (128 ≤ n ∧ n < 192) → isContinuation (UInt8.ofNat n) = false :=
    fun n h hn => Bool.eq_false_iff.mpr fun hc => hn ((isContinuation_ofNat h).mp hc)
  unfold String.utf8EncodeChar
  simp only
  split
  · refine ⟨_, _, rfl, hlead _ (by omega) (by omega), ?_, nofun⟩
    rw [goOn_ofNat (by omega), if_pos (by omega)]
    rfl
  split
  · refine ⟨_, _, rfl, hlead _ (by omega) (by omega), ?_, ?_⟩
    · rw [goOn_ofNat (by omega), if_neg (by omega), if_pos (by omega)]
      rfl
    · simp only [List.mem_singleton, forall_eq]
      exact hgo _
  split
  · refine ⟨_, _, rfl, hlead _ (by omega) (by omega), ?_, ?_⟩
    · rw [goOn_ofNat (by omega), if_neg (by omega), if_neg (by omega), if_pos (by omega)]
      rfl
    · simp only [List.mem_cons, List.not_mem_nil, or_false, forall_eq_or_imp, forall_eq]
      exact ⟨hgo _, hgo _⟩
  · refine ⟨_, _, rfl, hlead _ (by omega) (by omega), ?_, ?_⟩
    · rw [goOn_ofNat (by omega), if_neg (by omega), if_neg (by omega), if_neg (by omega)]
      rfl
    · simp only [List.mem_cons, List.not_mem_nil, or_false, forall_eq_or_imp, forall_eq]
      exact ⟨hgo _, hgo _, hgo _⟩

/-- A text cut at a boundary is two texts. -/
theorem isText_of_boundary {s : Str} {n : Nat} (hs : IsText s) (h : isCharBoundary s n = true) :
    IsText (s.take n) ∧ IsText (s.drop n) := by
  obtain ⟨cs, rfl⟩ := hs
  induction cs generalizing n with
  | nil => exact ⟨⟨[], by simp⟩, ⟨[], by simp⟩⟩
  | cons c cs ih =>
    obtain ⟨b, rest, hc, -, -, hrest⟩ := utf8EncodeChar_bytes c
    rw [utf8_cons] at h ⊢
    by_cases hn : n = 0
    · subst hn
      exact ⟨⟨[], rfl⟩, ⟨c :: cs, rfl⟩⟩
    by_cases hle : (String.utf8EncodeChar c).length ≤ n
    · -- the cut is past the character
      obtain ⟨m, rfl⟩ := Nat.exists_eq_add_of_le hle
      have hm : isCharBoundary (utf8 cs) m = true := by
        unfold isCharBoundary at h ⊢
        rw [List.length_append, List.getElem?_append_right (by omega), Nat.add_sub_cancel_left] at h
        simp only [Bool.or_eq_true, beq_iff_eq] at h ⊢
        rcases h with (h | h) | h
        · exact absurd h hn
        · exact Or.inl (Or.inr (by omega))
        · exact Or.inr h
      obtain ⟨⟨ds, hds⟩, hdrop⟩ := ih hm
      rw [List.take_length_add_append, List.drop_length_add_append]
      exact ⟨⟨c :: ds, by rw [utf8_cons, hds]⟩, hdrop⟩
    · -- inside it every byte goes on
      exfalso
      obtain ⟨m, rfl⟩ := Nat.exists_eq_succ_of_ne_zero hn
      have hlt : m < rest.length := by
        rw [hc, List.length_cons] at hle
        omega
      have hbyte : (String.utf8EncodeChar c ++ utf8 cs)[m + 1]? = some rest[m] := by
        rw [hc, List.getElem?_append_left (by rw [List.length_cons]; omega),
          List.getElem?_cons_succ, List.getElem?_eq_getElem hlt]
      unfold isCharBoundary at h
      rw [hbyte, Option.any_some, hrest _ (List.getElem_mem hlt), hc] at h
      simp at h
      omega

/-- Two texts that begin alike go on with characters. -/
theorem boundary_of_append {cs ds : List Char} {r : Str} (h : utf8 cs = utf8 ds ++ r) : IsText r := by
  induction ds generalizing cs with
  | nil => exact ⟨cs, h⟩
  | cons d ds ih =>
    obtain ⟨b, rest, hd, -, hlen, -⟩ := utf8EncodeChar_bytes d
    cases cs with
    | nil =>
      rw [utf8_cons, hd] at h
      cases h
    | cons c cs =>
      obtain ⟨b', rest', hc, -, hlen', -⟩ := utf8EncodeChar_bytes c
      rw [utf8_cons, utf8_cons, hc, hd, List.append_assoc, List.cons_append, List.cons_append,
        List.cons.injEq] at h
      obtain ⟨rfl, h⟩ := h
      -- the same first byte, so the same length
      exact ih (List.append_inj h (hlen'.trans hlen.symm)).2

/-- What begins a text ends at a boundary of it. -/
theorem boundary_of_isText {s : Str} {n : Nat} (hs : IsText s) (h : IsText (s.take n)) :
    isCharBoundary s n = true ∨ s.length < n := by
  obtain ⟨cs, rfl⟩ := hs
  obtain ⟨ds, hds⟩ := h
  rcases Nat.lt_or_ge (utf8 cs).length n with hlt | hge
  · exact Or.inr hlt
  left
  obtain ⟨es, hes⟩ := boundary_of_append (r := (utf8 cs).drop n)
    (by rw [hds, List.take_append_drop] : utf8 cs = utf8 ds ++ (utf8 cs).drop n)
  unfold isCharBoundary
  cases es with
  | nil =>
    have hlen := congrArg List.length hes
    rw [utf8_nil, List.length_nil, List.length_drop] at hlen
    simp only [Bool.or_eq_true, beq_iff_eq]
    exact Or.inl (Or.inr (by omega))
  | cons e es =>
    obtain ⟨b, rest, he, hb, -, -⟩ := utf8EncodeChar_bytes e
    have hget : (utf8 cs)[n]? = some b := by
      have := congrArg (fun l : Str => l[0]?) hes
      rw [utf8_cons, he] at this
      simpa using this.symm
    rw [hget, Option.any_some, hb, Bool.not_false, Bool.or_true]

/-- A text may be cut where its characters meet. -/
theorem isCharBoundary_utf8 (cs ds : List Char) :
    isCharBoundary (utf8 (cs ++ ds)) (utf8 cs).length = true := by
  refine (boundary_of_isText ⟨cs ++ ds, rfl⟩ ⟨cs, ?_⟩).resolve_right ?_
  · rw [utf8_append, List.take_left' rfl]
  · rw [utf8_append, List.length_append]
    omega

/-- A cut both texts have in common is at a boundary of the one if it is of the other. -/
theorem boundary_of_take_eq {s t : Str} {n : Nat} (hs : IsText s) (ht : IsText t)
    (h : s.take n = t.take n) (hn : isCharBoundary t n = true) :
    isCharBoundary s n = true ∨ s.length < n :=
  boundary_of_isText hs (h ▸ (isText_of_boundary ht hn).1)

end Scour
