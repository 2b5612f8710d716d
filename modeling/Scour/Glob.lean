import Scour.Query

/-!
# What a wildcard pattern means

A name matches a pattern when it can be cut into consecutive pieces, one for each character of the
pattern (`Means`).  `glob_matches` keeps the last `*` only, and where the text that `*` was met at
begins: whatever an earlier `*` could still take, the last one can take as well (`later_star`).
-/

namespace Scour

/-- What one character of a pattern takes. -/
def TakesPiece (c : Char) (piece : Text) : Prop :=
  if c = '*' then True
  else if c = '?' then piece.length = 1
  else piece = [c]

/-- The text can be cut into consecutive pieces, one per pattern character. -/
def Means (pattern text : Text) : Prop :=
  ∃ pieces : List Text, List.Forall₂ TakesPiece pattern pieces ∧ pieces.flatten = text

/-- A character that takes exactly one. -/
def TakesOne (d c : Char) : Prop := d ≠ '*' ∧ (d = '?' ∨ d = c)

theorem takes_of_takesOne {d c : Char} (h : TakesOne d c) : TakesPiece d [c] := by
  unfold TakesPiece
  rw [if_neg h.1]
  split
  · rfl
  · rename_i hq
    rw [h.2.resolve_left hq]

theorem takesOne_of_takes {d : Char} (hd : d ≠ '*') {piece : Text} (h : TakesPiece d piece) :
    ∃ c, piece = [c] ∧ TakesOne d c := by
  unfold TakesPiece at h
  rw [if_neg hd] at h
  split at h
  · rename_i hq
    obtain ⟨c, hc⟩ := List.length_eq_one_iff.mp h
    exact ⟨c, hc, hd, Or.inl hq⟩
  · exact ⟨d, h, hd, Or.inr rfl⟩

theorem means_nil (text : Text) : Means [] text ↔ text = [] := by
  constructor
  · rintro ⟨pieces, h, rfl⟩
    cases h
    rfl
  · rintro rfl
    exact ⟨[], .nil, rfl⟩

theorem means_cons (d : Char) (p text : Text) :
    Means (d :: p) text ↔ ∃ piece rest, text = piece ++ rest ∧ TakesPiece d piece ∧ Means p rest := by
  constructor
  · rintro ⟨pieces, h, rfl⟩
    cases h with
    | cons hd hp => exact ⟨_, _, rfl, hd, _, hp, rfl⟩
  · rintro ⟨piece, rest, rfl, hd, pieces, hp, rfl⟩
    exact ⟨piece :: pieces, .cons hd hp, rfl⟩

/-- A star takes any number of characters. -/
theorem means_star (p text : Text) :
    Means ('*' :: p) text ↔ ∃ k ≤ text.length, Means p (text.drop k) := by
  rw [means_cons]
  constructor
  · rintro ⟨piece, rest, rfl, -, h⟩
    exact ⟨piece.length, by simp, by simpa using h⟩
  · rintro ⟨k, -, h⟩
    exact ⟨text.take k, text.drop k, (List.take_append_drop k text).symm, trivial, h⟩

/-- Any other character takes one. -/
theorem means_one {d : Char} (hd : d ≠ '*') (p : Text) (c : Char) (text : Text) :
    Means (d :: p) (c :: text) ↔ TakesOne d c ∧ Means p text := by
  rw [means_cons]
  constructor
  · rintro ⟨piece, rest, heq, hpiece, h⟩
    obtain ⟨x, rfl, hx⟩ := takesOne_of_takes hd hpiece
    rw [List.singleton_append, List.cons.injEq] at heq
    exact ⟨heq.1 ▸ hx, heq.2 ▸ h⟩
  · rintro ⟨hone, h⟩
    exact ⟨[c], text, rfl, takes_of_takesOne hone, h⟩

theorem not_means_one_nil {d : Char} (hd : d ≠ '*') (p : Text) : ¬ Means (d :: p) [] := by
  rw [means_cons]
  rintro ⟨piece, rest, heq, hpiece, -⟩
  obtain ⟨x, rfl, -⟩ := takesOne_of_takes hd hpiece
  cases heq

/-- Nothing but stars takes nothing. -/
theorem means_empty (p : Text) : Means p [] ↔ (p.dropWhile (· == '*')).isEmpty = true := by
  induction p with
  | nil => simp [means_nil]
  | cons d p ih =>
    by_cases hd : d = '*'
    · subst hd
      rw [means_star, List.dropWhile_cons_of_pos (by simp), ← ih]
      simp
    · rw [List.dropWhile_cons_of_neg (by simpa using hd)]
      simp [not_means_one_nil hd]

/-- What stands in front of the rest of a pattern, without a star, takes a character each. -/
theorem means_drop {u : Text} (hu : '*' ∉ u) (p : Text) :
    ∀ text : Text, Means (u ++ p) text →
      u.length ≤ text.length ∧ Means p (text.drop u.length) := by
  induction u with
  | nil => exact fun text h => ⟨Nat.zero_le _, h⟩
  | cons d u ih =>
    intro text h
    have hd : d ≠ '*' := fun heq => hu (heq ▸ List.mem_cons_self)
    cases text with
    | nil => exact absurd h (not_means_one_nil hd _)
    | cons c text =>
      obtain ⟨-, hrest⟩ := (means_one hd _ c text).mp h
      obtain ⟨hlen, hdrop⟩ := ih (fun hm => hu (List.mem_cons_of_mem _ hm)) text hrest
      exact ⟨by simpa using hlen, by simpa using hdrop⟩

/-! ## The last star -/

/-- Where the loop stands after the last star: past `u` in the pattern and as many characters in the
text. -/
def Since (star : Option (Text × Text)) (p t : Text) : Prop :=
  ∀ p' rest, star = some (p', rest) →
    ∃ u m, p' = u ++ p ∧ rest = m ++ t ∧ u.length = m.length ∧ '*' ∉ u

/-- The last star takes one or more characters more than it did. -/
def Retries (star : Option (Text × Text)) : Prop :=
  ∃ p' rest, star = some (p', rest) ∧ ∃ k, 1 ≤ k ∧ k ≤ rest.length ∧ Means p' (rest.drop k)

/-- What an earlier star can still take, a later one can take. -/
theorem later_star {star : Option (Text × Text)} {q t : Text} (hs : Since star ('*' :: q) t)
    (h : Retries star) : Means ('*' :: q) t := by
  obtain ⟨p', rest, hstar, k, -, hk, hmeans⟩ := h
  obtain ⟨u, m, rfl, rfl, hlen, hu⟩ := hs p' rest hstar
  obtain ⟨-, hdrop⟩ := means_drop hu _ _ hmeans
  rw [List.drop_drop, hlen, Nat.add_comm, ← List.drop_drop, List.drop_left' rfl, means_star,
    List.length_drop] at hdrop
  obtain ⟨j, hj, hq⟩ := hdrop
  rw [List.drop_drop] at hq
  by_cases hlong : k + j ≤ t.length
  · exact (means_star q t).mpr ⟨k + j, hlong, hq⟩
  · rw [List.drop_eq_nil_of_le (by omega)] at hq
    exact (means_star q t).mpr ⟨t.length, le_refl _, by rwa [List.drop_length]⟩

/-- With nothing of the text left, no star can take more. -/
theorem not_retries_nil {star : Option (Text × Text)} {p : Text} (hs : Since star p []) :
    ¬ Retries star := by
  rintro ⟨p', rest, hstar, k, hk, hle, hmeans⟩
  obtain ⟨u, m, rfl, rfl, hlen, hu⟩ := hs p' rest hstar
  obtain ⟨hlong, -⟩ := means_drop hu _ _ hmeans
  rw [List.length_drop, List.append_nil, hlen] at hlong
  rw [List.append_nil] at hle
  omega

theorem retries_self (p t : Text) : Means p t ∨ Retries (some (p, t)) ↔ Means ('*' :: p) t := by
  rw [means_star]
  constructor
  · rintro (h | ⟨p', rest, heq, k, -, hk, h⟩)
    · exact ⟨0, Nat.zero_le _, h⟩
    · cases heq
      exact ⟨k, hk, h⟩
  · rintro ⟨k, hk, h⟩
    rcases Nat.eq_zero_or_pos k with rfl | hpos
    · exact Or.inl h
    · exact Or.inr ⟨p, t, rfl, k, hpos, hk, h⟩

/-- Giving the last star one more character is the first of its retries. -/
theorem retries_cons (p : Text) (c : Char) (t : Text) :
    Retries (some (p, c :: t)) ↔ Means p t ∨ Retries (some (p, t)) := by
  rw [retries_self, means_star]
  constructor
  · rintro ⟨p', rest, heq, k, hpos, hk, h⟩
    cases heq
    obtain ⟨k, rfl⟩ := Nat.exists_eq_add_of_le' hpos
    exact ⟨k, by simpa using hk, by simpa using h⟩
  · rintro ⟨k, hk, h⟩
    exact ⟨p, c :: t, rfl, k + 1, by omega, by simpa using hk, by simpa using h⟩

/-- The loop says whether the rest matches, or the last star can be given more. -/
theorem globLoop_iff (n fuel : Nat) : ∀ (p t : Text) (star : Option (Text × Text)),
    p.length ≤ n → (∀ p' rest, star = some (p', rest) → p'.length ≤ n) → Since star p t →
      globRounds n p t star ≤ fuel →
      (globLoop fuel p t star = true ↔ Means p t ∨ Retries star) := by
  induction fuel with
  | zero =>
    intro p t star _ _ _ h
    cases star <;> simp only [globRounds] at h <;> omega
  | succ fuel ih =>
    intro p t star hp hstar hsince h
    have hlonger : ∀ p' rest, star = some (p', rest) → t.length ≤ rest.length := by
      intro p' rest hs
      obtain ⟨u, m, -, rfl, -⟩ := hsince p' rest hs
      simp
    cases t with
    | nil =>
      unfold globLoop
      rw [← means_empty]
      exact ⟨Or.inl, fun h => h.resolve_right (not_retries_nil hsince)⟩
    | cons c t =>
      unfold globLoop
      -- a star: from here on it is the last
      by_cases h1 : p.head? = some '*'
      · rw [if_pos h1]
        cases p with
        | nil => cases h1
        | cons d p =>
          obtain rfl : d = '*' := Option.some.inj h1
          rw [List.length_cons] at hp
          have hrounds := @globRounds_star n p t star c '*' (show p.length < n + 1 by omega) hlonger
          have hnext := ih p (c :: t) (some (p, c :: t)) (by omega)
            (fun p' rest hs => by cases hs; omega)
            (fun p' rest hs => by cases hs; exact ⟨[], [], rfl, rfl, rfl, by simp⟩) (by omega)
          rw [List.tail_cons, hnext, retries_self]
          exact ⟨Or.inl, fun h => h.elim id (later_star hsince)⟩
      rw [if_neg h1]
      by_cases h2 : p.head? = some '?' ∨ p.head? = some c
      · rw [if_pos h2]
        cases p with
        | nil => rcases h2 with h2 | h2 <;> cases h2
        | cons d p =>
          have hd : d ≠ '*' := fun heq => h1 (by rw [heq]; rfl)
          have hone : TakesOne d c := ⟨hd, h2.imp Option.some.inj Option.some.inj⟩
          rw [List.length_cons] at hp
          have hrounds := @globRounds_one n p t star c d
          have hnext := ih p t star (by omega) hstar ?_ (by omega)
          · rw [List.tail_cons, hnext, means_one hd]
            simp [hone]
          · intro p' rest hs
            obtain ⟨u, m, rfl, rfl, hlen, hu⟩ := hsince p' rest hs
            refine ⟨u ++ [d], m ++ [c], by simp, by simp, by simp [hlen], ?_⟩
            simp [hu, hd.symm]
      rw [if_neg h2]
      -- the character does not match: only the last star can help
      have hno : ¬ Means p (c :: t) := by
        cases p with
        | nil => simp [means_nil]
        | cons d p =>
          have hd : d ≠ '*' := fun heq => h1 (by rw [heq]; rfl)
          rw [means_one hd]
          rintro ⟨⟨-, hone⟩, -⟩
          exact h2 (hone.imp (by rintro rfl; rfl) (by rintro rfl; rfl))
      cases star with
      | none =>
        dsimp only
        simp only [hno, false_or, Bool.false_eq_true, false_iff]
        rintro ⟨p', rest, hs, -⟩
        cases hs
      | some s =>
        obtain ⟨q, rest⟩ := s
        have hq := hstar q rest rfl
        cases rest with
        | nil =>
          have := hlonger q [] rfl
          simp at this
        | cons x rest =>
          have hrounds := @globRounds_retry n p (c :: t) q rest x hq
          have hnext := ih q rest (some (q, rest)) hq
            (fun p' r hs => by cases hs; exact hq)
            (fun p' r hs => by cases hs; exact ⟨[], [], rfl, rfl, rfl, by simp⟩) (by omega)
          dsimp only
          rw [hnext, retries_cons]
          simp [hno]

end Scour
