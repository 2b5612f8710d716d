import Mathlib.Data.List.Infix
import Mathlib.Data.List.TakeWhile

/-!
# UTF-8, where it is and where it is not

`front` is one step of the decoder: the character a list of bytes begins with, or how many of its
bytes no character has.  `decode` goes on with it to the first error, as a decoder that reports
where and how long the error is, and `pieces` to the end: the characters, and the bytes that are
none.

What `pieces` finds is all there is (`bytesOf_pieces`), a text is its characters (`pieces_encode`),
and a cut at an ASCII byte is a cut of the pieces (`pieces_append_cons`).
-/

namespace Search

/-- The bytes of a text. -/
def encodeText (cs : List Char) : List UInt8 := cs.flatMap String.utf8EncodeChar

/-- A byte that goes on with a character. -/
def goesOn (b : UInt8) : Bool := 0x80 ≤ b && b ≤ 0xBF

/-- Which bytes may come second: no overlong form, no surrogate, nothing past the last character. -/
def secondOk (a b : UInt8) : Bool :=
  if a = 0xE0 then 0xA0 ≤ b && b ≤ 0xBF
  else if a = 0xED then 0x80 ≤ b && b ≤ 0x9F
  else if a = 0xF0 then 0x90 ≤ b && b ≤ 0xBF
  else if a = 0xF4 then 0x80 ≤ b && b ≤ 0x8F
  else goesOn b

/-- What bytes begin with: a character, or bytes that are none, as many as are given, or all that
there are where the end cuts a character off. -/
inductive Front where
  | char (c : Char) (rest : List UInt8)
  | bad (len : Option Nat)
deriving DecidableEq

/-- How many bytes follow this one in its character, if one begins with it. -/
def follow (a : UInt8) : Option Nat :=
  if a < 0x80 then some 0
  else if a < 0xC2 then none
  else if a < 0xE0 then some 1
  else if a < 0xF0 then some 2
  else if a < 0xF5 then some 3
  else none

/-- What the first byte says of the character's number, where `w` bytes follow. -/
def leadBits (a : UInt8) : Nat → Nat
  | 0 => a.toNat
  | 1 => a.toNat - 0xC0
  | 2 => a.toNat - 0xE0
  | _ => a.toNat - 0xF0

def assemble (a : UInt8) (got : List UInt8) : Char :=
  Char.ofNat (got.foldl (fun v b => v * 64 + (b.toNat - 0x80)) (leadBits a got.length))

def front : List UInt8 → Front
  | [] => .bad none
  | a :: s =>
    match follow a with
    | none => .bad (some 1)
    | some w =>
      let got := (s.takeWhile goesOn).take w
      if w ≠ 0 ∧ s.head?.any fun b => !secondOk a b then .bad (some 1)
      else if got.length = w then .char (assemble a got) (s.drop w)
      else if s.length ≤ got.length then .bad none
      else .bad (some (1 + got.length))

example : front [0xC3, 0xA7, 0x2F] = .char 'ç' [0x2F] := by decide
example : front [0xE2, 0x82] = .bad none := by decide
example : front [0xE2, 0x82, 0x2F] = .bad (some 2) := by decide

/-! ## One step -/

theorem goesOn_iff {b : UInt8} : goesOn b = true ↔ 128 ≤ b.toNat ∧ b.toNat ≤ 191 := by
  unfold goesOn
  rw [Bool.and_eq_true, decide_eq_true_eq, decide_eq_true_eq, UInt8.le_iff_toNat_le,
    UInt8.le_iff_toNat_le]
  rfl

theorem secondOk_iff {a b : UInt8} : secondOk a b = true ↔
    128 ≤ b.toNat ∧ b.toNat ≤ 191 ∧ (a.toNat = 224 → 160 ≤ b.toNat) ∧
      (a.toNat = 237 → b.toNat ≤ 159) ∧ (a.toNat = 240 → 144 ≤ b.toNat) ∧
      (a.toNat = 244 → b.toNat ≤ 143) := by
  unfold secondOk goesOn
  simp only [← UInt8.toNat_inj, UInt8.le_iff_toNat_le]
  simp only [UInt8.reduceToNat]
  split_ifs <;> simp <;> omega

theorem toNat_ofNat {n : Nat} (h : n.isValidChar) : (Char.ofNat n).val.toNat = n := by
  unfold Char.ofNat
  rw [dif_pos h]
  rfl

theorem encode_one {n : Nat} (h : n < 128) :
    String.utf8EncodeChar (Char.ofNat n) = [UInt8.ofNat n] := by
  have hn : (Char.ofNat n).val.toNat = n := toNat_ofNat (Or.inl (by omega))
  unfold String.utf8EncodeChar
  simp only [hn]
  rw [if_pos (by omega)]

theorem encode_two {n : Nat} (h : 128 ≤ n) (h' : n < 2048) :
    String.utf8EncodeChar (Char.ofNat n) =
      [UInt8.ofNat (n / 64 + 192), UInt8.ofNat (n % 64 + 128)] := by
  have hn : (Char.ofNat n).val.toNat = n := toNat_ofNat (Or.inl (by omega))
  unfold String.utf8EncodeChar
  simp only [hn]
  rw [if_neg (by omega), if_pos (by omega), Nat.mod_eq_of_lt (by omega)]

theorem encode_three {n : Nat} (h : 2048 ≤ n) (h' : n < 65536) (hs : n < 55296 ∨ 57343 < n) :
    String.utf8EncodeChar (Char.ofNat n) =
      [UInt8.ofNat (n / 4096 + 224), UInt8.ofNat (n / 64 % 64 + 128), UInt8.ofNat (n % 64 + 128)] := by
  have hn : (Char.ofNat n).val.toNat = n :=
    toNat_ofNat (hs.imp (fun h => by omega) fun h => ⟨by omega, by omega⟩)
  unfold String.utf8EncodeChar
  simp only [hn]
  rw [if_neg (by omega), if_neg (by omega), if_pos (by omega), Nat.mod_eq_of_lt (by omega)]

theorem encode_four {n : Nat} (h : 65536 ≤ n) (h' : n < 1114112) :
    String.utf8EncodeChar (Char.ofNat n) =
      [UInt8.ofNat (n / 262144 + 240), UInt8.ofNat (n / 4096 % 64 + 128),
        UInt8.ofNat (n / 64 % 64 + 128), UInt8.ofNat (n % 64 + 128)] := by
  have hn : (Char.ofNat n).val.toNat = n := toNat_ofNat (Or.inr ⟨by omega, by omega⟩)
  unfold String.utf8EncodeChar
  simp only [hn]
  rw [if_neg (by omega), if_neg (by omega), if_neg (by omega), Nat.mod_eq_of_lt (by omega)]

theorem ofNat_eq {b : UInt8} {n : Nat} (h : n = b.toNat) : UInt8.ofNat n = b := by
  rw [h, UInt8.ofNat_toNat]

theorem follow_eq_some {a : UInt8} {w : Nat} (h : follow a = some w) :
    (w = 0 ∧ a.toNat < 128) ∨ (w = 1 ∧ 194 ≤ a.toNat ∧ a.toNat < 224) ∨
      (w = 2 ∧ 224 ≤ a.toNat ∧ a.toNat < 240) ∨ (w = 3 ∧ 240 ≤ a.toNat ∧ a.toNat < 245) := by
  unfold follow at h
  simp only [UInt8.lt_iff_toNat_lt, UInt8.reduceToNat] at h
  split_ifs at h <;> simp at h <;> omega

/-- What a character in front is made of. -/
theorem front_char_cases {a : UInt8} {s rest : List UInt8} {c : Char}
    (h : front (a :: s) = .char c rest) :
    ∃ w got, follow a = some w ∧ got.length = w ∧ s = got ++ rest ∧ c = assemble a got ∧
      (∀ b ∈ got, goesOn b = true) ∧ ∀ b, got.head? = some b → secondOk a b = true := by
  unfold front at h
  simp only at h
  split at h
  · cases h
  rename_i w hw
  split_ifs at h with hsecond hlen
  obtain ⟨rfl, rfl⟩ := Front.char.inj h
  have hgot : (s.takeWhile goesOn).take w = s.take w := by
    have hpre := (List.take_prefix w (s.takeWhile goesOn)).trans (List.takeWhile_prefix goesOn)
    rw [List.prefix_iff_eq_take.mp hpre, hlen]
  refine ⟨w, _, hw, hlen, ?_, rfl, fun b hb => ?_, fun b hb => ?_⟩
  · rw [hgot, List.take_append_drop]
  · exact List.mem_takeWhile_imp (List.mem_of_mem_take hb)
  · cases w with
    | zero => simp at hb
    | succ w =>
      rw [hgot, List.head?_take] at hb
      by_contra hnot
      exact hsecond ⟨Nat.succ_ne_zero w, by simp_all⟩

/-- The character in front stands there with its bytes. -/
theorem front_char {s rest : List UInt8} {c : Char} (h : front s = .char c rest) :
    s = String.utf8EncodeChar c ++ rest := by
  cases s with
  | nil => cases h
  | cons a s =>
    obtain ⟨w, got, hw, hlen, rfl, rfl, hgot, hsecond⟩ := front_char_cases h
    rw [← List.cons_append]
    congr 1
    rcases follow_eq_some hw with ⟨rfl, ha⟩ | ⟨rfl, ha⟩ | ⟨rfl, ha⟩ | ⟨rfl, ha⟩
    · obtain rfl := List.length_eq_zero_iff.mp hlen
      have he : assemble a [] = Char.ofNat a.toNat := rfl
      rw [he, encode_one ha, UInt8.ofNat_toNat]
    · obtain ⟨b, rfl⟩ := List.length_eq_one_iff.mp hlen
      have hb := goesOn_iff.mp (hgot b (by simp))
      have he : assemble a [b] = Char.ofNat ((a.toNat - 192) * 64 + (b.toNat - 128)) := rfl
      rw [he, encode_two (by omega) (by omega), ofNat_eq (b := a) (by omega),
        ofNat_eq (b := b) (by omega)]
    · obtain ⟨b, c, rfl⟩ := List.length_eq_two.mp hlen
      have hb := secondOk_iff.mp (hsecond b rfl)
      have hc := goesOn_iff.mp (hgot c (by simp))
      have he : assemble a [b, c] = Char.ofNat
          (((a.toNat - 224) * 64 + (b.toNat - 128)) * 64 + (c.toNat - 128)) := rfl
      rw [he, encode_three (by omega) (by omega) (by omega), ofNat_eq (b := a) (by omega),
        ofNat_eq (b := b) (by omega), ofNat_eq (b := c) (by omega)]
    · obtain ⟨b, c, d, rfl⟩ := List.length_eq_three.mp hlen
      have hb := secondOk_iff.mp (hsecond b rfl)
      have hc := goesOn_iff.mp (hgot c (by simp))
      have hd := goesOn_iff.mp (hgot d (by simp))
      have he : assemble a [b, c, d] = Char.ofNat
          ((((a.toNat - 240) * 64 + (b.toNat - 128)) * 64 + (c.toNat - 128)) * 64 +
            (d.toNat - 128)) := rfl
      rw [he, encode_four (by omega) (by omega), ofNat_eq (b := a) (by omega),
        ofNat_eq (b := b) (by omega), ofNat_eq (b := c) (by omega), ofNat_eq (b := d) (by omega)]

theorem head_append_any {got rest : List UInt8} {p : UInt8 → Bool} (hne : got ≠ [])
    (h : ∀ b, got.head? = some b → p b = false) : (got ++ rest).head?.any p = false := by
  cases got with
  | nil => exact absurd rfl hne
  | cons b got => exact h b rfl

/-- What makes a character in front. -/
theorem front_of {a : UInt8} {w : Nat} (got rest : List UInt8) (hw : follow a = some w)
    (hlen : got.length = w) (hgot : ∀ b ∈ got, goesOn b = true)
    (hsecond : ∀ b, got.head? = some b → secondOk a b = true) :
    front (a :: (got ++ rest)) = .char (assemble a got) rest := by
  have htake : ((got ++ rest).takeWhile goesOn).take w = got := by
    rw [List.takeWhile_append_of_pos hgot, List.take_left' hlen]
  simp only [front, hw, htake]
  rw [if_neg, if_pos hlen, List.drop_left' hlen]
  rintro ⟨hne, hany⟩
  have hgne : got ≠ [] := by
    rintro rfl
    exact hne hlen.symm
  rw [head_append_any hgne fun b hb => by rw [hsecond b hb]; rfl] at hany
  cases hany

theorem ofNat_toNat_lt {n : Nat} (h : n < 256) : (UInt8.ofNat n).toNat = n := by
  rw [UInt8.toNat_ofNat', Nat.mod_eq_of_lt h]

theorem follow_of {a : UInt8} {w : Nat} (h : (w = 0 ∧ a.toNat < 128) ∨
    (w = 1 ∧ 194 ≤ a.toNat ∧ a.toNat < 224) ∨ (w = 2 ∧ 224 ≤ a.toNat ∧ a.toNat < 240) ∨
      (w = 3 ∧ 240 ≤ a.toNat ∧ a.toNat < 245)) : follow a = some w := by
  unfold follow
  simp only [UInt8.lt_iff_toNat_lt, UInt8.reduceToNat]
  rcases h with ⟨rfl, h⟩ | ⟨rfl, h⟩ | ⟨rfl, h⟩ | ⟨rfl, h⟩
  · rw [if_pos h]
  · rw [if_neg (by omega), if_neg (by omega), if_pos (by omega)]
  · rw [if_neg (by omega), if_neg (by omega), if_neg (by omega), if_pos (by omega)]
  · rw [if_neg (by omega), if_neg (by omega), if_neg (by omega), if_neg (by omega),
      if_pos (by omega)]

/-- A character in front is found. -/
theorem front_encode (c : Char) (rest : List UInt8) :
    front (String.utf8EncodeChar c ++ rest) = .char c rest := by
  have hc : Char.ofNat c.toNat = c := Char.ofNat_toNat c
  have hvalid : c.toNat < 55296 ∨ 57343 < c.toNat ∧ c.toNat < 1114112 := c.valid
  rw [← hc]
  generalize c.toNat = n at hvalid
  have hbyte : ∀ k, k < 256 → (UInt8.ofNat k).toNat = k := fun k hk => ofNat_toNat_lt hk
  rcases Nat.lt_or_ge n 128 with h1 | h1
  · rw [encode_one h1, List.singleton_append]
    have ha := hbyte n (by omega)
    generalize UInt8.ofNat n = a at ha
    have hfront := front_of (a := a) [] rest
      (follow_of (Or.inl ⟨rfl, by omega⟩)) rfl nofun nofun
    have he : assemble a [] = Char.ofNat a.toNat := rfl
    rwa [he, ha] at hfront
  rcases Nat.lt_or_ge n 2048 with h2 | h2
  · rw [encode_two h1 h2, List.cons_append]
    have ha := hbyte (n / 64 + 192) (by omega)
    have hb := hbyte (n % 64 + 128) (by omega)
    generalize UInt8.ofNat (n / 64 + 192) = a at ha
    generalize UInt8.ofNat (n % 64 + 128) = b at hb
    have hgo : goesOn b = true := goesOn_iff.mpr (by omega)
    have hsecond : secondOk a b = true := secondOk_iff.mpr (by omega)
    have hfront := front_of (a := a) [b] rest
      (follow_of (Or.inr (Or.inl ⟨rfl, by omega⟩))) rfl (by simpa using hgo) (by simpa using hsecond)
    have he : assemble a [b] = Char.ofNat ((a.toNat - 192) * 64 + (b.toNat - 128)) := rfl
    have hn : (a.toNat - 192) * 64 + (b.toNat - 128) = n := by omega
    rewrite [he, hn] at hfront
    exact hfront
  rcases Nat.lt_or_ge n 65536 with h3 | h3
  · rw [encode_three h2 h3 (by omega), List.cons_append]
    have ha := hbyte (n / 4096 + 224) (by omega)
    have hb := hbyte (n / 64 % 64 + 128) (by omega)
    have hc := hbyte (n % 64 + 128) (by omega)
    generalize UInt8.ofNat (n / 4096 + 224) = a at ha
    generalize UInt8.ofNat (n / 64 % 64 + 128) = b at hb
    generalize UInt8.ofNat (n % 64 + 128) = c at hc
    have hgo : ∀ x ∈ [b, c], goesOn x = true := by
      simp only [List.mem_cons, List.not_mem_nil, or_false, forall_eq_or_imp, forall_eq, goesOn_iff]
      omega
    have hsecond : secondOk a b = true := secondOk_iff.mpr (by omega)
    have hfront := front_of (a := a) [b, c] rest
      (follow_of (Or.inr (Or.inr (Or.inl ⟨rfl, by omega⟩)))) rfl hgo (by simpa using hsecond)
    have he : assemble a [b, c] = Char.ofNat
        (((a.toNat - 224) * 64 + (b.toNat - 128)) * 64 + (c.toNat - 128)) := rfl
    have hn : ((a.toNat - 224) * 64 + (b.toNat - 128)) * 64 + (c.toNat - 128) = n := by omega
    rewrite [he, hn] at hfront
    exact hfront
  · rw [encode_four h3 (by omega), List.cons_append]
    have ha := hbyte (n / 262144 + 240) (by omega)
    have hb := hbyte (n / 4096 % 64 + 128) (by omega)
    have hc := hbyte (n / 64 % 64 + 128) (by omega)
    have hd := hbyte (n % 64 + 128) (by omega)
    generalize UInt8.ofNat (n / 262144 + 240) = a at ha
    generalize UInt8.ofNat (n / 4096 % 64 + 128) = b at hb
    generalize UInt8.ofNat (n / 64 % 64 + 128) = c at hc
    generalize UInt8.ofNat (n % 64 + 128) = d at hd
    have hgo : ∀ x ∈ [b, c, d], goesOn x = true := by
      simp only [List.mem_cons, List.not_mem_nil, or_false, forall_eq_or_imp, forall_eq, goesOn_iff]
      omega
    have hsecond : secondOk a b = true := secondOk_iff.mpr (by omega)
    have hfront := front_of (a := a) [b, c, d] rest
      (follow_of (Or.inr (Or.inr (Or.inr ⟨rfl, by omega⟩)))) rfl hgo (by simpa using hsecond)
    have he : assemble a [b, c, d] = Char.ofNat
        ((((a.toNat - 240) * 64 + (b.toNat - 128)) * 64 + (c.toNat - 128)) * 64 +
          (d.toNat - 128)) := rfl
    have hn : (((a.toNat - 240) * 64 + (b.toNat - 128)) * 64 + (c.toNat - 128)) * 64 +
        (d.toNat - 128) = n := by omega
    rewrite [he, hn] at hfront
    exact hfront

/-- Bytes that are no character: how many there are, all past ASCII. -/
theorem front_bad {s : List UInt8} {len : Option Nat} (hs : s ≠ []) (h : front s = .bad len) :
    0 < len.getD s.length ∧ len.getD s.length ≤ s.length ∧
      ∀ b ∈ s.take (len.getD s.length), 128 ≤ b.toNat := by
  cases s with
  | nil => exact absurd rfl hs
  | cons a s =>
    have hlead : follow a ≠ some 0 → 128 ≤ a.toNat := by
      intro hne
      by_contra hlt
      exact hne (follow_of (Or.inl ⟨rfl, by omega⟩))
    cases hw : follow a with
    | none =>
      simp only [front, hw, Front.bad.injEq] at h
      subst h
      have ha := hlead (by simp [hw])
      simpa using ha
    | some w =>
      simp only [front, hw] at h
      have hone : w ≠ 0 → 128 ≤ a.toNat := fun hne => hlead (by rw [hw]; simpa using hne)
      have hgot : ∀ b ∈ (s.takeWhile goesOn).take w, 128 ≤ b.toNat := fun b hb =>
        (goesOn_iff.mp (List.mem_takeWhile_imp (List.mem_of_mem_take hb))).1
      have hpre : (s.takeWhile goesOn).take w <+: s :=
        (List.take_prefix w (s.takeWhile goesOn)).trans (List.takeWhile_prefix goesOn)
      have hshort : ((s.takeWhile goesOn).take w).length ≤ w := List.length_take_le _ _
      generalize (s.takeWhile goesOn).take w = got at h hgot hpre hshort
      split_ifs at h with hsecond hlen hend
      · obtain rfl := Front.bad.inj h
        simpa using hone hsecond.1
      · obtain rfl := Front.bad.inj h
        have ha := hone (by omega)
        have heq : got = s := hpre.eq_of_length_le hend
        subst heq
        simpa using ⟨ha, hgot⟩
      · obtain rfl := Front.bad.inj h
        have ha := hone (by omega)
        have htake : s.take got.length = got := (List.prefix_iff_eq_take.mp hpre).symm
        rw [Option.getD_some, Nat.add_comm, List.take_succ_cons, htake]
        refine ⟨Nat.succ_pos _, ?_, ?_⟩
        · have := hpre.length_le
          rw [List.length_cons]
          omega
        · simpa using ⟨ha, hgot⟩

/-- Before a byte of ASCII, bytes begin with what they begin with alone: what the end cut off is now
cut off there. -/
theorem front_append {s : List UInt8} (hs : s ≠ []) {x : UInt8} (hx : x.toNat < 128)
    (t : List UInt8) :
    front (s ++ x :: t) = match front s with
      | .char c rest => .char c (rest ++ x :: t)
      | .bad len => .bad (some (len.getD s.length)) := by
  cases hf : front s with
  | char c rest =>
    simp only
    rw [front_char hf, List.append_assoc]
    exact front_encode c _
  | bad len =>
    simp only
    cases s with
    | nil => exact absurd rfl hs
    | cons a s =>
      rw [List.cons_append]
      cases hw : follow a with
      | none =>
        simp only [front, hw, Front.bad.injEq] at hf ⊢
        rw [← hf]
        rfl
      | some w =>
        have hgo : goesOn x = false := by
          rw [Bool.eq_false_iff]
          exact fun h => absurd (goesOn_iff.mp h).1 (by omega)
        have hno : secondOk a x = false := by
          rw [Bool.eq_false_iff]
          exact fun h => absurd (secondOk_iff.mp h).1 (by omega)
        have htake : (s ++ x :: t).takeWhile goesOn = s.takeWhile goesOn := by
          rw [List.takeWhile_append]
          split
          · rename_i hall
            rw [List.takeWhile_cons_of_neg (by simp [hgo]), List.append_nil]
            exact ((List.takeWhile_prefix goesOn).eq_of_length hall).symm
          · rfl
        have hpre : (s.takeWhile goesOn).take w <+: s :=
          (List.take_prefix w (s.takeWhile goesOn)).trans (List.takeWhile_prefix goesOn)
        simp only [front, hw, htake] at hf ⊢
        generalize (s.takeWhile goesOn).take w = got at hf hpre ⊢
        have hle := hpre.length_le
        split_ifs at hf with hsecond hlen hend
        · obtain rfl := Front.bad.inj hf
          have hany : (s ++ x :: t).head?.any (fun b => !secondOk a b) = true := by
            cases s with
            | nil => simp at hsecond
            | cons b s => exact hsecond.2
          rw [if_pos ⟨hsecond.1, hany⟩]
          rfl
        · obtain rfl := Front.bad.inj hf
          cases s with
          | nil =>
            have hw0 : w ≠ 0 := by
              rintro rfl
              exact hlen (Nat.le_zero.mp hle)
            rw [if_pos ⟨hw0, by simp [hno]⟩]
            rfl
          | cons b s =>
            have hany : (b :: s ++ x :: t).head?.any (fun b => !secondOk a b) =
                (b :: s).head?.any fun b => !secondOk a b := rfl
            rw [List.length_cons] at hle hend
            rw [hany, if_neg hsecond, if_neg hlen, if_neg (by simp; omega)]
            simp only [Option.getD_none, List.length_cons]
            rw [Front.bad.injEq, Option.some.injEq]
            omega
        · obtain rfl := Front.bad.inj hf
          have hany : (s ++ x :: t).head?.any (fun b => !secondOk a b) =
              s.head?.any fun b => !secondOk a b := by
            cases s with
            | nil => simp at hend
            | cons b s => rfl
          rw [hany, if_neg hsecond, if_neg hlen, if_neg (by simp; omega)]
          rfl

/-! ## To the end -/

/-- The characters of bytes, and the bytes that are none. -/
def piecesFrom : Nat → List UInt8 → List (Char ⊕ UInt8)
  | 0, _ => []
  | _ + 1, [] => []
  | fuel + 1, a :: s =>
    match front (a :: s) with
    | .char c rest => .inl c :: piecesFrom fuel rest
    | .bad len =>
      let k := len.getD (s.length + 1)
      ((a :: s).take k).map .inr ++ piecesFrom fuel ((a :: s).drop k)

def pieces (s : List UInt8) : List (Char ⊕ UInt8) := piecesFrom s.length s

theorem encode_ne_nil (c : Char) : String.utf8EncodeChar c ≠ [] := by
  intro h
  have := front_encode c []
  rw [h] at this
  cases this

theorem length_lt_of_char {s rest : List UInt8} {c : Char} (h : front s = .char c rest) :
    rest.length < s.length := by
  have hs := front_char h
  have := List.length_pos_iff.mpr (encode_ne_nil c)
  rw [hs, List.length_append]
  omega

theorem piecesFrom_eq {fuel : Nat} : ∀ {s : List UInt8}, s.length ≤ fuel →
    piecesFrom fuel s = pieces s := by
  suffices h : ∀ n (fuel : Nat) (s : List UInt8), s.length ≤ n → s.length ≤ fuel →
      piecesFrom fuel s = piecesFrom s.length s from
    fun {s} hs => h s.length fuel s (le_refl _) hs
  intro n
  induction n with
  | zero =>
    intro fuel s hn hs
    obtain rfl := List.length_eq_zero_iff.mp (Nat.le_zero.mp hn)
    cases fuel <;> rfl
  | succ n ih =>
    intro fuel s hn hs
    cases s with
    | nil => cases fuel <;> rfl
    | cons a s =>
      rw [List.length_cons] at hn hs
      obtain ⟨fuel, rfl⟩ : ∃ k, fuel = k + 1 := ⟨fuel - 1, by omega⟩
      rw [List.length_cons]
      unfold piecesFrom
      cases hf : front (a :: s) with
      | char c rest =>
        have hlt := length_lt_of_char hf
        rw [List.length_cons] at hlt
        simp only
        rw [ih fuel rest (by omega) (by omega), ih s.length rest (by omega) (by omega)]
      | bad len =>
        have hpos := (front_bad (List.cons_ne_nil a s) hf).1
        rw [List.length_cons] at hpos
        have hlen : ((a :: s).drop (len.getD (s.length + 1))).length ≤ s.length := by
          rw [List.length_drop, List.length_cons]
          omega
        simp only
        rw [ih fuel _ (by omega) (by omega), ih s.length _ (by omega) hlen]

@[simp] theorem pieces_nil : pieces [] = [] := rfl

theorem pieces_char {s rest : List UInt8} {c : Char} (h : front s = .char c rest) :
    pieces s = .inl c :: pieces rest := by
  cases s with
  | nil => cases h
  | cons a s =>
    have hlt := length_lt_of_char h
    conv_lhs => rw [pieces, List.length_cons, piecesFrom, h]
    rw [List.length_cons] at hlt
    simp only
    rw [piecesFrom_eq (by omega)]

theorem pieces_bad {s : List UInt8} {len : Option Nat} (hs : s ≠ []) (h : front s = .bad len) :
    pieces s = (s.take (len.getD s.length)).map .inr ++ pieces (s.drop (len.getD s.length)) := by
  have hpos := (front_bad hs h).1
  cases s with
  | nil => exact absurd rfl hs
  | cons a s =>
    conv_lhs => rw [pieces, List.length_cons, piecesFrom, h]
    rw [List.length_cons] at hpos ⊢
    simp only
    rw [piecesFrom_eq]
    rw [List.length_drop, List.length_cons]
    omega

/-- The bytes of pieces. -/
def bytesOf (ps : List (Char ⊕ UInt8)) : List UInt8 :=
  ps.flatMap (Sum.elim String.utf8EncodeChar fun b => [b])

theorem bytesOf_append (ps qs : List (Char ⊕ UInt8)) :
    bytesOf (ps ++ qs) = bytesOf ps ++ bytesOf qs :=
  List.flatMap_append

theorem bytesOf_map_inr (bs : List UInt8) : bytesOf (bs.map .inr) = bs := by
  induction bs with
  | nil => rfl
  | cons b bs ih => exact congrArg (b :: ·) ih

/-- The pieces of bytes, one by one: a character, or bytes past ASCII. -/
theorem pieces_induction {P : List UInt8 → Prop} (nil : P [])
    (char : ∀ c rest, P rest → P (String.utf8EncodeChar c ++ rest))
    (bad : ∀ s len, s ≠ [] → front s = .bad len → P (s.drop (len.getD s.length)) → P s) :
    ∀ s, P s := by
  suffices h : ∀ n (s : List UInt8), s.length ≤ n → P s from fun s => h s.length s (le_refl _)
  intro n
  induction n with
  | zero =>
    intro s hs
    rw [List.length_eq_zero_iff.mp (Nat.le_zero.mp hs)]
    exact nil
  | succ n ih =>
    intro s hs
    rcases eq_or_ne s [] with rfl | hne
    · exact nil
    cases hf : front s with
    | char c rest =>
      have hlt := length_lt_of_char hf
      rw [front_char hf]
      exact char c rest (ih rest (by omega))
    | bad len =>
      have hpos := (front_bad hne hf).1
      refine bad s len hne hf (ih _ ?_)
      rw [List.length_drop]
      omega

theorem pieces_encode_char (c : Char) (rest : List UInt8) :
    pieces (String.utf8EncodeChar c ++ rest) = .inl c :: pieces rest :=
  pieces_char (front_encode c rest)

/-- The pieces are all there is. -/
theorem bytesOf_pieces (s : List UInt8) : bytesOf (pieces s) = s := by
  induction s using pieces_induction with
  | nil => rfl
  | char c rest ih =>
    rw [pieces_encode_char]
    exact congrArg (String.utf8EncodeChar c ++ ·) ih
  | bad s len hs hf ih =>
    rw [pieces_bad hs hf, bytesOf_append, bytesOf_map_inr, ih, List.take_append_drop]

/-- A text is its characters. -/
theorem pieces_encode (cs : List Char) (t : List UInt8) :
    pieces (encodeText cs ++ t) = cs.map .inl ++ pieces t := by
  induction cs with
  | nil => rfl
  | cons c cs ih =>
    have hsplit : encodeText (c :: cs) ++ t = String.utf8EncodeChar c ++ (encodeText cs ++ t) :=
      List.append_assoc _ _ _
    rw [hsplit, pieces_encode_char, ih]
    rfl

/-- A cut at a byte of ASCII is a cut of the pieces. -/
theorem pieces_append_cons (s t : List UInt8) {x : UInt8} (hx : x.toNat < 128) :
    pieces (s ++ x :: t) = pieces s ++ .inl (Char.ofNat x.toNat) :: pieces t := by
  induction s using pieces_induction with
  | nil =>
    have hc : String.utf8EncodeChar (Char.ofNat x.toNat) = [x] := by
      rw [encode_one hx, UInt8.ofNat_toNat]
    have hsplit : [] ++ x :: t = String.utf8EncodeChar (Char.ofNat x.toNat) ++ t := by
      rw [hc]
      rfl
    rw [hsplit, pieces_encode_char]
    rfl
  | char c rest ih =>
    rw [List.append_assoc, pieces_encode_char, ih, pieces_encode_char]
    rfl
  | bad s len hs hf ih =>
    have hle := (front_bad hs hf).2.1
    have hfront := front_append hs hx t
    rw [hf] at hfront
    rw [pieces_bad (by simp) hfront, pieces_bad hs hf, Option.getD_some,
      List.take_append_of_le_length hle, List.drop_append_of_le_length hle, ih, List.append_assoc]

/-- The text of bytes, with one replacement character for each error: a decoder that does not
fail. -/
def lossyFrom : Nat → List UInt8 → List Char
  | 0, _ => []
  | _ + 1, [] => []
  | fuel + 1, a :: s =>
    match front (a :: s) with
    | .char c rest => c :: lossyFrom fuel rest
    | .bad len => '\uFFFD' :: lossyFrom fuel ((a :: s).drop (len.getD (s.length + 1)))

def lossy (s : List UInt8) : List Char := lossyFrom s.length s

example : lossy [0x61, 0xE2, 0x82, 0x2F] = ['a', '\uFFFD', '/'] := by decide

theorem lossyFrom_encode {fuel : Nat} : ∀ {cs : List Char}, (encodeText cs).length ≤ fuel →
    lossyFrom fuel (encodeText cs) = cs := by
  induction fuel with
  | zero =>
    intro cs h
    cases cs with
    | nil => rfl
    | cons c cs =>
      have := List.length_pos_iff.mpr (encode_ne_nil c)
      rw [encodeText, List.flatMap_cons, List.length_append] at h
      omega
  | succ fuel ih =>
    intro cs h
    cases cs with
    | nil => rfl
    | cons c cs =>
      have hsplit : encodeText (c :: cs) = String.utf8EncodeChar c ++ encodeText cs :=
        List.flatMap_cons
      have hpos := List.length_pos_iff.mpr (encode_ne_nil c)
      have hfront := front_encode c (encodeText cs)
      rw [hsplit, List.length_append] at h
      rw [hsplit]
      cases hs : String.utf8EncodeChar c ++ encodeText cs with
      | nil => simp [encode_ne_nil c] at hs
      | cons a s =>
        rw [hs] at hfront
        simp only [lossyFrom, hfront]
        rw [ih (by omega)]

/-- A text is decoded as itself. -/
theorem lossy_encode (cs : List Char) : lossy (encodeText cs) = cs := lossyFrom_encode (le_refl _)

/-! ## To the first error -/

/-- A text, or how many bytes are one and how many after them are not: none are known where the end
cuts a character off. -/
inductive Decoded where
  | ok (cs : List Char)
  | error (validUpTo : Nat) (errorLen : Option Nat)
deriving DecidableEq

def decodeFrom : Nat → List UInt8 → Decoded
  | 0, _ => .ok []
  | _ + 1, [] => .ok []
  | fuel + 1, a :: s =>
    match front (a :: s) with
    | .bad len => .error 0 len
    | .char c rest =>
      match decodeFrom fuel rest with
      | .ok cs => .ok (c :: cs)
      | .error n len => .error ((String.utf8EncodeChar c).length + n) len

def decode (s : List UInt8) : Decoded := decodeFrom s.length s

/-- The decoder goes as far as there are characters. -/
theorem decodeFrom_spec (fuel : Nat) : ∀ s : List UInt8, s.length ≤ fuel →
    ∃ cs t, s = encodeText cs ++ t ∧ ((t = [] ∧ decodeFrom fuel s = .ok cs) ∨
      (t ≠ [] ∧ ∃ len, front t = .bad len ∧ decodeFrom fuel s = .error (encodeText cs).length len)) := by
  induction fuel with
  | zero =>
    intro s hs
    obtain rfl := List.length_eq_zero_iff.mp (Nat.le_zero.mp hs)
    exact ⟨[], [], rfl, Or.inl ⟨rfl, rfl⟩⟩
  | succ fuel ih =>
    intro s hs
    cases s with
    | nil => exact ⟨[], [], rfl, Or.inl ⟨rfl, rfl⟩⟩
    | cons a s =>
      unfold decodeFrom
      cases hf : front (a :: s) with
      | bad len =>
        exact ⟨[], a :: s, rfl, Or.inr ⟨List.cons_ne_nil a s, len, hf, rfl⟩⟩
      | char c rest =>
        have hlt := length_lt_of_char hf
        obtain ⟨cs, t, hsplit, hcase⟩ := ih rest (by omega)
        refine ⟨c :: cs, t, ?_, ?_⟩
        · rw [front_char hf, hsplit]
          exact (List.append_assoc _ _ _).symm
        · rcases hcase with ⟨ht, hd⟩ | ⟨ht, len, hbad, hd⟩
          · exact Or.inl ⟨ht, by simp only [hd]⟩
          · refine Or.inr ⟨ht, len, hbad, ?_⟩
            simp only [hd]
            congr 1
            exact List.length_append.symm

theorem decode_spec (s : List UInt8) :
    ∃ cs t, s = encodeText cs ++ t ∧ ((t = [] ∧ decode s = .ok cs) ∨
      (t ≠ [] ∧ ∃ len, front t = .bad len ∧ decode s = .error (encodeText cs).length len)) :=
  decodeFrom_spec s.length s (le_refl _)

theorem decode_encode (cs : List Char) : decode (encodeText cs) = .ok cs := by
  obtain ⟨ds, t, hsplit, hcase⟩ := decode_spec (encodeText cs)
  have hpieces := congrArg pieces hsplit
  have hcs := pieces_encode cs []
  rw [List.append_nil, pieces_nil, List.append_nil] at hcs
  rw [pieces_encode, hcs] at hpieces
  rcases hcase with ⟨rfl, hd⟩ | ⟨ht, len, hbad, -⟩
  · rw [pieces_nil, List.append_nil] at hpieces
    rw [hd, List.map_injective_iff.mpr (fun _ _ => Sum.inl.inj) hpieces]
  · -- a byte that is no character's is a piece of no text
    exfalso
    rw [pieces_bad ht hbad] at hpieces
    have hpos := (front_bad ht hbad).1
    cases t with
    | nil => exact ht rfl
    | cons b t =>
      obtain ⟨k, hk⟩ : ∃ k, len.getD (b :: t).length = k + 1 := ⟨len.getD (b :: t).length - 1, by omega⟩
      rw [hk, List.take_succ_cons, List.map_cons] at hpieces
      have hmem : Sum.inr b ∈ cs.map (Sum.inl : Char → Char ⊕ UInt8) := by
        rw [hpieces]
        simp
      obtain ⟨c, -, hc⟩ := List.mem_map.mp hmem
      cases hc

theorem encode_of_decode {s : List UInt8} {cs : List Char} (h : decode s = .ok cs) :
    s = encodeText cs := by
  obtain ⟨ds, t, hsplit, ⟨rfl, hd⟩ | ⟨-, len, -, hd⟩⟩ := decode_spec s
  · rw [h] at hd
    rw [Decoded.ok.inj hd, hsplit, List.append_nil]
  · rw [h] at hd
    cases hd

end Search
