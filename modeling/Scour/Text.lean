import Scour.Path

/-!
# Text: UTF-8 and case folding

`utf8` and `fromUtf8` go between a text and its bytes.  `DefaultFolder.fold` is the canonical fold
that the parser applies to a term, over a table of lowercase mappings (`CaseTable`).
`Folded.foldBytes` is what the index applies to a name or a directory: the same fold, computed run
by run into a buffer of `FOLD_CAP` bytes.

What it leaves in the buffer is a beginning of the folded text (`foldBytes_prefix`), and all of it
when it fits (`foldBytes_eq`).
-/

namespace Scour

/-- The bytes of a text. -/
def utf8 (cs : List Char) : Str := cs.flatMap String.utf8EncodeChar

/-- `std::str::from_utf8`. -/
def fromUtf8 (b : Str) : Option (List Char) := b.toByteArray.utf8Decode?.map Array.toList

/-- Are these the bytes of a text? -/
def IsText (b : Str) : Prop := ∃ cs, utf8 cs = b

@[simp] theorem utf8_nil : utf8 [] = [] := rfl

@[simp] theorem utf8_cons (c : Char) (cs : List Char) :
    utf8 (c :: cs) = String.utf8EncodeChar c ++ utf8 cs := rfl

@[simp] theorem utf8_append (cs ds : List Char) : utf8 (cs ++ ds) = utf8 cs ++ utf8 ds :=
  List.flatMap_append

theorem fromUtf8_utf8 (cs : List Char) : fromUtf8 (utf8 cs) = some cs := by
  unfold fromUtf8 utf8
  rw [show (cs.flatMap String.utf8EncodeChar).toByteArray = cs.utf8Encode from rfl,
    List.utf8Decode?_utf8Encode]
  simp

theorem utf8_injective {a b : List Char} (h : utf8 a = utf8 b) : a = b := by
  have := congrArg fromUtf8 h
  rwa [fromUtf8_utf8, fromUtf8_utf8, Option.some.injEq] at this

theorem utf8_of_fromUtf8 {b : Str} {cs : List Char} (h : fromUtf8 b = some cs) : utf8 cs = b := by
  unfold fromUtf8 at h
  rw [Option.map_eq_some_iff] at h
  obtain ⟨a, ha, rfl⟩ := h
  have hs : b.toByteArray.utf8Decode?.isSome := by rw [ha]; rfl
  have henc := ByteArray.utf8Encode_get_utf8Decode? (b := b.toByteArray) (h := hs)
  simp only [ha, Option.get_some] at henc
  have hbytes := congrArg (fun x : ByteArray => x.data.toList) henc
  simpa [utf8, List.utf8Encode] using hbytes

theorem length_le_utf8 (cs : List Char) : cs.length ≤ (utf8 cs).length := by
  induction cs with
  | nil => exact Nat.le_refl 0
  | cons c cs ih =>
    have hc : 0 < (String.utf8EncodeChar c).length := by
      rw [String.length_utf8EncodeChar]
      exact Char.utf8Size_pos c
    rw [utf8_cons, List.length_cons, List.length_append]
    omega

theorem utf8EncodeChar_ascii (c : Char) (h : c.toNat < 128) :
    String.utf8EncodeChar c = [UInt8.ofNat c.toNat] := by
  unfold String.utf8EncodeChar
  simp only
  rw [if_pos (by show c.toNat ≤ 127; omega)]
  rfl

theorem le_of_mem_utf8EncodeChar (c : Char) (h : 128 ≤ c.toNat) (b : UInt8)
    (hb : b ∈ String.utf8EncodeChar c) : 128 ≤ b.toNat := by
  have h0 : c.toNat = c.val.toNat := rfl
  unfold String.utf8EncodeChar at hb
  simp only at hb
  rw [if_neg (by omega)] at hb
  split at hb
  · simp at hb
    rcases hb with rfl | rfl <;> simp <;> omega
  · split at hb
    · simp at hb
      rcases hb with rfl | rfl | rfl <;> simp <;> omega
    · simp at hb
      rcases hb with rfl | rfl | rfl | rfl <;> simp <;> omega

/-- An ASCII byte of an encoded character is the whole of it. -/
theorem mem_utf8EncodeChar_iff (c : Char) (b : UInt8) (hb : b.toNat < 128) :
    b ∈ String.utf8EncodeChar c ↔ c.toNat = b.toNat := by
  rcases Nat.lt_or_ge c.toNat 128 with h | h
  · rw [utf8EncodeChar_ascii c h, List.mem_singleton, ← UInt8.toNat_inj]
    have : (UInt8.ofNat c.toNat).toNat = c.toNat := by
      simp
      omega
    rw [this]
    omega
  · constructor
    · intro hm
      have := le_of_mem_utf8EncodeChar c h b hm
      omega
    · intro he
      omega

theorem slash_mem_utf8EncodeChar (c : Char) : slash ∈ String.utf8EncodeChar c ↔ c = '/' := by
  rw [mem_utf8EncodeChar_iff c slash (by decide)]
  constructor
  · intro h
    exact Char.toNat_inj.mp h
  · rintro rfl
    rfl

theorem slash_mem_utf8 (cs : List Char) : slash ∈ utf8 cs ↔ '/' ∈ cs := by
  unfold utf8
  rw [List.mem_flatMap]
  constructor
  · rintro ⟨c, hc, hs⟩
    rwa [← (slash_mem_utf8EncodeChar c).mp hs]
  · intro h
    exact ⟨'/', h, (slash_mem_utf8EncodeChar '/').mpr rfl⟩

/-- A text cut at a separator is two texts. -/
theorem utf8_split (cs : List Char) (l r : Str) (h : utf8 cs = l ++ slash :: r) :
    ∃ c1 c2, cs = c1 ++ '/' :: c2 ∧ utf8 c1 = l ∧ utf8 c2 = r := by
  induction cs generalizing l with
  | nil => simp at h
  | cons c cs ih =>
    rw [utf8_cons] at h
    by_cases hc : c = '/'
    · subst hc
      have he : String.utf8EncodeChar '/' = [slash] := by decide
      rw [he] at h
      cases l with
      | nil =>
        simp only [List.cons_append, List.nil_append, List.cons.injEq, true_and] at h
        exact ⟨[], cs, rfl, rfl, h⟩
      | cons b l =>
        simp only [List.cons_append, List.nil_append, List.cons.injEq] at h
        obtain ⟨rfl, h⟩ := h
        obtain ⟨c1, c2, rfl, rfl, rfl⟩ := ih l h
        exact ⟨'/' :: c1, c2, rfl, by rw [utf8_cons, he]; rfl, rfl⟩
    · -- the separator is past the first character
      have hns : slash ∉ String.utf8EncodeChar c := fun hm => hc ((slash_mem_utf8EncodeChar c).mp hm)
      rw [List.append_eq_append_iff] at h
      rcases h with ⟨a, hl, h⟩ | ⟨a, hc', h⟩
      · obtain ⟨c1, c2, rfl, hc1, rfl⟩ := ih a h
        exact ⟨c :: c1, c2, rfl, by rw [utf8_cons, hc1, hl], rfl⟩
      · cases a with
        | nil =>
          obtain ⟨c1, c2, rfl, hc1, rfl⟩ := ih [] (by simpa using h.symm)
          refine ⟨c :: c1, c2, rfl, ?_, rfl⟩
          rw [utf8_cons, hc1, hc']
          simp
        | cons a0 a =>
          simp only [List.cons_append, List.cons.injEq] at h
          rw [hc', ← h.1] at hns
          exact absurd (by simp) hns

/-! ## The canonical fold -/

/-- Unicode's lowercase mapping (`char::to_lowercase`), with what folding relies on of it. -/
structure CaseTable where
  lower : Char → List Char
  /-- ASCII lowercases within ASCII. -/
  ascii : ∀ c, c.toNat < 128 → lower c = [c.toLower]
  /-- Only a separator lowercases to one. -/
  separator : ∀ c, '/' ∈ lower c → c = '/'

theorem toLower_eq_slash (c : Char) (h : c.toLower = '/') : c = '/' := by
  unfold Char.toLower at h
  split at h
  · rename_i hc
    have hv := congrArg Char.toNat h
    have h1 : (c.val + 32).toNat = c.val.toNat + 32 := by
      rw [UInt32.toNat_add]
      have := UInt32.le_iff_toNat_le.mp hc.2
      simp at this ⊢
      omega
    have h2 := UInt32.le_iff_toNat_le.mp hc.1
    have h3 : (c.val + 32).toNat = 47 := hv
    simp at h1 h2 h3
    omega
  · exact h

/-- The table of a text that is all ASCII. -/
def CaseTable.asciiOnly : CaseTable where
  lower c := [c.toLower]
  ascii _ _ := rfl
  separator c h := toLower_eq_slash c (by simpa [eq_comm] using h)

namespace DefaultFolder

/-- One character: its lowercase, with the dotless `ı` made an `i` and the combining dot dropped. -/
def foldChar (T : CaseTable) (c : Char) : List Char :=
  (T.lower c).flatMap fun lc =>
    if lc = '\u0307' then [] else if lc = 'ı' then ['i'] else [lc]

def fold (T : CaseTable) (cs : List Char) : List Char := cs.flatMap (foldChar T)

variable (T : CaseTable)

@[simp] theorem fold_nil : fold T [] = [] := rfl

@[simp] theorem fold_cons (c : Char) (cs : List Char) :
    fold T (c :: cs) = foldChar T c ++ fold T cs := rfl

@[simp] theorem fold_append (cs ds : List Char) : fold T (cs ++ ds) = fold T cs ++ fold T ds :=
  List.flatMap_append

theorem foldChar_ascii (c : Char) (h : c.toNat < 128) : foldChar T c = [c.toLower] := by
  have hl : c.toLower.toNat < 128 := by
    unfold Char.toLower
    split
    · rename_i hc
      have h1 := UInt32.le_iff_toNat_le.mp hc.2
      show (c.val + 32).toNat < 128
      rw [UInt32.toNat_add]
      simp at h1 ⊢
      omega
    · exact h
  have h1 : c.toLower ≠ '\u0307' := by
    intro he
    rw [he] at hl
    exact absurd hl (by decide)
  have h2 : c.toLower ≠ 'ı' := by
    intro he
    rw [he] at hl
    exact absurd hl (by decide)
  simp [foldChar, T.ascii c h, h1, h2]

theorem foldChar_slash : foldChar T '/' = ['/'] := foldChar_ascii T '/' (by decide)

/-- Folding neither makes a separator nor loses one. -/
theorem slash_mem_foldChar (c : Char) : '/' ∈ foldChar T c ↔ c = '/' := by
  constructor
  · intro h
    unfold foldChar at h
    rw [List.mem_flatMap] at h
    obtain ⟨lc, hlc, h⟩ := h
    split at h
    · cases h
    · split at h
      · exact absurd h (by decide)
      · rw [List.mem_singleton] at h
        exact T.separator c (h ▸ hlc)
  · rintro rfl
    rw [foldChar_slash]
    simp

theorem slash_mem_fold (cs : List Char) : '/' ∈ fold T cs ↔ '/' ∈ cs := by
  unfold fold
  rw [List.mem_flatMap]
  constructor
  · rintro ⟨c, hc, hs⟩
    rwa [← (slash_mem_foldChar T c).mp hs]
  · intro h
    exact ⟨'/', h, (slash_mem_foldChar T '/').mpr rfl⟩

end DefaultFolder

/-! ## The buffered fold -/

/-- The longest name folded into the buffer. -/
def FOLD_CAP : Nat := 1024

/-- `make_ascii_lowercase`, of one byte. -/
def asciiLower (b : UInt8) : UInt8 := if 65 ≤ b ∧ b ≤ 90 then b + 32 else b

def isAscii (c : Char) : Bool := c.toNat < 128

namespace Folded

/-- `two_byte_table`, of one character: its lowercase, where that is one character of at most two
bytes.  The flag of the source's entries, one byte or two, is the character's own encoding. -/
def twoByteTable (T : CaseTable) (c : Char) : Option Char :=
  match T.lower c with
  | [first] =>
      let first := if first = 'ı' then 'i' else first
      if first = '\u0307' then none
      else if first.toNat < 0x800 then some first else none
  | _ => none

/-- The characters one character past ASCII leaves in the buffer. -/
def lowered (T : CaseTable) (c : Char) : List Char :=
  match if c.toNat < 0x800 then twoByteTable T c else none with
  | some first => [first]
  | none =>
      (T.lower c).flatMap fun lc =>
        let lc := if lc = 'ı' then 'i' else lc
        if lc = '\u0307' then [] else [lc]

/-- Appends characters while they fit; the flag says that all did. -/
def pushAll : Str → List Char → Str × Bool
  | buf, [] => (buf, true)
  | buf, lc :: rest =>
      let s := String.utf8EncodeChar lc
      if FOLD_CAP < buf.length + s.length then (buf, false) else pushAll (buf ++ s) rest

/-- The loop: an ASCII run in bulk, then one character.  `fuel` bounds the characters left. -/
def foldLoop (T : CaseTable) : Nat → List Char → Str → Str
  | 0, _, buf => buf
  | fuel + 1, cs, buf =>
      let run := cs.takeWhile isAscii
      -- absurdly long: what fitted, without the run
      if run ≠ [] ∧ FOLD_CAP < buf.length + run.length then buf
      else
        let buf := buf ++ (utf8 run).map asciiLower
        match cs.dropWhile isAscii with
        | [] => buf
        | c :: rest =>
            match pushAll buf (lowered T c) with
            | (buf, true) => foldLoop T fuel rest buf
            | (buf, false) => buf

/-- `Folded::fold_bytes`. -/
def foldBytes (T : CaseTable) (bytes : Str) : Str :=
  if bytes.length ≤ FOLD_CAP ∧ bytes.all (· < 128) = true then bytes.map asciiLower
  else
    match fromUtf8 bytes with
    -- not text: matched as the bytes it is
    | none => (bytes.take FOLD_CAP).map asciiLower
    | some cs => foldLoop T cs.length cs []

variable (T : CaseTable)

/-- An entry of the table is the canonical fold of its character. -/
theorem twoByteTable_eq (c first : Char) (h : twoByteTable T c = some first) :
    DefaultFolder.foldChar T c = [first] := by
  unfold twoByteTable at h
  split at h
  · rename_i lc hl
    simp only at h
    split_ifs at h with hi hdot _ hdot _
    · obtain rfl : 'i' = first := by simpa using h
      rw [hi] at hl
      simp [DefaultFolder.foldChar, hl]
    · obtain rfl : lc = first := by simpa using h
      simp [DefaultFolder.foldChar, hl, hdot, hi]
  · cases h

/-- The table and the general path leave what the canonical fold leaves. -/
theorem lowered_eq (c : Char) : lowered T c = DefaultFolder.foldChar T c := by
  unfold lowered
  split
  · rename_i first h
    split at h
    · exact (twoByteTable_eq T c first h).symm
    · cases h
  · unfold DefaultFolder.foldChar
    apply List.flatMap_congr
    intro lc _
    by_cases hi : lc = 'ı'
    · subst hi
      decide
    · simp [hi]

theorem pushAll_spec (cs : List Char) : ∀ buf : Str,
    (pushAll buf cs).1 <+: buf ++ utf8 cs ∧ buf.length ≤ (pushAll buf cs).1.length ∧
      (buf.length ≤ FOLD_CAP → (pushAll buf cs).1.length ≤ FOLD_CAP) ∧
      ((pushAll buf cs).2 = true → (pushAll buf cs).1 = buf ++ utf8 cs) ∧
      (buf.length + (utf8 cs).length ≤ FOLD_CAP → (pushAll buf cs).2 = true) := by
  induction cs with
  | nil =>
    intro buf
    simp [pushAll]
  | cons c cs ih =>
    intro buf
    simp only [pushAll, utf8_cons, List.length_append]
    split
    · rename_i hlong
      refine ⟨List.prefix_append _ _, le_refl _, fun h => h, fun h => ?_, fun h => ?_⟩
      · cases h
      · simp only [String.length_utf8EncodeChar] at h hlong
        omega
    · obtain ⟨h1, h2, h3, h4, h5⟩ := ih (buf ++ String.utf8EncodeChar c)
      rw [List.length_append] at h2 h3 h5
      refine ⟨by rwa [List.append_assoc] at h1, by omega, fun _ => h3 (by omega), ?_, ?_⟩
      · intro h
        rw [h4 h, List.append_assoc]
      · intro h
        exact h5 (by omega)

/-- On an ASCII character the byte-wise lowercase is the character's own. -/
theorem asciiLower_encode (c : Char) (hc : c.toNat < 128) :
    (String.utf8EncodeChar c).map asciiLower = String.utf8EncodeChar c.toLower := by
  have hv : c.toNat = c.val.toNat := rfl
  have hA : (c.val ≥ 'A'.val ∧ c.val ≤ 'Z'.val) ↔ 65 ≤ c.toNat ∧ c.toNat ≤ 90 := by
    rw [ge_iff_le, UInt32.le_iff_toNat_le, UInt32.le_iff_toNat_le]
    rfl
  have h65 : ((65 : UInt8) ≤ UInt8.ofNat c.toNat ∧ UInt8.ofNat c.toNat ≤ 90) ↔
      65 ≤ c.toNat ∧ c.toNat ≤ 90 := by
    rw [UInt8.le_iff_toNat_le, UInt8.le_iff_toNat_le]
    simp
    omega
  rw [utf8EncodeChar_ascii c hc]
  simp only [List.map_cons, List.map_nil, asciiLower]
  unfold Char.toLower
  by_cases hup : 65 ≤ c.toNat ∧ c.toNat ≤ 90
  · have hnat : (c.val + ('a'.val - 'A'.val)).toNat = c.toNat + 32 := by
      rw [UInt32.toNat_add]
      simp
      omega
    rw [if_pos (h65.mpr hup), dif_pos (hA.mpr hup), utf8EncodeChar_ascii]
    · show _ = [UInt8.ofNat (c.val + ('a'.val - 'A'.val)).toNat]
      rw [hnat]
      simp
    · show (c.val + ('a'.val - 'A'.val)).toNat < 128
      omega
  · rw [if_neg (fun h => hup (h65.mp h)), dif_neg (fun h => hup (hA.mp h)),
      utf8EncodeChar_ascii c hc]

theorem asciiLower_utf8 (cs : List Char) (h : ∀ c ∈ cs, isAscii c = true) :
    (utf8 cs).map asciiLower = utf8 (DefaultFolder.fold T cs) ∧ (utf8 cs).length = cs.length := by
  induction cs with
  | nil => exact ⟨rfl, rfl⟩
  | cons c cs ih =>
    obtain ⟨h1, h2⟩ := ih fun d hd => h d (List.mem_cons_of_mem _ hd)
    have hc : c.toNat < 128 := by simpa [isAscii] using h c List.mem_cons_self
    rw [utf8_cons, DefaultFolder.fold_cons, DefaultFolder.foldChar_ascii T c hc, List.map_append,
      asciiLower_encode c hc, h1]
    refine ⟨rfl, ?_⟩
    rw [List.length_append, h2, utf8EncodeChar_ascii c hc]
    simp
    omega

/-- The loop appends the fold: a beginning of it, and all of it when it fits. -/
theorem foldLoop_spec (fuel : Nat) : ∀ (cs : List Char) (buf : Str), cs.length ≤ fuel →
    buf.length ≤ FOLD_CAP →
    foldLoop T fuel cs buf <+: buf ++ utf8 (DefaultFolder.fold T cs) ∧
      (buf.length + (utf8 (DefaultFolder.fold T cs)).length ≤ FOLD_CAP →
        foldLoop T fuel cs buf = buf ++ utf8 (DefaultFolder.fold T cs)) := by
  induction fuel with
  | zero =>
    intro cs buf hlen _
    have : cs = [] := List.length_eq_zero_iff.mp (by omega)
    simp [foldLoop, this]
  | succ fuel ih =>
    intro cs buf hlen hbuf
    have hrun : ∀ c ∈ cs.takeWhile isAscii, isAscii c = true := fun c hc =>
      List.mem_takeWhile_imp hc
    obtain ⟨hr, hrl⟩ := asciiLower_utf8 T _ hrun
    have hsplit := List.takeWhile_append_dropWhile (p := isAscii) (l := cs)
    have hfold : utf8 (DefaultFolder.fold T cs) =
        utf8 (DefaultFolder.fold T (cs.takeWhile isAscii)) ++
          utf8 (DefaultFolder.fold T (cs.dropWhile isAscii)) := by
      rw [← utf8_append, ← DefaultFolder.fold_append, hsplit]
    have hrlen : (utf8 (DefaultFolder.fold T (cs.takeWhile isAscii))).length =
        (cs.takeWhile isAscii).length := by
      rw [← hr, List.length_map, hrl]
    simp only [foldLoop]
    split
    · rename_i hlong
      refine ⟨List.prefix_append _ _, fun hfit => ?_⟩
      rw [hfold, List.length_append, hrlen] at hfit
      omega
    · rename_i hshort
      rw [hr, hfold, ← List.append_assoc]
      generalize hB : buf ++ utf8 (DefaultFolder.fold T (cs.takeWhile isAscii)) = B
      have hBl : B.length = buf.length + (cs.takeWhile isAscii).length := by
        rw [← hB, List.length_append, hrlen]
      have hBcap : B.length ≤ FOLD_CAP := by
        by_cases hne : cs.takeWhile isAscii = []
        · rw [hne] at hBl
          simp at hBl
          omega
        · have : ¬ FOLD_CAP < buf.length + (cs.takeWhile isAscii).length := fun h =>
            hshort ⟨hne, h⟩
          omega
      split
      · rename_i hnil
        simp [hnil]
      · rename_i c rest hcons
        have hrest : rest.length ≤ fuel := by
          have := congrArg List.length hsplit
          rw [List.length_append, hcons, List.length_cons] at this
          omega
        obtain ⟨h1, h2, h3, h4, h5⟩ := pushAll_spec (lowered T c) B
        rw [lowered_eq] at h1 h2 h3 h4 h5 ⊢
        rw [hcons, DefaultFolder.fold_cons, utf8_append]
        split
        · rename_i buf' hp
          rw [hp] at h3 h4
          obtain rfl : buf' = _ := h4 rfl
          obtain ⟨i1, i2⟩ := ih rest _ hrest (h3 hBcap)
          rw [List.append_assoc] at i1 i2
          refine ⟨i1, fun hfit => i2 ?_⟩
          simp only [List.length_append] at hfit ⊢
          omega
        · rename_i buf' hp
          rw [hp] at h1 h5
          refine ⟨?_, fun hfit => ?_⟩
          · rw [← List.append_assoc]
            exact h1.trans (List.prefix_append _ _)
          · have : false = true := h5 (by simp only [List.length_append] at hfit; omega)
            cases this

/-- A text whose bytes are ASCII is made of ASCII characters. -/
theorem isAscii_of_bytes {cs : List Char} (h : (utf8 cs).all (· < 128) = true) :
    ∀ c ∈ cs, isAscii c = true := by
  intro c hc
  by_contra hna
  have h128 : 128 ≤ c.toNat := by simpa [isAscii] using hna
  have hne : String.utf8EncodeChar c ≠ [] := String.utf8EncodeChar_ne_nil
  obtain ⟨b, hb⟩ := List.exists_mem_of_ne_nil _ hne
  have hm : b ∈ utf8 cs := List.mem_flatMap.mpr ⟨c, hc, hb⟩
  have hlt := List.all_eq_true.mp h b hm
  have hle := le_of_mem_utf8EncodeChar c h128 b hb
  rw [decide_eq_true_eq, UInt8.lt_iff_toNat_lt] at hlt
  simp at hlt
  omega

/-- What is kept of a text is a beginning of its fold, and all of it when it fits. -/
theorem foldBytes_spec (cs : List Char) :
    foldBytes T (utf8 cs) <+: utf8 (DefaultFolder.fold T cs) ∧
      ((utf8 (DefaultFolder.fold T cs)).length ≤ FOLD_CAP →
        foldBytes T (utf8 cs) = utf8 (DefaultFolder.fold T cs)) := by
  unfold foldBytes
  split
  · rename_i h
    rw [(asciiLower_utf8 T cs (isAscii_of_bytes h.2)).1]
    exact ⟨List.prefix_refl _, fun _ => rfl⟩
  · rw [fromUtf8_utf8]
    simpa using foldLoop_spec T cs.length cs [] (le_refl _) (by decide)

theorem prefix_foldBytes (cs : List Char) :
    foldBytes T (utf8 cs) <+: utf8 (DefaultFolder.fold T cs) := (foldBytes_spec T cs).1

theorem foldBytes_eq (cs : List Char) (h : (utf8 (DefaultFolder.fold T cs)).length ≤ FOLD_CAP) :
    foldBytes T (utf8 cs) = utf8 (DefaultFolder.fold T cs) := (foldBytes_spec T cs).2 h

/-- An ASCII text is one run: too long for the buffer, it leaves nothing. -/
theorem foldBytes_long (cs : List Char) (hascii : ∀ c ∈ cs, isAscii c = true)
    (h : FOLD_CAP < cs.length) : foldBytes T (utf8 cs) = [] := by
  have hlen := (asciiLower_utf8 T cs hascii).2
  have hrun : cs.takeWhile isAscii = cs := List.takeWhile_eq_self_iff.mpr hascii
  have hne : cs ≠ [] := by
    rintro rfl
    simp at h
  obtain ⟨n, hn⟩ := Nat.exists_eq_succ_of_ne_zero (fun h0 => hne (List.length_eq_zero_iff.mp h0))
  unfold foldBytes
  rw [if_neg (by omega), fromUtf8_utf8]
  simp only [hn, foldLoop, hrun]
  rw [if_pos ⟨hne, by simp only [List.length_nil]; omega⟩]

/-- A name that holds no separator keeps none. -/
theorem slash_notMem_foldBytes (cs : List Char) (h : '/' ∉ cs) : slash ∉ foldBytes T (utf8 cs) := by
  intro hm
  have := (prefix_foldBytes T cs).subset hm
  rw [slash_mem_utf8, DefaultFolder.slash_mem_fold] at this
  exact h this

end Folded

/-! ## `to_lowercase` -/

/-- What `str::to_lowercase` reads besides the mappings: which characters make up a word. -/
structure Unicode extends CaseTable where
  cased : Char → Bool
  caseIgnorable : Char → Bool

/-- All ASCII: only letters are cased. -/
def Unicode.asciiOnly : Unicode where
  toCaseTable := .asciiOnly
  cased c := c.isAlpha
  caseIgnorable _ := false

namespace Unicode

variable (U : Unicode)

def caseIgnorableThenCased (cs : List Char) : Bool :=
  (cs.dropWhile U.caseIgnorable).head?.any U.cased

/-- `Σ` maps to `σ`, except at the end of a word, where it maps to `ς`. -/
def mapUppercaseSigma (before after : List Char) : Char :=
  if U.caseIgnorableThenCased before && !U.caseIgnorableThenCased after then 'ς' else 'σ'

/-- The loop; what has been passed is reversed. -/
def lowerText (before : List Char) : List Char → List Char
  | [] => []
  | c :: rest =>
      (if c = 'Σ' then [U.mapUppercaseSigma before rest] else U.lower c) ++
        lowerText (c :: before) rest

/-- `str::to_lowercase`. -/
def toLowercase (b : Str) : Str :=
  if b.all (· < 128) = true then b.map asciiLower
  else
    match fromUtf8 b with
    | some cs => utf8 (U.lowerText [] cs)
    | none => b

/-- `chars().flat_map(char::to_lowercase)`: no character looks at its neighbours. -/
def charsLowercase (b : Str) : Str :=
  if b.all (· < 128) = true then b.map asciiLower
  else
    match fromUtf8 b with
    | some cs => utf8 (cs.flatMap U.lower)
    | none => b

end Unicode

end Scour
