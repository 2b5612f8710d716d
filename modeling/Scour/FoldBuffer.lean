import Mathlib.Data.Nat.Bitwise
import Mathlib.Data.UInt
import Scour.CharBoundary
import Scour.Lib.Utf8

/-!
# The fold as it runs in its buffer

`FoldBuffer` is the stack buffer that one scan reuses for every name, and `FoldBuffer.foldBytes`
folds into it: an ASCII text in one pass; otherwise run by run, from a cursor in the bytes, with the
lowercase of a two-byte character out of a table of 16-bit entries and that of any other character
out of the mappings.

Whatever the buffer held before, it ends up holding what `Folded.foldBytes` says
(`foldBytes_refines`), and no slice or copy is out of range.  `folders_alike` is what this comes to:
the buffered fold and the default folder give the same bytes.
-/

namespace Scour

open Search (front front_encode)

/-- `Folded`: the buffer, and how much of it is in use. -/
structure FoldBuffer where
  buf : Str
  len : ℕ
  size : buf.length = FOLD_CAP
  within : len ≤ FOLD_CAP

namespace FoldBuffer

theorem length_zeroes : (List.replicate FOLD_CAP (0 : UInt8)).length = FOLD_CAP :=
  List.length_replicate

/-- `Folded::default` -/
def new : FoldBuffer := ⟨List.replicate FOLD_CAP 0, 0, length_zeroes, Nat.zero_le _⟩

/-- What is in use. -/
def text (f : FoldBuffer) : Str := f.buf.take f.len

theorem length_over {buf s : Str} {n : ℕ} (hbuf : buf.length = FOLD_CAP) (h : n + s.length ≤ FOLD_CAP) :
    (buf.take n ++ s ++ buf.drop (n + s.length)).length = FOLD_CAP := by
  rw [List.length_append, List.length_append, List.length_take, List.length_drop]
  omega

/-- Copies bytes behind those in use; a copy out of range panics. -/
def write (f : FoldBuffer) (s : Str) : Option FoldBuffer :=
  if h : f.len + s.length ≤ FOLD_CAP then
    some ⟨f.buf.take f.len ++ s ++ f.buf.drop (f.len + s.length), f.len + s.length,
      length_over f.size h, h⟩
  else none

/-! ## The table -/

/-- The entry of the character `0x80 + i`; 0 where there is none. -/
def entryOf (T : CaseTable) (i : ℕ) : UInt16 :=
  match T.lower (Char.ofNat (0x80 + i)) with
  | [first] =>
      let first := if first = 'ı' then 'i' else first
      if first = '\u0307' then 0
      else if 0x80 ≤ first.toNat ∧ first.toNat < 0x800 then UInt16.ofNat first.toNat
      -- the high bit records a width change
      else if first.toNat < 0x80 then 0x8000 ||| UInt16.ofNat first.toNat
      else 0
  | _ => 0

def twoByteTable (T : CaseTable) : List UInt16 := (List.range 1920).map (entryOf T)

/-! ## The loop -/

/-- `char::from_u32(..).unwrap_or(c)` -/
def fromU32Or (c : Char) (n : ℕ) : Char := if n.isValidChar then Char.ofNat n else c

/-- A character out of the table; the flag says that it fitted. -/
def pushEntry (f : FoldBuffer) (c : Char) (entry : UInt16) : Option (FoldBuffer × Bool) :=
  if entry &&& 0x8000 = 0 then
    let s := String.utf8EncodeChar (fromU32Or c entry.toNat)
    if FOLD_CAP < f.len + s.length then some (f, false) else (f.write s).map (·, true)
  else if FOLD_CAP ≤ f.len then some (f, false)
  else (f.write [(entry &&& 0x7fff).toUInt8]).map (·, true)

/-- The characters of a lowercase, one by one. -/
def pushLower (f : FoldBuffer) : List Char → Option (FoldBuffer × Bool)
  | [] => some (f, true)
  | lc :: rest =>
      let lc := if lc = 'ı' then 'i' else lc
      if lc = '\u0307' then pushLower f rest
      else
        let s := String.utf8EncodeChar lc
        -- absurdly long: what fitted
        if FOLD_CAP < f.len + s.length then some (f, false)
        else (f.write s).bind fun f => pushLower f rest

/-- One character past ASCII. -/
def pushChar (T : CaseTable) (f : FoldBuffer) (c : Char) : Option (FoldBuffer × Bool) :=
  let entry := if 0x80 ≤ c.toNat ∧ c.toNat < 0x800 then (twoByteTable T).getD (c.toNat - 0x80) 0 else 0
  if entry ≠ 0 then f.pushEntry c entry else f.pushLower (T.lower c)

/-- The loop, from the byte `at_` on.  A slice that begins inside a character panics. -/
def foldLoop (T : CaseTable) (raw : Str) : ℕ → ℕ → FoldBuffer → Option FoldBuffer
  | 0, _, f => some f
  | fuel + 1, at_, f =>
    if raw.length ≤ at_ then some f
    else
      let run := (raw.drop at_).takeWhile (· < 0x80)
      if run ≠ [] ∧ FOLD_CAP < f.len + run.length then some f
      else
        (f.write (run.map asciiLower)).bind fun f =>
          let at_ := at_ + run.length
          if isCharBoundary raw at_ = false then none
          else match front (raw.drop at_) with
            | .bad _ => some f
            | .char c _ =>
                (f.pushChar T c).bind fun (f, fits) =>
                  if fits then foldLoop T raw fuel (at_ + c.utf8Size) f else some f

/-- `Folded::fold_bytes`; what it returns is the `text` of the buffer. -/
def foldBytes (T : CaseTable) (f : FoldBuffer) (bytes : Str) : Option FoldBuffer :=
  let empty : FoldBuffer := { f with len := 0, within := Nat.zero_le _ }
  if bytes.length ≤ FOLD_CAP ∧ bytes.all (· < 128) = true then empty.write (bytes.map asciiLower)
  else
    match fromUtf8 bytes with
    -- not text: matched as the bytes it is
    | none => empty.write ((bytes.take (min bytes.length FOLD_CAP)).map asciiLower)
    | some _ => foldLoop T bytes bytes.length 0 empty

example : ((foldBytes .asciiOnly new (str "Not.TXT")).map text) = some (str "not.txt") := by
  decide +kernel

/-! ## What a copy leaves -/

theorem length_text (f : FoldBuffer) : f.text.length = f.len := by
  rw [text, List.length_take, f.size]
  exact Nat.min_eq_left f.within

theorem write_eq (f : FoldBuffer) (s : Str) (h : f.len + s.length ≤ FOLD_CAP) :
    ∃ g, f.write s = some g ∧ g.text = f.text ++ s := by
  refine ⟨_, dif_pos h, ?_⟩
  have hlen : (f.buf.take f.len ++ s).length = f.len + s.length := by
    have := f.length_text
    rw [text] at this
    rw [List.length_append, this]
  exact List.take_left' hlen

/-- A character is copied where it fits. -/
theorem write_char (f : FoldBuffer) (c : Char) :
    ∃ g b, (if FOLD_CAP < f.len + (String.utf8EncodeChar c).length then some (f, false)
        else (f.write (String.utf8EncodeChar c)).map (·, true)) = some (g, b) ∧
      Folded.pushAll f.text [c] = (g.text, b) := by
  unfold Folded.pushAll
  rw [f.length_text]
  by_cases h : FOLD_CAP < f.len + (String.utf8EncodeChar c).length
  · refine ⟨f, false, if_pos h, ?_⟩
    simp only
    rw [if_pos h]
  · obtain ⟨g, hg, htext⟩ := f.write_eq (String.utf8EncodeChar c) (by omega)
    refine ⟨g, true, ?_, ?_⟩
    · rw [if_neg h, hg]
      rfl
    · simp only
      rw [if_neg h, htext]
      rfl

/-! ## One character -/

/-- An entry: none, or the lowercase in it, and whether that is one byte. -/
theorem entryOf_cases (T : CaseTable) {c : Char} (h : 0x80 ≤ c.toNat) :
    (Folded.twoByteTable T c = none ∧ entryOf T (c.toNat - 0x80) = 0) ∨
      ∃ first, Folded.twoByteTable T c = some first ∧
        ((0x80 ≤ first.toNat ∧ first.toNat < 0x800 ∧
            entryOf T (c.toNat - 0x80) = UInt16.ofNat first.toNat) ∨
          (first.toNat < 0x80 ∧
            entryOf T (c.toNat - 0x80) = 0x8000 ||| UInt16.ofNat first.toNat)) := by
  have hc : Char.ofNat (0x80 + (c.toNat - 0x80)) = c := by
    rw [Nat.add_sub_cancel' h, Char.ofNat_toNat]
  unfold entryOf Folded.twoByteTable
  rw [hc]
  cases T.lower c with
  | nil => exact Or.inl ⟨rfl, rfl⟩
  | cons lc rest =>
    cases rest with
    | cons _ _ => exact Or.inl ⟨rfl, rfl⟩
    | nil =>
      simp only
      generalize (if lc = 'ı' then 'i' else lc) = first
      by_cases hdot : first = '\u0307'
      · left
        rw [if_pos hdot, if_pos hdot]
        exact ⟨rfl, rfl⟩
      rw [if_neg hdot, if_neg hdot]
      by_cases hbig : first.toNat < 0x800
      · right
        refine ⟨first, if_pos hbig, ?_⟩
        by_cases h80 : 0x80 ≤ first.toNat
        · exact Or.inl ⟨h80, hbig, if_pos ⟨h80, hbig⟩⟩
        · refine Or.inr ⟨by omega, ?_⟩
          rw [if_neg (by omega), if_pos (by omega)]
      · left
        rw [if_neg hbig, if_neg (by omega), if_neg (by omega)]
        exact ⟨rfl, rfl⟩

theorem wide_entry {n : ℕ} (h : 0x80 ≤ n) (h' : n < 0x800) :
    UInt16.ofNat n ≠ 0 ∧ UInt16.ofNat n &&& 0x8000 = 0 ∧ (UInt16.ofNat n).toNat = n := by
  have hn : (UInt16.ofNat n).toNat = n := by
    rw [UInt16.toNat_ofNat']
    omega
  refine ⟨fun h0 => ?_, ?_, hn⟩
  · rw [h0] at hn
    have : (0 : UInt16).toNat = 0 := rfl
    omega
  · rw [← UInt16.toNat_inj, UInt16.toNat_and, hn]
    have htest : n.testBit 15 = false := Nat.testBit_lt_two_pow (by omega)
    have hand := Nat.and_two_pow n 15
    rw [htest] at hand
    exact hand

theorem narrow_entry {n : ℕ} (h : n < 0x80) :
    0x8000 ||| UInt16.ofNat n ≠ 0 ∧ (0x8000 ||| UInt16.ofNat n) &&& 0x8000 ≠ 0 ∧
      ((0x8000 ||| UInt16.ofNat n) &&& 0x7fff).toUInt8 = UInt8.ofNat n := by
  have hn : (UInt16.ofNat n).toNat = n := by
    rw [UInt16.toNat_ofNat']
    omega
  have hor : (0x8000 ||| UInt16.ofNat n).toNat = 32768 + n := by
    rw [UInt16.toNat_or, hn]
    exact (Nat.two_pow_add_eq_or_of_lt (i := 15) (by omega) 1).symm
  have hzero : (0 : UInt16).toNat = 0 := rfl
  refine ⟨fun h0 => ?_, fun h0 => ?_, ?_⟩
  · rw [h0] at hor
    omega
  · have htest : (32768 + n).testBit 15 = true := by
      rw [Nat.testBit_eq_decide_div_mod_eq, decide_eq_true_eq]
      omega
    have hand := Nat.and_two_pow (32768 + n) 15
    rw [htest] at hand
    have := congrArg UInt16.toNat h0
    rw [UInt16.toNat_and, hor, hzero] at this
    have h15 : (0x8000 : UInt16).toNat = 2 ^ 15 := rfl
    rw [h15, hand] at this
    simp at this
  · rw [← UInt8.toNat_inj, UInt16.toNat_toUInt8, UInt16.toNat_and, hor, UInt8.toNat_ofNat']
    have h15 : (0x7fff : UInt16).toNat = 2 ^ 15 - 1 := rfl
    rw [h15, Nat.and_two_pow_sub_one_eq_mod]
    omega

theorem pushLower_eq (cs : List Char) : ∀ f : FoldBuffer,
    ∃ g b, f.pushLower cs = some (g, b) ∧
      Folded.pushAll f.text (cs.flatMap fun lc =>
        let lc := if lc = 'ı' then 'i' else lc
        if lc = '\u0307' then [] else [lc]) = (g.text, b) := by
  induction cs with
  | nil =>
    intro f
    exact ⟨f, true, rfl, rfl⟩
  | cons lc cs ih =>
    intro f
    simp only [List.flatMap_cons, pushLower]
    generalize (if lc = 'ı' then 'i' else lc) = c
    by_cases hdot : c = '\u0307'
    · rw [if_pos hdot, if_pos hdot]
      exact ih f
    rw [if_neg hdot, if_neg hdot, List.singleton_append]
    unfold Folded.pushAll
    rw [f.length_text]
    by_cases hlong : FOLD_CAP < f.len + (String.utf8EncodeChar c).length
    · refine ⟨f, false, if_pos hlong, ?_⟩
      simp only
      rw [if_pos hlong]
    · obtain ⟨g, hg, htext⟩ := f.write_eq (String.utf8EncodeChar c) (by omega)
      simp only
      rw [if_neg hlong, if_neg hlong, hg, ← htext]
      exact ih g

theorem fromU32Or_toNat (c first : Char) : fromU32Or c first.toNat = first := by
  have hvalid : first.toNat.isValidChar := first.valid
  rw [fromU32Or, if_pos hvalid, Char.ofNat_toNat]

/-- An entry leaves the character it stands for. -/
theorem pushEntry_eq (f : FoldBuffer) (c first : Char) {entry : UInt16}
    (h : (0x80 ≤ first.toNat ∧ first.toNat < 0x800 ∧ entry = UInt16.ofNat first.toNat) ∨
      (first.toNat < 0x80 ∧ entry = 0x8000 ||| UInt16.ofNat first.toNat)) :
    entry ≠ 0 ∧ ∃ g b, f.pushEntry c entry = some (g, b) ∧
      Folded.pushAll f.text [first] = (g.text, b) := by
  unfold pushEntry
  rcases h with ⟨h80, h800, rfl⟩ | ⟨h80, rfl⟩
  · obtain ⟨hne, hbit, hnat⟩ := wide_entry h80 h800
    refine ⟨hne, ?_⟩
    rw [if_pos hbit, hnat, fromU32Or_toNat]
    exact f.write_char first
  · obtain ⟨hne, hbit, hbyte⟩ := narrow_entry h80
    refine ⟨hne, ?_⟩
    have hone : String.utf8EncodeChar first = [UInt8.ofNat first.toNat] :=
      utf8EncodeChar_ascii first h80
    have hwrite := f.write_char first
    rw [hone, List.length_singleton] at hwrite
    have hroom : FOLD_CAP ≤ f.len ↔ FOLD_CAP < f.len + 1 := Nat.lt_succ_iff.symm
    simp only [hroom]
    rw [if_neg hbit, hbyte]
    exact hwrite

/-- A character leaves in the buffer what its fold says. -/
theorem pushChar_eq (T : CaseTable) (f : FoldBuffer) {c : Char} (h : 0x80 ≤ c.toNat) :
    ∃ g b, f.pushChar T c = some (g, b) ∧
      Folded.pushAll f.text (Folded.lowered T c) = (g.text, b) := by
  unfold pushChar Folded.lowered
  by_cases h800 : c.toNat < 0x800
  · have hget : (if 0x80 ≤ c.toNat ∧ c.toNat < 0x800 then (twoByteTable T).getD (c.toNat - 0x80) 0
        else 0) = entryOf T (c.toNat - 0x80) := by
      unfold twoByteTable
      rw [if_pos ⟨h, h800⟩, List.getD_eq_getElem?_getD, List.getElem?_map,
        List.getElem?_range (by omega)]
      rfl
    simp only [hget]
    rw [if_pos h800]
    rcases entryOf_cases T h with ⟨hnone, hentry⟩ | ⟨first, hsome, hentry⟩
    · rw [hnone, hentry, if_neg (not_not_intro rfl)]
      exact f.pushLower_eq _
    · obtain ⟨hne, hpush⟩ := f.pushEntry_eq c first hentry
      rw [hsome, if_pos hne]
      exact hpush
  · have hget : (if 0x80 ≤ c.toNat ∧ c.toNat < 0x800 then (twoByteTable T).getD (c.toNat - 0x80) 0
        else 0) = 0 := if_neg fun hc => h800 hc.2
    simp only [hget]
    rw [if_neg h800, if_neg (not_not_intro rfl)]
    exact f.pushLower_eq _

/-! ## The loop -/

/-- The bytes of the ASCII characters a text begins with. -/
theorem takeWhile_utf8 (cs : List Char) :
    (utf8 cs).takeWhile (· < 0x80) = utf8 (cs.takeWhile isAscii) := by
  induction cs with
  | nil => rfl
  | cons c cs ih =>
    by_cases hc : c.toNat < 128
    · have hascii : isAscii c = true := decide_eq_true hc
      have hbyte : (UInt8.ofNat c.toNat < 0x80) = true := by
        simp only [eq_iff_iff, iff_true, UInt8.lt_iff_toNat_lt, UInt8.toNat_ofNat']
        show c.toNat % 2 ^ 8 < 128
        omega
      rw [List.takeWhile_cons_of_pos hascii, utf8_cons, utf8_cons, utf8EncodeChar_ascii c hc,
        List.singleton_append, List.takeWhile_cons_of_pos (by simpa using hbyte), ih]
      rfl
    · have hascii : ¬ isAscii c = true := fun h => hc (of_decide_eq_true h)
      rw [List.takeWhile_cons_of_neg hascii, utf8_cons, utf8_nil]
      obtain ⟨b, rest, hb, -⟩ := utf8EncodeChar_bytes c
      have hle := le_of_mem_utf8EncodeChar c (by omega) b (by rw [hb]; exact List.mem_cons_self)
      rw [hb, List.cons_append, List.takeWhile_cons_of_neg]
      rw [decide_eq_true_eq, UInt8.lt_iff_toNat_lt]
      exact not_lt.mpr hle

/-- The loop, at the byte where `cs` begins, folds `cs` as if it were alone. -/
theorem foldLoop_eq (T : CaseTable) (fuel : ℕ) : ∀ (fuel' : ℕ) (pre cs : List Char) (f : FoldBuffer),
    cs.length ≤ fuel → cs.length ≤ fuel' →
    (foldLoop T (utf8 pre ++ utf8 cs) fuel (utf8 pre).length f).map text =
      some (Folded.foldLoop T fuel' cs f.text) := by
  induction fuel with
  | zero =>
    intro fuel' pre cs f hfuel _
    obtain rfl := List.length_eq_zero_iff.mp (Nat.le_zero.mp hfuel)
    cases fuel' with
    | zero => rfl
    | succ _ => simp [foldLoop, Folded.foldLoop]
  | succ fuel ih =>
    intro fuel' pre cs f hfuel hfuel'
    cases cs with
    | nil =>
      cases fuel' with
      | zero => simp [foldLoop, Folded.foldLoop]
      | succ _ => simp [foldLoop, Folded.foldLoop]
    | cons c cs =>
      obtain ⟨fuel', rfl⟩ : ∃ k, fuel' = k + 1 := ⟨fuel' - 1, by rw [List.length_cons] at hfuel'; omega⟩
      generalize hall : c :: cs = all at hfuel hfuel'
      have hne : ¬ (utf8 pre ++ utf8 all).length ≤ (utf8 pre).length := by
        have := List.length_pos_iff.mpr (String.utf8EncodeChar_ne_nil (c := c))
        rw [← hall, List.length_append, utf8_cons, List.length_append]
        omega
      have hrun : ∀ x ∈ all.takeWhile isAscii, isAscii x = true := fun x hx =>
        List.mem_takeWhile_imp hx
      have hlen := (Folded.asciiLower_utf8 T _ hrun).2
      have hsplit := List.takeWhile_append_dropWhile (p := isAscii) (l := all)
      simp only [foldLoop, Folded.foldLoop]
      rw [if_neg hne, List.drop_left' rfl, takeWhile_utf8, f.length_text, hlen]
      generalize all.takeWhile isAscii = run at hrun hlen hsplit ⊢
      have hnil : utf8 run ≠ [] ↔ run ≠ [] := by
        rw [← List.length_pos_iff, ← List.length_pos_iff, hlen]
      simp only [hnil]
      by_cases hlong : run ≠ [] ∧ FOLD_CAP < f.len + run.length
      · rw [if_pos hlong, if_pos hlong]
        rfl
      rw [if_neg hlong, if_neg hlong]
      have hroom : f.len + ((utf8 run).map asciiLower).length ≤ FOLD_CAP := by
        rw [List.length_map, hlen]
        by_cases h0 : run = []
        · rw [h0, List.length_nil]
          exact f.within
        · exact not_lt.mp fun h => hlong ⟨h0, h⟩
      obtain ⟨g, hg, htext⟩ := f.write_eq _ hroom
      -- what has been read moves over to `pre`
      have hraw : utf8 pre ++ utf8 all =
          utf8 (pre ++ run) ++ utf8 (all.dropWhile isAscii) := by
        rw [← utf8_append, ← utf8_append, List.append_assoc, hsplit]
      have hat : (utf8 pre).length + run.length = (utf8 (pre ++ run)).length := by
        rw [utf8_append, List.length_append, hlen]
      have hcut : isCharBoundary (utf8 (pre ++ run) ++ utf8 (all.dropWhile isAscii))
          (utf8 (pre ++ run)).length = true := by
        rw [← utf8_append]
        exact isCharBoundary_utf8 _ _
      rw [hg, Option.bind_some, hat, hraw, hcut, if_neg (by decide), List.drop_left' rfl, ← htext]
      cases hrest : all.dropWhile isAscii with
      | nil =>
        rw [utf8_nil]
        rfl
      | cons d rest =>
        have hd : 0x80 ≤ d.toNat := by
          have := List.head_dropWhile_not isAscii (l := all)
            (by rw [hrest]; exact List.cons_ne_nil d rest)
          simp only [hrest, List.head_cons, isAscii, decide_eq_false_iff_not] at this
          omega
        obtain ⟨g', b, hpush, hall'⟩ := pushChar_eq T g hd
        have hd' : utf8 (d :: rest) = String.utf8EncodeChar d ++ utf8 rest := rfl
        rw [hd', front_encode]
        simp only
        rw [hpush, hall', Option.bind_some]
        cases b with
        | false => rfl
        | true =>
          have hlenrest : rest.length + 1 ≤ all.length := by
            have := congrArg List.length hsplit
            rw [List.length_append, hrest, List.length_cons] at this
            omega
          have hcur : (utf8 (pre ++ run)).length + d.utf8Size = (utf8 (pre ++ run ++ [d])).length := by
            rw [utf8_append (pre ++ run), List.length_append, utf8_cons, utf8_nil, List.append_nil,
              String.length_utf8EncodeChar]
          have hraw' : utf8 (pre ++ run) ++ (String.utf8EncodeChar d ++ utf8 rest) =
              utf8 (pre ++ run ++ [d]) ++ utf8 rest := by
            rw [utf8_append (pre ++ run), utf8_cons, utf8_nil, List.append_nil, List.append_assoc]
          rw [if_pos rfl, hcur, hraw']
          exact ih fuel' _ rest g' (by omega) (by omega)

/-! ## Both folds -/

/-- Whatever the buffer held, it ends up with what `Folded.foldBytes` keeps of these bytes. -/
theorem foldBytes_refines (T : CaseTable) (f : FoldBuffer) (bytes : Str) :
    (f.foldBytes T bytes).map text = some (Folded.foldBytes T bytes) := by
  have hcopy : ∀ s : Str, s.length ≤ FOLD_CAP →
      (({ f with len := 0, within := Nat.zero_le _ } : FoldBuffer).write s).map text = some s := by
    intro s hs
    obtain ⟨g, hg, htext⟩ := write_eq { f with len := 0, within := Nat.zero_le _ } s (by simpa using hs)
    rw [hg, Option.map_some, htext]
    rfl
  unfold foldBytes Folded.foldBytes
  simp only
  split
  · rename_i h
    exact hcopy _ (by rw [List.length_map]; exact h.1)
  · cases hdecoded : fromUtf8 bytes with
    | none =>
      rw [Nat.min_comm, ← List.take_eq_take_min]
      exact hcopy _ (by rw [List.length_map, List.length_take]; exact Nat.min_le_left _ _)
    | some cs =>
      obtain rfl := utf8_of_fromUtf8 hdecoded
      exact foldLoop_eq T _ cs.length [] cs _ (length_le_utf8 cs) (le_refl _)

/-- The buffered fold gives the bytes the default folder gives, where they fit the buffer. -/
theorem folders_alike (T : CaseTable) (f : FoldBuffer) (name : List Char)
    (h : (utf8 (DefaultFolder.fold T name)).length ≤ 1024) :
    (f.foldBytes T (utf8 name)).map text = some (utf8 (DefaultFolder.fold T name)) := by
  rw [foldBytes_refines, Folded.foldBytes_eq T name h]

/-- ASCII, two Turkish letters, a letter whose lowercase is longer than it is and one whose
lowercase is ASCII. -/
def sampleLower (c : Char) : List Char :=
  if c = 'İ' then ['i', '\u0307']
  else if c = 'Ş' then ['ş']
  else if c = 'Ⱥ' then ['ⱥ']
  else if c = '\u212A' then ['k']
  else [c.toLower]

theorem sampleLower_ascii (c : Char) (h : c.toNat < 128) : sampleLower c = [c.toLower] := by
  have hne : ∀ d : Char, 128 ≤ d.toNat → c ≠ d := by
    rintro d hd rfl
    omega
  unfold sampleLower
  rw [if_neg (hne _ (by decide)), if_neg (hne _ (by decide)), if_neg (hne _ (by decide)),
    if_neg (hne _ (by decide))]

theorem sampleLower_separator (c : Char) (h : '/' ∈ sampleLower c) : c = '/' := by
  unfold sampleLower at h
  split_ifs at h
  · exact absurd h (by decide)
  · exact absurd h (by decide)
  · exact absurd h (by decide)
  · exact absurd h (by decide)
  · exact toLower_eq_slash c (List.mem_singleton.mp h).symm

def sampleTable : CaseTable := ⟨sampleLower, sampleLower_ascii, sampleLower_separator⟩

theorem folders_alike_mixed :
    (new.foldBytes sampleTable (utf8 ['A', 'İ', 'Ş', 'z', 'ı', 'Ⱥ', '\u212A', '.'])).map text =
      some (utf8 ['a', 'i', 'ş', 'z', 'i', 'ⱥ', 'k', '.']) :=
  folders_alike sampleTable new ['A', 'İ', 'Ş', 'z', 'ı', 'Ⱥ', '\u212A', '.'] (by decide)

end FoldBuffer

end Scour
