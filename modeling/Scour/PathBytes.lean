import Scour.Lib.Split
import Scour.Lib.Utf8
import Scour.Query

/-!
# Every name representable

A Unix path need not be UTF-8.  `fromBytes` keeps what is and spells a byte that is not as a
character of a private block, and `toPath` takes it back: a path whose text has none of that block's
characters comes back byte for byte, and is cut at the same separators (`toPath_fromBytes`).
-/

namespace Scour

open Search

/-- The private-use block invalid bytes are encoded into. -/
def BASE : Nat := 0xF700

/-- A platform path as the rest of Scour sees it: as it is, on Unix. -/
def normalise (p : Text) : Text := p

/-- `char::from_u32`. -/
def charFromU32 (n : Nat) : Option Char :=
  if h : n.isValidChar then some (Char.ofNatAux n h) else none

def isEscaped (c : Char) : Bool := BASE ≤ c.toNat && c.toNat < BASE + 256

/-- The character that stands for an invalid byte. -/
def escapedByte (b : UInt8) : Char := (charFromU32 (BASE + b.toNat)).getD '\uFFFD'

/-- The loop of `escape`: decode as much as is valid, and encodeText the bytes that are not. -/
def escapeFrom : Nat → Text → Str → Text
  | 0, out, _ => out
  | fuel + 1, out, rest =>
    match decode rest with
    | .ok s => out ++ s
    | .error good errorLen =>
      let valid := match decode (rest.take good) with
        | .ok s => s
        | .error _ _ => []
      let bad := errorLen.getD (rest.length - good)
      escapeFrom fuel (out ++ valid ++ ((rest.drop good).take bad).map escapedByte)
        (rest.drop (good + bad))

def escape (raw : Str) : Text := escapeFrom (raw.length + 1) [] raw

def fromBytes (raw : Str) : Text :=
  match decode raw with
  | .ok s => normalise s
  | .error _ _ => normalise (escape raw)

def unescape (s : Text) : Str :=
  s.flatMap fun c => if isEscaped c then [UInt8.ofNat (c.toNat - BASE)] else String.utf8EncodeChar c

/-- Back to something the operating system will accept. -/
def toPath (p : Text) : Str := if !p.any isEscaped then utf8 p else unescape p

example : fromBytes [0x2F, 0x61, 0xFE] = ['/', 'a', '\uF7FE'] := by decide
example : toPath ['/', 'a', '\uF7FE'] = [0x2F, 0x61, 0xFE] := by decide

/-! ## Piece by piece -/

/-- How a piece is spelled. -/
def spell : Char ⊕ UInt8 → Char := Sum.elim id escapedByte

@[simp] theorem spell_inl (c : Char) : spell (.inl c) = c := rfl

@[simp] theorem spell_inr (b : UInt8) : spell (.inr b) = escapedByte b := rfl

theorem escapeFrom_eq (fuel : Nat) : ∀ (out : Text) (rest : Str), rest.length < fuel →
    escapeFrom fuel out rest = out ++ (pieces rest).map spell := by
  induction fuel with
  | zero => exact fun out rest h => absurd h (Nat.not_lt_zero _)
  | succ fuel ih =>
    intro out rest h
    unfold escapeFrom
    obtain ⟨cs, t, rfl, ⟨rfl, hd⟩ | ⟨ht, len, hbad, hd⟩⟩ := decode_spec rest
    · have hp := pieces_encode cs []
      rw [hd, hp]
      simp [spell, Function.comp_def]
    · obtain ⟨hpos, hle, -⟩ := front_bad ht hbad
      have htake : (encodeText cs ++ t).take (encodeText cs).length = encodeText cs := List.take_left' rfl
      have hdrop : (encodeText cs ++ t).drop (encodeText cs).length = t := List.drop_left' rfl
      have hlen : (encodeText cs ++ t).length - (encodeText cs).length = t.length := by simp
      have hrest : (encodeText cs ++ t).drop ((encodeText cs).length + len.getD t.length) =
          t.drop (len.getD t.length) := by
        rw [← List.drop_drop, hdrop]
      rw [hd]
      simp only [htake, hdrop, hlen, hrest, decode_encode]
      rw [ih]
      · rw [pieces_encode, pieces_bad ht hbad]
        simp [spell, Function.comp_def]
      · rw [List.length_append] at h
        rw [List.length_drop]
        omega

theorem fromBytes_eq (raw : Str) : fromBytes raw = (pieces raw).map spell := by
  unfold fromBytes normalise
  cases hd : decode raw with
  | ok cs =>
    have hp := pieces_encode cs []
    rw [encode_of_decode hd]
    rw [List.append_nil] at hp
    rw [hp]
    simp [spell, Function.comp_def]
  | error n len =>
    simp only
    unfold escape
    rw [escapeFrom_eq _ _ _ (Nat.lt_succ_self _), List.nil_append]

theorem escapedByte_toNat (b : UInt8) : (escapedByte b).toNat = BASE + b.toNat := by
  have hb := b.toNat_lt
  have hvalid : (BASE + b.toNat).isValidChar := Or.inr ⟨by unfold BASE; omega, by unfold BASE; omega⟩
  unfold escapedByte charFromU32
  rw [dif_pos hvalid]
  rfl

theorem isEscaped_escapedByte (b : UInt8) : isEscaped (escapedByte b) = true := by
  have hb := b.toNat_lt
  unfold isEscaped
  rw [escapedByte_toNat, Bool.and_eq_true, decide_eq_true_eq, decide_eq_true_eq]
  omega

/-- The characters of a path's valid UTF-8 are none of the private block's. -/
def Plain (raw : Str) : Prop := ∀ c, .inl c ∈ pieces raw → isEscaped c = false

theorem unescape_map_spell {ps : List (Char ⊕ UInt8)}
    (h : ∀ c, .inl c ∈ ps → isEscaped c = false) : unescape (ps.map spell) = bytesOf ps := by
  unfold unescape bytesOf
  rw [List.flatMap_map]
  refine List.flatMap_congr fun p hp => ?_
  cases p with
  | inl c =>
    rw [spell_inl, h c hp]
    rfl
  | inr b =>
    rw [spell_inr, if_pos (isEscaped_escapedByte b), escapedByte_toNat, Nat.add_sub_cancel_left,
      UInt8.ofNat_toNat]
    rfl

theorem unescape_of_not_any {p : Text} (h : p.any isEscaped = false) : unescape p = utf8 p := by
  unfold unescape utf8
  refine List.flatMap_congr fun c hc => ?_
  rw [if_neg]
  rw [List.any_eq_false] at h
  exact h c hc

theorem toPath_eq (p : Text) : toPath p = unescape p := by
  unfold toPath
  split
  · rename_i h
    rw [unescape_of_not_any (by simpa using h)]
  · rfl

theorem fromBytes_slash (a b : Str) :
    fromBytes (a ++ slash :: b) = fromBytes a ++ '/' :: fromBytes b := by
  rw [fromBytes_eq, pieces_append_cons a b (by decide), fromBytes_eq, fromBytes_eq, List.map_append,
    List.map_cons]
  rfl

theorem slash_notMem_fromBytes {a : Str} (h : slash ∉ a) : '/' ∉ fromBytes a := by
  rw [fromBytes_eq]
  intro hm
  obtain ⟨p, hp, hs⟩ := List.mem_map.mp hm
  cases p with
  | inl c =>
    obtain rfl : c = '/' := hs
    apply h
    rw [← bytesOf_pieces a]
    exact List.mem_flatMap.mpr ⟨.inl '/', hp, by decide⟩
  | inr b =>
    have := escapedByte_toNat b
    change escapedByte b = '/' at hs
    rw [hs] at this
    have h47 : '/'.toNat = 47 := rfl
    unfold BASE at this
    omega

/-- The separators stay where they are, and each component is spelled by itself. -/
theorem split_fromBytes (raw : Str) :
    split '/' (fromBytes raw) = (split slash raw).map fromBytes := by
  suffices h : ∀ n (raw : Str), raw.length ≤ n →
      split '/' (fromBytes raw) = (split slash raw).map fromBytes from h raw.length raw (le_refl _)
  intro n
  induction n with
  | zero =>
    intro raw hn
    rw [List.length_eq_zero_iff.mp (Nat.le_zero.mp hn)]
    rfl
  | succ n ih =>
    intro raw hn
    by_cases hs : slash ∈ raw
    · obtain ⟨a, b, rfl, ha⟩ := List.eq_append_cons_of_mem hs
      have hb : b.length ≤ n := by
        rw [List.length_append, List.length_cons] at hn
        omega
      rw [fromBytes_slash, split_append_cons, split_append_cons, ih b hb, List.map_append,
        split_of_notMem (slash_notMem_fromBytes ha), split_of_notMem ha]
      rfl
    · rw [split_of_notMem (slash_notMem_fromBytes hs), split_of_notMem hs]
      rfl

theorem toPath_fromBytes_of_plain {raw : Str} (h : Plain raw) : toPath (fromBytes raw) = raw := by
  rw [toPath_eq, fromBytes_eq, unescape_map_spell h, bytesOf_pieces]

/-- **Any file name survives**: it comes back byte for byte, no two are spelled alike, the separators
stay where they are, and what is valid UTF-8 is itself. -/
theorem toPath_fromBytes (raw : Str) (h : Plain raw) :
    toPath (fromBytes raw) = raw ∧
      (∀ other, Plain other → fromBytes raw = fromBytes other → raw = other) ∧
      split '/' (fromBytes raw) = (split slash raw).map fromBytes ∧
      ∀ cs, raw = utf8 cs → fromBytes raw = cs := by
  refine ⟨toPath_fromBytes_of_plain h, fun other hother he => ?_, split_fromBytes raw,
    fun cs hcs => ?_⟩
  · rw [← toPath_fromBytes_of_plain h, he, toPath_fromBytes_of_plain hother]
  · unfold fromBytes
    have hd : decode raw = .ok cs := by
      rw [hcs]
      exact decode_encode cs
    rw [hd]
    rfl

/-- A name cut off within a character, between two others. -/
theorem toPath_fromBytes_cut :
    toPath (fromBytes [0x2F, 0xE2, 0x82, 0x2F, 0xC3, 0xA7]) = [0x2F, 0xE2, 0x82, 0x2F, 0xC3, 0xA7] := by
  refine (toPath_fromBytes _ ?_).1
  have hp : pieces [0x2F, 0xE2, 0x82, 0x2F, 0xC3, 0xA7] =
      [.inl '/', .inr 0xE2, .inr 0x82, .inl '/', .inl 'ç'] := by decide
  unfold Plain
  rw [hp]
  intro c hc
  simp only [List.mem_cons, Sum.inl.injEq, reduceCtorEq, List.not_mem_nil, or_false, false_or] at hc
  rcases hc with rfl | rfl | rfl
  · decide
  · decide
  · decide

end Scour
