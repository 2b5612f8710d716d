import Scour.Dates
import Scour.Lib.Crc
import Scour.Lib.Places
import Scour.Lib.Utf8
import Scour.Saved

/-!
# The text chunks of a thumbnail

`withText` puts texts into a picture, right after its header, and leaves out what was there under
their keywords; `stampOf` reads back the time a thumbnail records.

A picture is its signature and a row of chunks (`pictureOf`), and `chunks` reads that row and nothing
else (`chunks_bytes`).  `withText_eq` says chunk by chunk what becomes of it.  A stale text is told by
`splitText`, which wants its value in UTF-8, where a value is Latin-1: `withText_iff` says that exactly
the pictures without such a stale text come out with their texts replaced.
-/

namespace Scour.Png

open Search

/-! ## The code -/

def SIGNATURE : Str := [0x89, 0x50, 0x4e, 0x47, 0x0d, 0x0a, 0x1a, 0x0a]

def IHDR : Str := str "IHDR"

def TEXT : Str := str "tEXt"

/-- `u32::to_be_bytes`, of a length cut to 32 bits. -/
def toBe (n : Nat) : Str := (toLe 4 n).reverse

def fromBe (b : Str) : Nat := fromLe b.reverse

def POLYNOMIAL : BitVec 32 := 0xedb88320

/-- A row of the table: the eight steps of a byte. -/
def table (n : BitVec 32) : BitVec 32 :=
  (List.range 8).foldl (fun c _ => if c &&& 1 ≠ 0 then POLYNOMIAL ^^^ (c >>> 1) else c >>> 1) n

def crc32 (bytes : Str) : BitVec 32 :=
  ~~~ bytes.foldl (fun c b =>
    table ((c ^^^ BitVec.ofNat 32 b.toNat) &&& 0xff) ^^^ (c >>> 8)) (~~~ 0)

def chunk (kind data : Str) : Str :=
  toBe data.length ++ kind ++ data ++ toBe (crc32 (kind ++ data)).toNat

/-- What the loop of `chunks` pushes, from here on. -/
def chunkRun (rest : Str) : Option (List (Str × Str)) :=
  if rest = [] then some []
  else if rest.length < 12 then none
  else
    let len := fromBe (rest.take 4)
    let stop := 8 + len + 4
    if rest.length < stop then none
    else (chunkRun (rest.drop stop)).map (((rest.drop 4).take 4, (rest.drop 8).take len) :: ·)
termination_by rest.length
decreasing_by
  rw [List.length_drop]
  omega

/-- Every chunk in order, or nothing if the run does not add up. -/
def chunks (rest : Str) : Option (List (Str × Str)) :=
  match chunkRun rest with
  | some [] => none
  | out => out

def splitText (data : Str) : Option (Str × Str) :=
  if data.contains 0 then
    let key := data.takeWhile (· ≠ 0)
    let value := data.drop (key.length + 1)
    if (fromUtf8 key).isSome && (fromUtf8 value).isSome then some (key, value) else none
  else none

/-- A keyword, a NUL, and the text. -/
def textChunk (key value : Str) : Str :=
  chunk TEXT (key.filter (· ≠ 0) ++ 0 :: value.filter (· ≠ 0))

/-- Where the loop of `withText` is. -/
structure Stamping where
  out : Str
  wroteOurs : Bool
  sawHeader : Bool

/-- Is this somebody else's answer to the same question? -/
def stale (replacing : List Str) (kind data : Str) : Bool :=
  kind == TEXT && (splitText data).any fun (key, _) => replacing.contains key

def Stamping.take (pairs : List (Str × Str)) (s : Stamping) : Str × Str → Stamping
  | (kind, data) =>
    if kind = IHDR then
      -- the header stays first and ours go straight after
      { out := s.out ++ chunk kind data ++ pairs.flatMap fun (key, value) => textChunk key value
        wroteOurs := true
        sawHeader := true }
    else if stale (pairs.map Prod.fst) kind data then s
    else { s with out := s.out ++ chunk kind data }

/-- Put text chunks into a picture, replacing any with the same keyword. -/
def withText (png : Str) (pairs : List (Str × Str)) : Option Str :=
  if png.length < 8 ∨ png.take 8 ≠ SIGNATURE then none
  else
    (chunks (png.drop 8)).bind fun cs =>
      let s := cs.foldl (Stamping.take pairs) ⟨SIGNATURE, false, false⟩
      if s.sawHeader && s.wroteOurs then some s.out else none

def MTIME : Str := str "Thumb::MTime"

/-- The value under the keyword, of the chunk that has one. -/
def stamped (c : Str × Str) : Option Str :=
  if c.1 = TEXT then
    match splitText c.2 with
    | some (key, value) => if key = MTIME then some value else none
    | none => none
  else none

/-- `value.trim().parse()` -/
def parseStamp (value : Str) : Option Int64 := (fromUtf8 (trimText value)).bind parseI64

/-- The stamp of the first chunk that has one, in the bytes of a picture. -/
def stampIn (bytes : Str) : Option Int64 :=
  if bytes.length < 8 then none
  else (chunks (bytes.drop 8)).bind fun cs => (cs.findSome? stamped).bind parseStamp

def CEILING : Nat := 4 * 1024 * 1024

/-- The time a picture records, of the file at a path: none where it cannot be read or is larger than
a thumbnail is. -/
def stampOf (file : Option Str) : Option Int64 :=
  file.bind fun bytes => if CEILING < bytes.length then none else stampIn bytes

/-! ## Checksums -/

/-- The check of a chunk as the format defines it: the register starts with all ones, takes the bytes
low bit first, and is inverted. -/
def checksum (bytes : Str) : BitVec 32 := ~~~ Crc.register POLYNOMIAL bytes (~~~ 0)

theorem table_eq (c : BitVec 32) : table c = (Crc.step POLYNOMIAL)^[8] c := by
  have hone : ∀ c : BitVec 32,
      (if c &&& 1 ≠ 0 then POLYNOMIAL ^^^ (c >>> 1) else c >>> 1) = Crc.step POLYNOMIAL c := by
    intro c
    unfold Crc.step
    have hbit : c &&& 1 ≠ 0 ↔ c.getLsbD 0 = true := by
      rw [show (1 : BitVec 32) = 1#32 from rfl, BitVec.and_one_eq_setWidth_ofBool_getLsbD]
      cases c.getLsbD 0 with
      | false => decide
      | true => decide
    by_cases h : c.getLsbD 0 = true
    · rw [if_pos h, if_pos (hbit.mpr h)]
    · rw [if_neg h, if_neg (mt hbit.mp h)]
  unfold table
  simp only [hone]
  rfl

/-- The table's check is the format's. -/
theorem crc32_eq (bytes : Str) : crc32 bytes = checksum bytes := by
  unfold crc32 checksum
  congr 1
  rw [Crc.register_eq_foldl POLYNOMIAL table (fun c => table_eq _)]
  rfl

/-! ## A row of chunks -/

/-- A chunk as it stands in a file, its check right or not. -/
structure Chunk where
  kind : Str
  data : Str
  crc : Str
  kind_length : kind.length = 4
  data_lt : data.length < 2 ^ 32
  crc_length : crc.length = 4

@[simp] theorem length_toBe (n : Nat) : (toBe n).length = 4 := by simp [toBe]

theorem fromBe_toBe {n : Nat} (h : n < 2 ^ 32) : fromBe (toBe n) = n := by
  unfold fromBe toBe
  rw [List.reverse_reverse]
  exact fromLe_toLe (by omega)

namespace Chunk

def bytes (c : Chunk) : Str := toBe c.data.length ++ c.kind ++ c.data ++ c.crc

/-- What `chunks` says of it. -/
def body (c : Chunk) : Str × Str := (c.kind, c.data)

/-- The same chunk with the check its bytes have. -/
def sealed (c : Chunk) : Chunk :=
  { c with crc := toBe (checksum (c.kind ++ c.data)).toNat, crc_length := length_toBe _ }

@[simp] theorem sealed_sealed (c : Chunk) : c.sealed.sealed = c.sealed := rfl

@[simp] theorem sealed_kind (c : Chunk) : c.sealed.kind = c.kind := rfl

@[simp] theorem sealed_data (c : Chunk) : c.sealed.data = c.data := rfl

@[simp] theorem body_sealed (c : Chunk) : c.sealed.body = c.body := rfl

theorem chunk_body (c : Chunk) : chunk c.kind c.data = c.sealed.bytes := by
  unfold chunk bytes sealed
  rw [crc32_eq]

theorem length_bytes (c : Chunk) : c.bytes.length = 12 + c.data.length := by
  unfold bytes
  simp only [List.length_append, length_toBe, c.kind_length, c.crc_length]
  omega

end Chunk

/-- The bytes of a picture. -/
def pictureOf (cs : List Chunk) : Str := SIGNATURE ++ cs.flatMap Chunk.bytes

theorem chunkRun_bytes (cs : List Chunk) :
    chunkRun (cs.flatMap Chunk.bytes) = some (cs.map Chunk.body) := by
  induction cs with
  | nil => simp [chunkRun]
  | cons c cs ih =>
    rw [List.flatMap_cons]
    generalize hrest : cs.flatMap Chunk.bytes = rest at ih
    have hlen := c.length_bytes
    have hkind := c.kind_length
    have htake : (c.bytes ++ rest).take 4 = toBe c.data.length := by
      unfold Chunk.bytes
      rw [List.append_assoc, List.append_assoc, List.append_assoc]
      exact List.take_left' (length_toBe _)
    have hfour : (c.bytes ++ rest).drop 4 = c.kind ++ (c.data ++ (c.crc ++ rest)) := by
      unfold Chunk.bytes
      rw [List.append_assoc, List.append_assoc, List.append_assoc]
      exact List.drop_left' (length_toBe _)
    have height : (c.bytes ++ rest).drop 8 = c.data ++ (c.crc ++ rest) := by
      rw [show 8 = 4 + 4 from rfl, ← List.drop_drop, hfour]
      exact List.drop_left' hkind
    rw [chunkRun]
    simp only [htake, fromBe_toBe c.data_lt, hfour, height]
    rw [if_neg, if_neg, if_neg, List.drop_left' (by rw [hlen]; omega), ih, List.take_left' hkind,
      List.take_left' rfl]
    · rfl
    · rw [List.length_append, hlen]
      omega
    · rw [List.length_append, hlen]
      omega
    · intro h
      have := congrArg List.length h
      rw [List.length_append, hlen] at this
      simp at this

/-- `chunks` reads a row of chunks as what it is. -/
theorem chunks_bytes {cs : List Chunk} (h : cs ≠ []) :
    chunks (cs.flatMap Chunk.bytes) = some (cs.map Chunk.body) := by
  unfold chunks
  rw [chunkRun_bytes]
  cases cs with
  | nil => exact absurd rfl h
  | cons c cs => rfl

/-- The bytes of a row say what chunks there are. -/
theorem bodies_of_bytes {as bs : List Chunk} (h : pictureOf as = pictureOf bs) :
    as.map Chunk.body = bs.map Chunk.body := by
  have hrow := List.append_cancel_left h
  have hrun := congrArg chunkRun hrow
  rw [chunkRun_bytes, chunkRun_bytes] at hrun
  exact Option.some.inj hrun

@[simp] theorem take_pictureOf (cs : List Chunk) : (pictureOf cs).take 8 = SIGNATURE :=
  List.take_left' rfl

@[simp] theorem drop_pictureOf (cs : List Chunk) :
    (pictureOf cs).drop 8 = cs.flatMap Chunk.bytes := List.drop_left' rfl

theorem length_pictureOf (cs : List Chunk) : 8 ≤ (pictureOf cs).length := by
  unfold pictureOf
  rw [List.length_append, show SIGNATURE.length = 8 from rfl]
  omega

/-! ## What becomes of a picture -/

/-- The chunks of the picture with the texts right after its header, without what is dropped. -/
def replaced (drops : Chunk → Bool) (texts cs : List Chunk) : List Chunk :=
  cs.flatMap fun c =>
    if c.kind = IHDR then c.sealed :: texts else if drops c then [] else [c.sealed]

/-- What `withText` drops. -/
def Chunk.isStale (replacing : List Str) (c : Chunk) : Bool := stale replacing c.kind c.data

theorem foldl_take {pairs : List (Str × Str)} {texts : List Chunk}
    (htexts : texts.flatMap Chunk.bytes = pairs.flatMap fun (key, value) => textChunk key value)
    (cs : List Chunk) (s : Stamping) :
    (cs.map Chunk.body).foldl (Stamping.take pairs) s =
      { out := s.out ++
          (replaced (Chunk.isStale (pairs.map Prod.fst)) texts cs).flatMap Chunk.bytes
        wroteOurs := s.wroteOurs || cs.any (·.kind = IHDR)
        sawHeader := s.sawHeader || cs.any (·.kind = IHDR) } := by
  induction cs generalizing s with
  | nil => simp [replaced]
  | cons c cs ih =>
    rw [List.map_cons, List.foldl_cons, ih]
    have hcons : replaced (Chunk.isStale (pairs.map Prod.fst)) texts (c :: cs) =
        (if c.kind = IHDR then c.sealed :: texts
          else if c.isStale (pairs.map Prod.fst) then [] else [c.sealed]) ++
        replaced (Chunk.isStale (pairs.map Prod.fst)) texts cs := rfl
    rw [hcons, List.flatMap_append]
    unfold Stamping.take Chunk.body
    by_cases hheader : c.kind = IHDR
    · simp only [if_pos hheader, List.flatMap_cons, htexts, ← c.chunk_body]
      simp [hheader]
    · simp only [if_neg hheader]
      by_cases hstale : c.isStale (pairs.map Prod.fst) = true
      · have hstale' : stale (pairs.map Prod.fst) c.kind c.data = true := hstale
        simp [hstale, hstale', hheader]
      · have hstale' : ¬ stale (pairs.map Prod.fst) c.kind c.data = true := hstale
        simp [hstale, hstale', hheader, c.chunk_body]

/-- `withText`, chunk by chunk. -/
theorem withText_eq {pairs : List (Str × Str)} {texts cs : List Chunk}
    (htexts : texts.flatMap Chunk.bytes = pairs.flatMap fun (key, value) => textChunk key value)
    (hheader : ∃ c ∈ cs, c.kind = IHDR) :
    withText (pictureOf cs) pairs =
      some (pictureOf (replaced (Chunk.isStale (pairs.map Prod.fst)) texts cs)) := by
  have hne : cs ≠ [] := by
    rintro rfl
    simp at hheader
  have hany : cs.any (·.kind = IHDR) = true := by simpa using hheader
  unfold withText
  have hpicture : ¬ ((pictureOf cs).length < 8 ∨ (pictureOf cs).take 8 ≠ SIGNATURE) := by
    have := length_pictureOf cs
    simp
    omega
  rw [if_neg hpicture, drop_pictureOf, chunks_bytes hne]
  simp only [Option.bind_some, foldl_take htexts, hany, Bool.or_true, Bool.and_self, if_true]
  rfl

/-! ## Texts -/

/-- The keyword of a text: what stands before its first NUL. -/
def keyword (data : Str) : Option Str :=
  if data.contains 0 then some (data.takeWhile (· ≠ 0)) else none

/-- What stands after it. -/
def valueOf (data : Str) : Str := data.drop ((data.takeWhile (· ≠ 0)).length + 1)

/-- A text under one of these keywords, whatever its value. -/
def Chunk.answers (replacing : List Str) (c : Chunk) : Bool :=
  c.kind == TEXT && (keyword c.data).any replacing.contains

theorem splitText_eq (data : Str) :
    splitText data = (keyword data).bind fun key =>
      if (fromUtf8 key).isSome && (fromUtf8 (valueOf data)).isSome then some (key, valueOf data)
      else none := by
  unfold splitText keyword valueOf
  split
  · rfl
  · rfl

theorem answers_of_isStale {replacing : List Str} {c : Chunk} (h : c.isStale replacing = true) :
    c.answers replacing = true := by
  unfold Chunk.isStale stale at h
  unfold Chunk.answers
  rw [Bool.and_eq_true] at h ⊢
  refine ⟨h.1, ?_⟩
  have hkey := h.2
  rw [splitText_eq] at hkey
  cases hk : keyword c.data with
  | none =>
    rw [hk] at hkey
    exact hkey
  | some key =>
    rw [hk, Option.bind_some] at hkey
    split at hkey
    · exact hkey
    · simp at hkey

theorem isSome_fromUtf8_of_ascii {b : Str} (h : ∀ x ∈ b, x < 128) : (fromUtf8 b).isSome = true := by
  have htext : utf8 (b.map fun x => Char.ofNat x.toNat) = b := by
    induction b with
    | nil => rfl
    | cons x b ih =>
      have hx : x.toNat < 128 := h x List.mem_cons_self
      rw [List.map_cons, utf8_cons, ih fun y hy => h y (List.mem_cons_of_mem _ hy), encode_one hx,
        UInt8.ofNat_toNat]
      rfl
  rw [← htext, fromUtf8_utf8]
  rfl

theorem takeWhile_text {k : Str} (hk : 0 ∉ k) (v : Str) :
    (k ++ 0 :: v).takeWhile (· ≠ 0) = k := by
  rw [List.takeWhile_append_of_pos]
  · simp
  · intro x hx
    simp only [decide_eq_true_eq]
    rintro rfl
    exact hk hx

/-- A keyword, a NUL and a text are read back. -/
theorem splitText_text {k v : Str} (hk : 0 ∉ k) (hka : ∀ x ∈ k, x < 128) (hva : ∀ x ∈ v, x < 128) :
    splitText (k ++ 0 :: v) = some (k, v) := by
  have hkey : keyword (k ++ 0 :: v) = some k := by
    unfold keyword
    rw [if_pos (by simp), takeWhile_text hk]
  have hvalue : valueOf (k ++ 0 :: v) = v := by
    unfold valueOf
    rw [takeWhile_text hk, List.append_cons]
    exact List.drop_left' (by simp)
  rw [splitText_eq, hkey, Option.bind_some, hvalue, isSome_fromUtf8_of_ascii hka,
    isSome_fromUtf8_of_ascii hva]
  rfl

/-- Chunks with the right checks are the bytes of what is in them. -/
theorem flatMap_bytes {texts : List Chunk} (h : ∀ t ∈ texts, t.sealed = t) :
    texts.flatMap Chunk.bytes = (texts.map Chunk.body).flatMap fun (kind, data) => chunk kind data := by
  rw [List.flatMap_map]
  apply List.flatMap_congr
  intro t ht
  show t.bytes = chunk t.kind t.data
  rw [t.chunk_body, h t ht]

theorem exists_texts {f : Str × Str → Str} {pairs : List (Str × Str)}
    (h : ∀ p ∈ pairs, (f p).length < 2 ^ 32) :
    ∃ texts : List Chunk, texts.map Chunk.body = pairs.map (fun p => (TEXT, f p)) ∧
      ∀ t ∈ texts, t.sealed = t := by
  induction pairs with
  | nil => exact ⟨[], rfl, by simp⟩
  | cons p pairs ih =>
    obtain ⟨texts, hbodies, hsealed⟩ := ih fun q hq => h q (List.mem_cons_of_mem _ hq)
    let c : Chunk :=
      { kind := TEXT, data := f p, crc := toBe 0, kind_length := rfl
        data_lt := h p List.mem_cons_self, crc_length := length_toBe 0 }
    refine ⟨c.sealed :: texts, ?_, ?_⟩
    · rw [List.map_cons, List.map_cons, hbodies]
      rfl
    · intro t ht
      rcases List.mem_cons.mp ht with rfl | ht
      · rfl
      · exact hsealed t ht

/-! ### Two ways to drop -/

theorem replaced_cons (drops : Chunk → Bool) (texts cs : List Chunk) (c : Chunk) :
    replaced drops texts (c :: cs) =
      (if c.kind = IHDR then c.sealed :: texts else if drops c then [] else [c.sealed]) ++
        replaced drops texts cs := rfl

theorem replaced_congr {d d' : Chunk → Bool} {cs : List Chunk} (h : ∀ c ∈ cs, d c = d' c)
    (texts : List Chunk) : replaced d texts cs = replaced d' texts cs := by
  unfold replaced
  apply List.flatMap_congr
  intro c hc
  rw [h c hc]

section Drops

variable {d d' : Chunk → Bool} {texts texts' cs : List Chunk}
  (hle : ∀ c, d c = true → d' c = true) (htexts : texts.length = texts'.length)
include hle htexts

theorem length_replaced_le (cs : List Chunk) :
    (replaced d' texts' cs).length ≤ (replaced d texts cs).length := by
  induction cs with
  | nil => simp [replaced]
  | cons c cs ih =>
    rw [replaced_cons, replaced_cons, List.length_append, List.length_append]
    refine Nat.add_le_add ?_ ih
    split
    · simp [htexts]
    · by_cases hc : d c = true
      · simp [hc, hle c hc]
      · split
        · simp
        · simp

/-- What drops more leaves fewer chunks, or drops the same. -/
theorem drops_of_length_eq (hlen : (replaced d texts cs).length = (replaced d' texts' cs).length) :
    ∀ c ∈ cs, c.kind ≠ IHDR → d' c = true → d c = true := by
  induction cs with
  | nil => simp
  | cons c cs ih =>
    have hrest := length_replaced_le hle htexts cs
    rw [replaced_cons, replaced_cons, List.length_append, List.length_append] at hlen
    intro e he hkind hdrop
    rcases List.mem_cons.mp he with rfl | he
    · rw [if_neg hkind, if_neg hkind, if_pos hdrop] at hlen
      by_contra hkept
      rw [if_neg hkept] at hlen
      simp only [List.length_cons, List.length_nil] at hlen
      omega
    · refine ih ?_ e he hkind hdrop
      have hhead : (if c.kind = IHDR then c.sealed :: texts' else
          if d' c then [] else [c.sealed]).length ≤
          (if c.kind = IHDR then c.sealed :: texts else if d c then [] else [c.sealed]).length := by
        have := length_replaced_le hle htexts [c]
        simpa [replaced_cons, replaced] using this
      omega

end Drops

/-- The texts stand in the picture. -/
theorem texts_of_replaced {d : Chunk → Bool} {texts texts' cs : List Chunk}
    (htexts : texts.length = texts'.length) (hheader : ∃ c ∈ cs, c.kind = IHDR)
    (h : (replaced d texts cs).map Chunk.body = (replaced d texts' cs).map Chunk.body) :
    texts.map Chunk.body = texts'.map Chunk.body := by
  induction cs with
  | nil => simp at hheader
  | cons c cs ih =>
    rw [replaced_cons, replaced_cons, List.map_append, List.map_append] at h
    by_cases hc : c.kind = IHDR
    · rw [if_pos hc, if_pos hc, List.map_cons, List.map_cons, List.cons_append, List.cons_append] at h
      exact (List.append_inj (List.cons.inj h).2 (by simp [htexts])).1
    · rw [if_neg hc, if_neg hc] at h
      refine ih ?_ (List.append_cancel_left h)
      obtain ⟨e, he, hkind⟩ := hheader
      rcases List.mem_cons.mp he with rfl | he
      · exact absurd hkind hc
      · exact ⟨e, he, hkind⟩

/-! ## Stamping a thumbnail -/

/-- `i64::to_string` -/
def decimal (n : Int64) : Text :=
  (if n < 0 then ['-'] else []) ++ Nat.toDigits 10 n.toInt.natAbs

theorem parseI64_decimal (n : Int64) : parseI64 (decimal n) = some n := by
  have hne : Nat.toDigits 10 n.toInt.natAbs ≠ [] := Nat.toDigits_ne_nil
  have hdigits : ∀ c ∈ Nat.toDigits 10 n.toInt.natAbs, c.isDigit = true := fun c hc =>
    Nat.isDigit_of_mem_toDigits (by decide) (by decide) hc
  have hlo : -2 ^ 63 ≤ n.toInt := n.le_toInt
  have hhi : n.toInt < 2 ^ 63 := n.toInt_lt
  unfold decimal
  by_cases hneg : n < 0
  · have hsign : n.toInt < 0 := Int64.lt_iff_toInt_lt.mp hneg
    rw [if_pos hneg, List.singleton_append,
      parseI64_minus hne hdigits (by rw [Nat.ofDigitChars_ten_toDigits]; omega),
      Nat.ofDigitChars_ten_toDigits]
    rw [show -((n.toInt.natAbs : Nat) : Int) = n.toInt by omega, Int64.ofInt_toInt]
  · have hsign : 0 ≤ n.toInt := by
      rw [Int64.lt_iff_toInt_lt] at hneg
      exact not_lt.mp hneg
    rw [if_neg hneg, List.nil_append,
      parseI64_of_digits hne hdigits (by rw [Nat.ofDigitChars_ten_toDigits]; omega),
      Nat.ofDigitChars_ten_toDigits]
    rw [show ((n.toInt.natAbs : Nat) : Int) = n.toInt by omega, Int64.ofInt_toInt]

theorem isWhiteSpace_decimal {n : Int64} {c : Char} (h : c ∈ decimal n) :
    isWhiteSpace c = false := by
  have hrange : 45 ≤ c.toNat ∧ c.toNat ≤ 57 := by
    unfold decimal at h
    rcases List.mem_append.mp h with h | h
    · split at h
      · rw [List.mem_singleton.mp h]
        decide
      · simp at h
    · have := toNat_of_isDigit (Nat.isDigit_of_mem_toDigits (by decide) (by decide) h)
      omega
  unfold isWhiteSpace
  simp
  omega

/-- A number is read as itself. -/
theorem parseStamp_decimal (n : Int64) : parseStamp (utf8 (decimal n)) = some n := by
  have htrim : trimText (utf8 (decimal n)) = utf8 (decimal n) := by
    unfold trimText
    rw [fromUtf8_utf8]
    simp only
    have hdrop : (decimal n).dropWhile isWhiteSpace = decimal n := by
      apply List.dropWhile_eq_self_iff.mpr
      intro hl
      simp [isWhiteSpace_decimal (List.getElem_mem hl)]
    have hrdrop : (decimal n).rdropWhile isWhiteSpace = decimal n := by
      apply List.rdropWhile_eq_self_iff.mpr
      intro hl
      simp [isWhiteSpace_decimal (List.getLast_mem hl)]
    rw [hdrop, hrdrop]
  unfold parseStamp
  rw [htrim, fromUtf8_utf8, Option.bind_some, parseI64_decimal]

/-- The texts a picture is given: keywords that differ, in ASCII, and values in ASCII without a NUL. -/
structure Texts (pairs : List (Str × Str)) : Prop where
  distinct : (pairs.map Prod.fst).Nodup
  keys : ∀ p ∈ pairs, ∀ x ∈ p.1, x < 128
  values : ∀ p ∈ pairs, ∀ x ∈ p.2, x < 128 ∧ x ≠ 0

/-- What a stamped picture is to be: `texts` are the chunks of the texts given. -/
structure Stamped (cs : List Chunk) (pairs : List (Str × Str)) (texts : List Chunk) (out : Str) :
    Prop where
  bodies : texts.map Chunk.body = pairs.map fun p => (TEXT, p.1 ++ 0 :: p.2)
  checked : ∀ t ∈ texts, t.sealed = t
  written : withText (pictureOf cs) pairs = some out
  /-- The same chunks with their checks, the texts after the header, the others of their keywords
  gone. -/
  exact : out = pictureOf (replaced (Chunk.answers (pairs.map Prod.fst)) texts cs)
  again : withText out pairs = some out
  reads : ∀ n : Int64, (MTIME, utf8 (decimal n)) ∈ pairs →
    stampIn out = some n ∧ (out.length ≤ CEILING → stampOf (some out) = some n)

/-- The stale texts can be told, and the texts given can be chunks. -/
structure Legible (cs : List Chunk) (pairs : List (Str × Str)) : Prop where
  /-- The value of a text under one of the keywords is in UTF-8. -/
  stale : ∀ c ∈ cs, c.answers (pairs.map Prod.fst) = true → (fromUtf8 (valueOf c.data)).isSome = true
  plain : ∀ p ∈ pairs, 0 ∉ p.1
  fits : ∀ p ∈ pairs, p.1.length + 1 + p.2.length < 2 ^ 32

section Stamp

variable {cs : List Chunk} {pairs : List (Str × Str)}

theorem filter_value {p : Str × Str} (ht : Texts pairs) (hp : p ∈ pairs) :
    p.2.filter (· ≠ 0) = p.2 := by
  rw [List.filter_eq_self]
  intro x hx
  simpa using (ht.values p hp x hx).2

/-- The bytes that `withText` writes for the texts are chunks, where each fits one. -/
theorem exists_written (ht : Texts pairs) (hfits : ∀ p ∈ pairs, p.1.length + 1 + p.2.length < 2 ^ 32) :
    ∃ texts : List Chunk,
      texts.map Chunk.body = pairs.map (fun p => (TEXT, p.1.filter (· ≠ 0) ++ 0 :: p.2)) ∧
      (∀ t ∈ texts, t.sealed = t) ∧
      texts.flatMap Chunk.bytes = pairs.flatMap fun (key, value) => textChunk key value := by
  have hshort : ∀ p ∈ pairs, (p.1.filter (· ≠ 0) ++ 0 :: p.2).length < 2 ^ 32 := by
    intro p hp
    have hle := List.length_filter_le (· ≠ 0) p.1
    have := hfits p hp
    simp only [List.length_append, List.length_cons]
    omega
  obtain ⟨texts, hbodies, hsealed⟩ := exists_texts hshort
  refine ⟨texts, hbodies, hsealed, ?_⟩
  rw [flatMap_bytes hsealed, hbodies, List.flatMap_map]
  apply List.flatMap_congr
  intro p hp
  show chunk TEXT (p.1.filter (· ≠ 0) ++ 0 :: p.2) = textChunk p.1 p.2
  unfold textChunk
  rw [filter_value ht hp]

theorem filter_key {k : Str} (h : 0 ∉ k) : k.filter (· ≠ 0) = k := by
  rw [List.filter_eq_self]
  intro x hx
  simp only [decide_eq_true_eq]
  rintro rfl
  exact h hx

/-- With the stale values in UTF-8 what answers one of the keywords is dropped. -/
theorem Legible.isStale_eq (hl : Legible cs pairs) (ht : Texts pairs) :
    ∀ c ∈ cs, c.isStale (pairs.map Prod.fst) = c.answers (pairs.map Prod.fst) := by
  intro c hc
  rw [Bool.eq_iff_iff]
  refine ⟨answers_of_isStale, fun h => ?_⟩
  have hvalue := hl.stale c hc h
  unfold Chunk.answers at h
  unfold Chunk.isStale Png.stale
  rw [Bool.and_eq_true] at h ⊢
  refine ⟨h.1, ?_⟩
  rw [splitText_eq]
  cases hk : keyword c.data with
  | none => simp [hk] at h
  | some key =>
    have hmem : key ∈ pairs.map Prod.fst := by simpa [hk] using h.2
    obtain ⟨p, hp, rfl⟩ := List.mem_map.mp hmem
    rw [Option.bind_some, isSome_fromUtf8_of_ascii (ht.keys p hp), hvalue]
    simpa using ⟨p.2, hp⟩

/-- A text just given is told as stale. -/
theorem isStale_of_text (ht : Texts pairs) (hplain : ∀ p ∈ pairs, 0 ∉ p.1) {texts : List Chunk}
    (hbodies : texts.map Chunk.body = pairs.map fun p => (TEXT, p.1 ++ 0 :: p.2)) :
    ∀ t ∈ texts, t.kind = TEXT ∧ t.isStale (pairs.map Prod.fst) = true := by
  intro t hmem
  have hbody : t.body ∈ pairs.map fun p => (TEXT, p.1 ++ 0 :: p.2) := by
    rw [← hbodies]
    exact List.mem_map_of_mem hmem
  obtain ⟨p, hp, hpair⟩ := List.mem_map.mp hbody
  obtain ⟨hkind, hdata⟩ := Prod.mk.inj hpair
  have hsplit := splitText_text (hplain p hp) (ht.keys p hp) fun x hx => (ht.values p hp x hx).1
  refine ⟨hkind.symm, ?_⟩
  unfold Chunk.isStale stale
  rw [← hkind, ← hdata, hsplit]
  simpa using ⟨p.2, hp⟩

/-- Replacing the texts of a picture whose texts are replaced leaves it as it is. -/
theorem replaced_replaced {d : Chunk → Bool} {texts : List Chunk}
    (hd : ∀ t ∈ texts, t.kind ≠ IHDR ∧ d t = true) (hseal : ∀ c, d c.sealed = d c) (cs : List Chunk) :
    replaced d texts (replaced d texts cs) = replaced d texts cs := by
  have happend (as bs : List Chunk) :
      replaced d texts (as ++ bs) = replaced d texts as ++ replaced d texts bs := by
    simp [replaced]
  have htexts : replaced d texts texts = [] := by
    unfold replaced
    rw [List.flatMap_eq_nil_iff]
    intro t ht
    rw [if_neg (hd t ht).1, if_pos (hd t ht).2]
  induction cs with
  | nil => simp [replaced]
  | cons c cs ih =>
    rw [replaced_cons, happend, ih]
    congr 1
    have hkind : c.sealed.kind = c.kind := rfl
    by_cases hc : c.kind = IHDR
    · rw [if_pos hc, replaced_cons, hkind, if_pos hc, htexts]
      simp
    · rw [if_neg hc]
      by_cases hdrop : d c = true
      · simp [hdrop, replaced]
      · rw [if_neg hdrop, replaced_cons, hkind, if_neg hc, hseal, if_neg hdrop]
        simp [replaced]

/-- The first stamp found in a stamped picture is the one given. -/
theorem findSome_replaced (ht : Texts pairs) (hplain : ∀ p ∈ pairs, 0 ∉ p.1) {texts : List Chunk}
    (hbodies : texts.map Chunk.body = pairs.map fun p => (TEXT, p.1 ++ 0 :: p.2)) {value : Str}
    (hvalue : (MTIME, value) ∈ pairs) (hheader : ∃ c ∈ cs, c.kind = IHDR) :
    ((replaced (Chunk.isStale (pairs.map Prod.fst)) texts cs).map Chunk.body).findSome? stamped =
      some value := by
  have htexts : (texts.map Chunk.body).findSome? stamped = some value := by
    have hone (p : Str × Str) (hp : p ∈ pairs) :
        stamped (TEXT, p.1 ++ 0 :: p.2) = if p.1 = MTIME then some p.2 else none := by
      unfold stamped
      rw [if_pos rfl,
        splitText_text (hplain p hp) (ht.keys p hp) fun x hx => (ht.values p hp x hx).1]
    have hdistinct := ht.distinct
    rw [hbodies, List.findSome?_map]
    clear hbodies ht hplain hheader
    induction pairs with
    | nil => simp at hvalue
    | cons p pairs ih =>
      rw [List.findSome?_cons]
      simp only [Function.comp]
      rw [hone p List.mem_cons_self]
      obtain ⟨hp, hrest⟩ := List.nodup_cons.mp hdistinct
      rcases List.mem_cons.mp hvalue with rfl | hmem
      · simp
      · have hne : p.1 ≠ MTIME := fun h => hp (h ▸ List.mem_map_of_mem hmem)
        rw [if_neg hne]
        exact ih hmem (fun q hq => hone q (List.mem_cons_of_mem _ hq)) hrest
  have hkeys : MTIME ∈ pairs.map Prod.fst := List.mem_map_of_mem hvalue
  induction cs with
  | nil => simp at hheader
  | cons c cs ih =>
    rw [replaced_cons, List.map_append, List.findSome?_append]
    by_cases hc : c.kind = IHDR
    · have hnone : stamped c.sealed.body = none := by
        have hkind : ¬ c.sealed.body.1 = TEXT := by
          rw [Chunk.body_sealed]
          show ¬ c.kind = TEXT
          rw [hc]
          decide
        exact if_neg hkind
      rw [if_pos hc, List.map_cons, List.findSome?_cons, hnone, htexts]
      rfl
    · rw [if_neg hc]
      have hrest := ih (by
        obtain ⟨e, he, hkind⟩ := hheader
        rcases List.mem_cons.mp he with rfl | he
        · exact absurd hkind hc
        · exact ⟨e, he, hkind⟩)
      by_cases hstale : c.isStale (pairs.map Prod.fst) = true
      · rw [if_pos hstale, hrest]
        rfl
      · have hnone : stamped c.body = none := by
          by_contra hsome
          apply hstale
          unfold stamped at hsome
          split at hsome
          · rename_i hkind
            cases hsplit : splitText c.body.2 with
            | none => simp [hsplit] at hsome
            | some p =>
              simp only [hsplit] at hsome
              split at hsome
              · rename_i hkey
                unfold Chunk.isStale stale
                have hk : c.kind = TEXT := hkind
                have hd : splitText c.data = some p := hsplit
                rw [hk, hd]
                simpa [hkey] using hkeys
              · exact absurd rfl hsome
          · exact absurd rfl hsome
        rw [if_neg hstale, List.map_cons, List.map_nil, Chunk.body_sealed, List.findSome?_cons, hnone,
          hrest]
        rfl

theorem text_ne_header : TEXT ≠ IHDR := by decide

/-- What is legible is stamped. -/
theorem Legible.stamps (hl : Legible cs pairs) (ht : Texts pairs) (hheader : ∃ c ∈ cs, c.kind = IHDR) :
    ∃ texts out, Stamped cs pairs texts out := by
  obtain ⟨texts, hbodies, hsealed, hwritten⟩ := exists_written ht hl.fits
  have hplain : texts.map Chunk.body = pairs.map fun p => (TEXT, p.1 ++ 0 :: p.2) := by
    rw [hbodies]
    apply List.map_congr_left
    intro p hp
    rw [filter_key (hl.plain p hp)]
  have htexts := isStale_of_text ht hl.plain hplain
  have hexact := replaced_congr (hl.isStale_eq ht) texts
  have hfirst : withText (pictureOf cs) pairs = _ := withText_eq hwritten hheader
  refine ⟨texts, pictureOf (replaced (Chunk.isStale (pairs.map Prod.fst)) texts cs), hplain, hsealed,
    hfirst, by rw [hexact], ?_, ?_⟩
  · have hagain : ∃ c ∈ replaced (Chunk.isStale (pairs.map Prod.fst)) texts cs, c.kind = IHDR := by
      obtain ⟨c, hc, hkind⟩ := hheader
      refine ⟨c.sealed, List.mem_flatMap.mpr ⟨c, hc, ?_⟩, hkind⟩
      rw [if_pos hkind]
      exact List.mem_cons_self
    rw [withText_eq hwritten hagain, replaced_replaced _ fun _ => rfl]
    intro t hmem
    obtain ⟨hkind, hstale⟩ := htexts t hmem
    exact ⟨hkind ▸ text_ne_header, hstale⟩
  · intro n hn
    have hread : stampIn (pictureOf (replaced (Chunk.isStale (pairs.map Prod.fst)) texts cs)) =
        some n := by
      have hlen := length_pictureOf (replaced (Chunk.isStale (pairs.map Prod.fst)) texts cs)
      have hfind := findSome_replaced ht hl.plain hplain hn hheader
      have hne : replaced (Chunk.isStale (pairs.map Prod.fst)) texts cs ≠ [] := by
        intro h
        rw [h] at hfind
        simp at hfind
      unfold stampIn
      rw [if_neg (by omega), drop_pictureOf, chunks_bytes hne, Option.bind_some, hfind,
        Option.bind_some, parseStamp_decimal]
    refine ⟨hread, fun hle => ?_⟩
    unfold stampOf
    rw [Option.bind_some, if_neg (by omega), hread]

/-- What is stamped was legible. -/
theorem Stamped.legible {texts : List Chunk} {out : Str} (h : Stamped cs pairs texts out)
    (ht : Texts pairs) (hheader : ∃ c ∈ cs, c.kind = IHDR) : Legible cs pairs := by
  have hfits : ∀ p ∈ pairs, p.1.length + 1 + p.2.length < 2 ^ 32 := by
    intro p hp
    have hmem : (TEXT, p.1 ++ 0 :: p.2) ∈ texts.map Chunk.body := by
      rw [h.bodies]
      exact List.mem_map_of_mem (f := fun p : Str × Str => (TEXT, p.1 ++ 0 :: p.2)) hp
    obtain ⟨t, -, hbody⟩ := List.mem_map.mp hmem
    have hdata : t.data = p.1 ++ 0 :: p.2 := congrArg Prod.snd hbody
    have hlt := t.data_lt
    rw [hdata, List.length_append, List.length_cons] at hlt
    omega
  obtain ⟨written, hbodies, -, hwritten⟩ := exists_written ht hfits
  have hlength : texts.length = written.length := by
    have := congrArg List.length (h.bodies)
    have := congrArg List.length hbodies
    simp only [List.length_map] at *
    omega
  have hrow : (replaced (Chunk.isStale (pairs.map Prod.fst)) written cs).map Chunk.body =
      (replaced (Chunk.answers (pairs.map Prod.fst)) texts cs).map Chunk.body := by
    apply bodies_of_bytes
    rw [← h.exact]
    exact Option.some.inj ((withText_eq hwritten hheader).symm.trans h.written)
  have hdrops : ∀ c ∈ cs, c.kind ≠ IHDR → c.answers (pairs.map Prod.fst) = true →
      c.isStale (pairs.map Prod.fst) = true :=
    drops_of_length_eq (fun c => answers_of_isStale) hlength.symm (by
      simpa using congrArg List.length hrow)
  have hagree : ∀ c ∈ cs, c.kind ≠ IHDR →
      c.isStale (pairs.map Prod.fst) = c.answers (pairs.map Prod.fst) := by
    intro c hc hkind
    rw [Bool.eq_iff_iff]
    exact ⟨answers_of_isStale, hdrops c hc hkind⟩
  refine ⟨fun c hc hanswers => ?_, fun p hp => ?_, hfits⟩
  · have hkind : c.kind = TEXT := by
      unfold Chunk.answers at hanswers
      rw [Bool.and_eq_true] at hanswers
      simpa using hanswers.1
    have hstale := hdrops c hc (hkind ▸ text_ne_header) hanswers
    unfold Chunk.isStale stale at hstale
    rw [Bool.and_eq_true, splitText_eq] at hstale
    cases hk : keyword c.data with
    | none => simp [hk] at hstale
    | some key =>
      rw [hk, Option.bind_some] at hstale
      by_cases hutf : ((fromUtf8 key).isSome && (fromUtf8 (valueOf c.data)).isSome) = true
      · rw [Bool.and_eq_true] at hutf
        exact hutf.2
      · rw [if_neg hutf] at hstale
        simp at hstale
  · have hsame : replaced (Chunk.isStale (pairs.map Prod.fst)) texts cs =
        replaced (Chunk.answers (pairs.map Prod.fst)) texts cs := by
      unfold replaced
      apply List.flatMap_congr
      intro c hc
      by_cases hkind : c.kind = IHDR
      · rw [if_pos hkind, if_pos hkind]
      · rw [if_neg hkind, if_neg hkind, hagree c hc hkind]
    rw [← hsame] at hrow
    have htexts := texts_of_replaced hlength.symm hheader hrow
    rw [hbodies, h.bodies] at htexts
    have hp2 := List.map_inj_left.mp htexts p hp
    have hkey : p.1.filter (· ≠ 0) = p.1 :=
      List.append_cancel_right (Prod.mk.inj hp2).2
    intro hzero
    rw [← hkey] at hzero
    simp at hzero

end Stamp

/-- A picture comes out stamped exactly when it is legible: when what stands in it under the keywords
given has values in UTF-8, and the texts given have keywords without a NUL and fit a chunk. -/
theorem withText_iff (cs : List Chunk) (pairs : List (Str × Str)) (ht : Texts pairs)
    (hheader : cs.countP (·.kind = IHDR) = 1) :
    (∃ texts out, Stamped cs pairs texts out) ↔ Legible cs pairs := by
  have hsome : ∃ c ∈ cs, c.kind = IHDR := by
    have hpos : 0 < cs.countP (·.kind = IHDR) := by omega
    simpa using List.countP_pos_iff.mp hpos
  constructor
  · rintro ⟨texts, out, h⟩
    exact h.legible ht hsome
  · intro hl
    exact hl.stamps ht hsome

/-- A chunk of no more than a few bytes, its check left open. -/
def Chunk.small (kind : Str) (hkind : kind.length = 4) (data : Str) (hdata : data.length < 2 ^ 32) :
    Chunk :=
  { kind := kind, data := data, crc := toBe 0, kind_length := hkind, data_lt := hdata
    crc_length := length_toBe 0 }

/-- A header, and a text with a time. -/
def timed (value : Str) (h : (MTIME ++ 0 :: value).length < 2 ^ 32) : List Chunk :=
  [.small IHDR rfl [] (by decide), .small TEXT rfl (MTIME ++ 0 :: value) h]

def fresh : List (Str × Str) := [(MTIME, str "2")]

theorem texts_fresh : Texts fresh where
  distinct := by decide
  keys := by decide +kernel
  values := by decide +kernel

theorem withText_timed :
    ∃ texts out, Stamped (timed (str "1") (by decide)) fresh texts out := by
  refine (withText_iff (timed (str "1") (by decide)) fresh texts_fresh (by decide)).mpr ?_
  refine ⟨?_, by decide, by decide⟩
  intro c hc _
  rcases List.mem_cons.mp hc with rfl | hc
  · decide
  · rw [List.mem_singleton.mp hc]
    decide

/-- A time with a letter of Latin-1 behind it stays in the picture beside the one given. -/
theorem not_withText_latin1 :
    ¬ ∃ texts out, Stamped (timed [0x31, 0xe9] (by decide)) fresh texts out := by
  rintro ⟨texts, out, h⟩
  have hl := h.legible texts_fresh ⟨_, List.mem_cons_self, rfl⟩
  have := hl.stale _ (List.mem_cons_of_mem _ List.mem_cons_self) (by decide)
  exact absurd this (by decide)

end Scour.Png
