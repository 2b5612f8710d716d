import Scour.DirMap
import Scour.PathBytes
import Scour.Lib.Places

/-!
# The kernel's events, decoded

`parse` takes a read buffer apart: events one after the other, and in each the information records up
to the one with a directory handle and a name.  An index past the buffer is an error of the program
and is none here, as is a loop without an end; neither happens (`parse_total`).

Of events as the kernel writes them every one that names an entry is one `Seen`, exactly where each
handle has a layout that `handleIno` knows and each name is not empty and is UTF-8
(`announces_iff`): another name is dropped, and the walk spells it (`fromBytes`).
-/

namespace Scour

open Search

abbrev FAN_Q_OVERFLOW : Nat := 0x00004000
abbrev FAN_EVENT_INFO_TYPE_DFID_NAME : UInt8 := 2
abbrev FAN_ONDIR : Nat := 0x40000000
abbrev FAN_CREATE : Nat := 0x00000100
abbrev FAN_DELETE : Nat := 0x00000200
abbrev FAN_MOVED_FROM : Nat := 0x00000040
abbrev FAN_MOVED_TO : Nat := 0x00000080
abbrev FAN_CLOSE_WRITE : Nat := 0x00000008

/-- One event: which directory, what name, and whether the entry might be new. -/
structure Seen where
  parentIno : Nat
  parentFs : FsTag
  name : Text
  fresh : Bool
  isDir : Bool
  entries : Bool
  settled : Bool
deriving DecidableEq

/-! ## The code -/

/-- `u32::from_le_bytes(buf[at..at + 4])`, and the same of two and of eight bytes. -/
def readLe (buf : Str) (k at_ : Nat) : Option Nat := (slice buf at_ (at_ + k)).map fromLe

/-- `i32`, of the same bits. -/
def toI32 (n : Nat) : Int := if n < 2 ^ 31 then n else n - 2 ^ 32

/-- The inode number a file handle carries, by filesystem. -/
def handleIno (fhType : Int) (bytes : Str) : Option Nat :=
  if 0x4d ≤ fhType ∧ fhType ≤ 0x4f ∧ 20 ≤ bytes.length then readLe bytes 8 0
  else if fhType = 1 ∧ bytes.length = 12 then readLe bytes 8 4
  else if fhType = 1 ∧ bytes.length = 8 then readLe bytes 4 0
  else none

/-- The subvolume a btrfs handle names. -/
def btrfsRoot (fhType : Int) (bytes : Str) : Option Nat :=
  if 0x4d ≤ fhType ∧ fhType ≤ 0x4f ∧ 20 ≤ bytes.length then readLe bytes 8 8 else none

/-- What an event's mask says of the entry it names. -/
def seenOf (mask ino : Nat) (fs : FsTag) (name : Text) : Seen where
  parentIno := ino
  parentFs := fs
  name := name
  fresh := mask &&& (FAN_CREATE ||| FAN_MOVED_TO) ≠ 0
  isDir := mask &&& FAN_ONDIR ≠ 0
  entries := mask &&& (FAN_CREATE ||| FAN_DELETE ||| FAN_MOVED_FROM ||| FAN_MOVED_TO) ≠ 0
  settled := mask &&& FAN_CLOSE_WRITE ≠ 0

/-- `std::str::from_utf8(..)`, where it is `Ok`. -/
def okText (b : Str) : Option Text :=
  match decode b with
  | .ok s => some s
  | .error _ _ => none

/-- The record with a directory's handle and a name, at `p`. -/
def parseName (buf : Str) (mask p infoLen : Nat) : Option (Option Seen) :=
  let fh := p + 12
  if fh + 8 ≤ p + infoLen then do
    let hb ← readLe buf 4 fh
    let ht ← (readLe buf 4 (fh + 4)).map toI32
    let body := fh + 8
    if body + hb ≤ p + infoLen then do
      let handle ← slice buf body (body + hb)
      match handleIno ht handle with
      | none => pure none
      | some ino => do
        let lo ← readLe buf 4 (p + 4)
        let hi ← readLe buf 4 (p + 8)
        let tail ← slice buf (body + hb) (p + infoLen)
        let name := tail.takeWhile (· ≠ 0)
        if 0 < name.length then
          pure ((okText name).map (seenOf mask ino ⟨(lo, hi), btrfsRoot ht handle⟩))
        else pure none
    else pure none
  else pure none

/-- The loop over an event's records, from `p` to `stop`. -/
def parseInfo : Nat → Str → Nat → Nat → Nat → Option (Option Seen)
  | 0, _, _, _, _ => none
  | fuel + 1, buf, mask, p, stop =>
    if p + 4 ≤ stop then do
      let infoType ← buf[p]?
      let infoLen ← readLe buf 2 (p + 2)
      if infoLen < 4 ∨ stop < p + infoLen then pure none
      else if infoType = FAN_EVENT_INFO_TYPE_DFID_NAME then parseName buf mask p infoLen
      else parseInfo fuel buf mask (p + infoLen) stop
    else pure none

/-- The loop over a buffer's events, from `at_`: what was seen, and whether all was. -/
def parseFrom : Nat → Str → Nat → Option (List Seen × Bool)
  | 0, _, _ => none
  | fuel + 1, buf, at_ =>
    if at_ + 24 ≤ buf.length then do
      let eventLen ← readLe buf 4 at_
      if eventLen < 24 ∨ buf.length < at_ + eventLen then pure ([], true)
      else
        let metadataLen ← readLe buf 2 (at_ + 6)
        let mask ← readLe buf 8 (at_ + 8)
        if mask &&& FAN_Q_OVERFLOW ≠ 0 then do
          let (out, _) ← parseFrom fuel buf (at_ + eventLen)
          pure (out, false)
        else do
          let seen ← parseInfo (buf.length + 1) buf mask (at_ + max metadataLen 24) (at_ + eventLen)
          let (out, ok) ← parseFrom fuel buf (at_ + eventLen)
          pure (seen.toList ++ out, ok)
    else pure ([], true)

def parseEvents (buf : Str) : Option (List Seen × Bool) := parseFrom (buf.length + 1) buf 0

/-! ## Nothing outside the buffer is read -/

theorem readLe_of_le (buf : Str) (k at_ : Nat) (h : at_ + k ≤ buf.length) :
    ∃ n, readLe buf k at_ = some n := by
  obtain ⟨x, hx, -⟩ := slice_of_le (Nat.le_add_right at_ k) h
  exact ⟨fromLe x, by rw [readLe, hx]; rfl⟩

theorem parseName_total {buf : Str} {mask p infoLen : Nat} (h : p + infoLen ≤ buf.length) :
    ∃ r, parseName buf mask p infoLen = some r := by
  unfold parseName
  simp only
  split
  · rename_i hfh
    obtain ⟨hb, hhb⟩ := readLe_of_le buf 4 (p + 12) (by omega)
    obtain ⟨ht, hht⟩ := readLe_of_le buf 4 (p + 12 + 4) (by omega)
    rw [hhb, hht]
    simp only [Option.bind_eq_bind, Option.bind_some, Option.map_some]
    split
    · rename_i hbody
      obtain ⟨handle, hhandle, -⟩ :=
        slice_of_le (s := buf) (Nat.le_add_right (p + 12 + 8) hb) (by omega)
      rw [hhandle]
      simp only [Option.bind_some]
      split
      · exact ⟨_, rfl⟩
      · obtain ⟨lo, hlo⟩ := readLe_of_le buf 4 (p + 4) (by omega)
        obtain ⟨hi, hhi⟩ := readLe_of_le buf 4 (p + 8) (by omega)
        obtain ⟨tail, htail, -⟩ := slice_of_le (s := buf) hbody h
        rw [hlo, hhi, htail]
        simp only [Option.bind_some]
        split
        · exact ⟨_, rfl⟩
        · exact ⟨_, rfl⟩
    · exact ⟨_, rfl⟩
  · exact ⟨_, rfl⟩

theorem parseInfo_total (buf : Str) (mask stop : Nat) (hstop : stop ≤ buf.length) (fuel : Nat) :
    ∀ p, stop ≤ p + fuel → ∃ r, parseInfo (fuel + 1) buf mask p stop = some r := by
  induction fuel with
  | zero =>
    intro p hp
    exact ⟨none, if_neg (by omega)⟩
  | succ fuel ih =>
    intro p hp
    unfold parseInfo
    split
    · rename_i hle
      obtain ⟨infoLen, hlen⟩ := readLe_of_le buf 2 (p + 2) (by omega)
      rw [List.getElem?_eq_getElem (show p < buf.length by omega), hlen]
      simp only [Option.bind_eq_bind, Option.bind_some]
      split
      · exact ⟨_, rfl⟩
      · split
        · exact parseName_total (by omega)
        · exact ih _ (by omega)
    · exact ⟨_, rfl⟩

theorem parseFrom_total {buf : Str} (fuel : Nat) :
    ∀ at_, buf.length ≤ at_ + fuel → ∃ r, parseFrom (fuel + 1) buf at_ = some r := by
  induction fuel with
  | zero =>
    intro at_ hat
    exact ⟨_, if_neg (by omega)⟩
  | succ fuel ih =>
    intro at_ hat
    unfold parseFrom
    split
    · rename_i hle
      obtain ⟨eventLen, hlen⟩ := readLe_of_le buf 4 at_ (by omega)
      rw [hlen]
      simp only [Option.bind_eq_bind, Option.bind_some]
      split
      · exact ⟨_, rfl⟩
      · obtain ⟨metadataLen, hmeta⟩ := readLe_of_le buf 2 (at_ + 6) (by omega)
        obtain ⟨mask, hmask⟩ := readLe_of_le buf 8 (at_ + 8) (by omega)
        obtain ⟨r, hr⟩ := ih (at_ + eventLen) (by omega)
        rw [hmeta, hmask]
        simp only [Option.bind_some]
        split
        · exact ⟨_, by rw [hr]; rfl⟩
        · obtain ⟨seen, hseen⟩ := parseInfo_total buf mask (at_ + eventLen) (by omega)
            buf.length (at_ + max metadataLen 24) (by omega)
          exact ⟨_, by rw [hseen, hr]; rfl⟩
    · exact ⟨_, rfl⟩

/-- Every buffer is read to an end, and nothing outside it. -/
theorem parse_total (buf : Str) : ∃ r, parseEvents buf = some r :=
  parseFrom_total buf.length 0 (by omega)

/-! ## Handles -/

/-- What the bytes of a handle are, by its type: its inode and, on btrfs, its subvolume. -/
inductive Layout : Int → Str → Nat → Option Nat → Prop
  | btrfs (kind : Int) (ino root : Nat) (more : Str) (hkind : 0x4d ≤ kind ∧ kind ≤ 0x4f)
      (hino : ino < 2 ^ 64) (hroot : root < 2 ^ 64) (hmore : 4 ≤ more.length) :
      Layout kind (toLe 8 ino ++ (toLe 8 root ++ more)) ino (some root)
  | tmpfs (generation : Str) (ino : Nat) (hgen : generation.length = 4) (hino : ino < 2 ^ 64) :
      Layout 1 (generation ++ toLe 8 ino) ino none
  | ino32 (ino : Nat) (generation : Str) (hgen : generation.length = 4) (hino : ino < 2 ^ 32) :
      Layout 1 (toLe 4 ino ++ generation) ino none

theorem readLe_at {buf : Str} {k at_ n : Nat} (h : At buf at_ (toLe k n)) (hn : n < 256 ^ k) :
    readLe buf k at_ = some n := by
  unfold readLe
  rw [h.slice (by rw [length_toLe]), Option.map_some, fromLe_toLe hn]

theorem eq_toLe_append {b : Str} {k : Nat} (h : k ≤ b.length) :
    b = toLe k (fromLe (b.take k)) ++ b.drop k := by
  have hk : (b.take k).length = k := List.length_take_of_le h
  have he := toLe_fromLe (b.take k)
  rw [hk] at he
  rw [he, List.take_append_drop]

theorem readLe_eq {b : Str} {k i : Nat} (h : i + k ≤ b.length) :
    readLe b k i = some (fromLe ((b.drop i).take k)) := by
  unfold readLe slice
  rw [if_pos ⟨by omega, h⟩, Nat.add_sub_cancel_left, Option.map_some]

theorem fromLe_take_lt (b : Str) (k : Nat) : fromLe (b.take k) < 256 ^ k :=
  lt_of_lt_of_le (fromLe_lt _) (Nat.pow_le_pow_right (by omega) (List.length_take_le _ _))

/-- A handle's layout is what is read of it. -/
theorem layout_iff {kind : Int} {b : Str} {ino : Nat} {root : Option Nat} :
    Layout kind b ino root ↔ handleIno kind b = some ino ∧ btrfsRoot kind b = root := by
  constructor
  · rintro (⟨_, _, root, more, hkind, hino, hroot, hmore⟩ | ⟨generation, _, hgen, hino⟩ |
      ⟨_, generation, hgen, hino⟩)
    · have hat := at_zero (toLe 8 ino ++ (toLe 8 root ++ more))
      have hlen : 20 ≤ (toLe 8 ino ++ (toLe 8 root ++ more)).length := by
        simp only [List.length_append, length_toLe]
        omega
      unfold handleIno btrfsRoot
      rw [if_pos ⟨hkind.1, hkind.2, hlen⟩, if_pos ⟨hkind.1, hkind.2, hlen⟩]
      exact ⟨readLe_at hat.left hino, readLe_at (hat.right (by rw [length_toLe])).left hroot⟩
    · have hat := at_zero (generation ++ toLe 8 ino)
      have hlen : (generation ++ toLe 8 ino).length = 12 := by simp [hgen]
      unfold handleIno btrfsRoot
      rw [if_neg (by omega), if_pos ⟨rfl, hlen⟩, if_neg (by omega)]
      exact ⟨readLe_at (hat.right (by rw [hgen])) hino, rfl⟩
    · have hat := at_zero (toLe 4 ino ++ generation)
      have hlen : (toLe 4 ino ++ generation).length = 8 := by simp [hgen]
      unfold handleIno btrfsRoot
      rw [if_neg (by omega), if_neg (by omega), if_pos ⟨rfl, hlen⟩, if_neg (by omega)]
      exact ⟨readLe_at hat.left hino, rfl⟩
  · rintro ⟨hino, rfl⟩
    unfold handleIno at hino
    unfold btrfsRoot
    split_ifs at hino with hbtrfs htmpfs h32
    · rw [if_pos hbtrfs]
      have h8 := eq_toLe_append (b := b) (k := 8) (by omega)
      have h16 := eq_toLe_append (b := b.drop 8) (k := 8) (by rw [List.length_drop]; omega)
      rw [List.drop_drop] at h16
      rw [readLe_eq (by omega), List.drop_zero] at hino
      rw [readLe_eq (by omega), ← Option.some.inj hino]
      have hl := Layout.btrfs kind (fromLe (b.take 8)) (fromLe ((b.drop 8).take 8)) (b.drop (8 + 8))
        ⟨hbtrfs.1, hbtrfs.2.1⟩ (fromLe_take_lt b 8) (fromLe_take_lt (b.drop 8) 8)
        (by rw [List.length_drop]; omega)
      rwa [← h16, ← h8] at hl
    · obtain ⟨rfl, hlen⟩ := htmpfs
      have h12 := eq_toLe_append (b := b.drop 4) (k := 8) (by rw [List.length_drop]; omega)
      have hnil : b.drop (4 + 8) = [] := List.drop_eq_nil_of_le (by omega)
      rw [List.drop_drop, hnil, List.append_nil] at h12
      rw [readLe_eq (by omega)] at hino
      rw [if_neg (by omega), ← Option.some.inj hino]
      have hl := Layout.tmpfs (b.take 4) (fromLe ((b.drop 4).take 8))
        (List.length_take_of_le (by omega)) (fromLe_take_lt (b.drop 4) 8)
      rwa [← h12, List.take_append_drop] at hl
    · obtain ⟨rfl, hlen⟩ := h32
      have h4 := eq_toLe_append (b := b) (k := 4) (by omega)
      rw [readLe_eq (by omega), List.drop_zero] at hino
      rw [if_neg (by omega), ← Option.some.inj hino]
      have hl := Layout.ino32 (fromLe (b.take 4)) (b.drop 4) (by rw [List.length_drop]; omega)
        (fromLe_take_lt b 4)
      rwa [← h4] at hl

/-! ## Events as the kernel writes them -/

/-- An information record of another kind. -/
structure InfoRecord where
  kind : UInt8
  pad : UInt8
  payload : Str
  other : kind ≠ FAN_EVENT_INFO_TYPE_DFID_NAME
  fits : 4 + payload.length < 2 ^ 16

def InfoRecord.bytes (r : InfoRecord) : Str :=
  r.kind :: r.pad :: (toLe 2 (4 + r.payload.length) ++ r.payload)

/-- A directory's handle and a name, closed with a NUL and filled up. -/
structure NameRecord where
  pad : UInt8
  fsid : Nat × Nat
  /-- The bits of the handle's type. -/
  handleType : Nat
  handle : Str
  name : Str
  filling : Str
  fsidFits : fsid.1 < 2 ^ 32 ∧ fsid.2 < 2 ^ 32
  typeFits : handleType < 2 ^ 32
  noNul : 0 ∉ name
  fits : 21 + handle.length + name.length + filling.length < 2 ^ 16

namespace NameRecord

def length (r : NameRecord) : Nat := 21 + r.handle.length + r.name.length + r.filling.length

def bytes (r : NameRecord) : Str :=
  FAN_EVENT_INFO_TYPE_DFID_NAME :: r.pad :: (toLe 2 r.length ++ (toLe 4 r.fsid.1 ++
    (toLe 4 r.fsid.2 ++ (toLe 4 r.handle.length ++ (toLe 4 r.handleType ++ (r.handle ++
      (r.name ++ 0 :: r.filling)))))))

theorem length_bytes (r : NameRecord) : r.bytes.length = r.length := by
  unfold bytes length
  simp only [List.length_cons, List.length_append, length_toLe]
  omega

/-- What the code makes of it, in an event with this mask. -/
def seen (r : NameRecord) (mask : Nat) : Option Seen :=
  (handleIno (toI32 r.handleType) r.handle).bind fun ino =>
    if 0 < r.name.length then
      (okText r.name).map (seenOf mask ino ⟨r.fsid, btrfsRoot (toI32 r.handleType) r.handle⟩)
    else none

end NameRecord

/-- What an event carries: nothing where events were dropped, else an entry's name, after and before
whatever else. -/
inductive Body where
  | overflow (more : Str)
  | named (before : List InfoRecord) (record : NameRecord) (after : Str)

namespace Body

def bytes : Body → Str
  | overflow more => more
  | named before record after => before.flatMap InfoRecord.bytes ++ (record.bytes ++ after)

def isOverflow : Body → Bool
  | overflow _ => true
  | named _ _ _ => false

end Body

structure KernelEvent where
  vers : UInt8
  reserved : UInt8
  mask : Nat
  fdPid : Str
  /-- What a later kernel adds to the metadata. -/
  extra : Str
  body : Body
  maskFits : mask < 2 ^ 64
  overflows : mask &&& FAN_Q_OVERFLOW ≠ 0 ↔ body.isOverflow = true
  fdPidFits : fdPid.length = 8
  extraFits : 24 + extra.length < 2 ^ 16
  fits : 24 + extra.length + body.bytes.length < 2 ^ 32

namespace KernelEvent

def length (e : KernelEvent) : Nat := 24 + e.extra.length + e.body.bytes.length

def bytes (e : KernelEvent) : Str :=
  toLe 4 e.length ++ (e.vers :: e.reserved :: (toLe 2 (24 + e.extra.length) ++ (toLe 8 e.mask ++
    (e.fdPid ++ (e.extra ++ e.body.bytes)))))

theorem length_bytes (e : KernelEvent) : e.bytes.length = e.length := by
  have := e.fdPidFits
  unfold bytes length
  simp only [List.length_cons, List.length_append, length_toLe]
  omega

/-- What the code makes of an event. -/
def seen (e : KernelEvent) : Option Seen :=
  match e.body with
  | .overflow _ => none
  | .named _ record _ => record.seen e.mask

end KernelEvent

/-! ### Read back -/

theorem getElem_zero_takeWhile (name filling : Str) (h : 0 ∉ name) :
    (name ++ 0 :: filling).takeWhile (· ≠ 0) = name := by
  rw [List.takeWhile_append_of_pos, List.takeWhile_cons_of_neg (by simp), List.append_nil]
  intro b hb
  simp only [ne_eq, decide_eq_true_eq]
  rintro rfl
  exact h hb

theorem parseName_at {buf : Str} {p : Nat} (mask : Nat) {r : NameRecord} (h : At buf p r.bytes) :
    parseName buf mask p r.length = some (r.seen mask) := by
  have hfits := r.fits
  unfold NameRecord.bytes at h
  have h2 := h.tail.tail
  have h4 := h2.right (j := p + 4) (by rw [length_toLe])
  have h8 := h4.right (j := p + 8) (by rw [length_toLe])
  have h12 := h8.right (j := p + 12) (by rw [length_toLe])
  have h16 := h12.right (j := p + 12 + 4) (by rw [length_toLe])
  have h20 := h16.right (j := p + 12 + 8) (by rw [length_toLe])
  have hname := h20.right (j := p + 12 + 8 + r.handle.length) rfl
  have hlo := readLe_at h4.left r.fsidFits.1
  have hhi := readLe_at h8.left r.fsidFits.2
  have hhb : readLe buf 4 (p + 12) = some r.handle.length := readLe_at h12.left (by omega)
  have hht := readLe_at h16.left r.typeFits
  have hhandle := h20.left.slice (j := p + 12 + 8 + r.handle.length) rfl
  have htail := hname.slice (j := p + r.length)
    (by unfold NameRecord.length; simp only [List.length_append, List.length_cons]; omega)
  unfold parseName NameRecord.seen
  simp only
  rw [if_pos (by unfold NameRecord.length; omega), hhb, hht]
  simp only [Option.bind_eq_bind, Option.bind_some, Option.map_some]
  rw [if_pos (by unfold NameRecord.length; omega), hhandle]
  simp only [Option.bind_some]
  cases handleIno (toI32 r.handleType) r.handle with
  | none => rfl
  | some ino =>
    simp only [hlo, hhi, htail, Option.bind_some, getElem_zero_takeWhile _ _ r.noNul]
    split
    · rfl
    · rfl

theorem InfoRecord.length_bytes (r : InfoRecord) : r.bytes.length = 4 + r.payload.length := by
  unfold InfoRecord.bytes
  simp only [List.length_cons, List.length_append, length_toLe]
  omega

/-- The records before the one with a name are passed over. -/
theorem parseInfo_at {buf : Str} {mask stop : Nat} {record : NameRecord} {after : Str}
    (before : List InfoRecord) : ∀ (fuel p : Nat), before.length < fuel →
      At buf p (before.flatMap InfoRecord.bytes ++ (record.bytes ++ after)) →
      p + (before.flatMap InfoRecord.bytes).length + record.length ≤ stop →
      parseInfo fuel buf mask p stop = some (record.seen mask) := by
  induction before with
  | nil =>
    intro fuel p hfuel h hstop
    obtain ⟨fuel, rfl⟩ : ∃ n, fuel = n + 1 := ⟨fuel - 1, by simp at hfuel; omega⟩
    rw [List.flatMap_nil, List.nil_append] at h
    rw [List.flatMap_nil, List.length_nil, Nat.add_zero] at hstop
    have hrec : At buf p record.bytes := h.left
    have hparse := parseName_at mask hrec
    have hlen : readLe buf 2 (p + 2) = some record.length := by
      unfold NameRecord.bytes at hrec
      exact readLe_at hrec.tail.tail.left record.fits
    have hkind : buf[p]? = some FAN_EVENT_INFO_TYPE_DFID_NAME := by
      unfold NameRecord.bytes at hrec
      exact hrec.getElem?
    have hlong : 21 ≤ record.length := by
      unfold NameRecord.length
      omega
    unfold parseInfo
    rw [if_pos (by omega), hkind, hlen]
    simp only [Option.bind_eq_bind, Option.bind_some]
    rw [if_neg (by omega), if_pos True.intro, hparse]
  | cons r before ih =>
    intro fuel p hfuel h hstop
    obtain ⟨fuel, rfl⟩ : ∃ n, fuel = n + 1 := ⟨fuel - 1, by simp at hfuel; omega⟩
    rw [List.flatMap_cons, List.append_assoc] at h
    rw [List.flatMap_cons, List.length_append, r.length_bytes] at hstop
    have hrec : At buf p r.bytes := h.left
    have hlen : readLe buf 2 (p + 2) = some (4 + r.payload.length) := by
      unfold InfoRecord.bytes at hrec
      exact readLe_at hrec.tail.tail.left r.fits
    have hkind : buf[p]? = some r.kind := by
      unfold InfoRecord.bytes at hrec
      exact hrec.getElem?
    have hnext := h.right (j := p + (4 + r.payload.length)) (by rw [r.length_bytes])
    unfold parseInfo
    rw [if_pos (by omega), hkind, hlen]
    simp only [Option.bind_eq_bind, Option.bind_some]
    rw [if_neg (by omega), if_neg r.other]
    exact ih fuel _ (by simpa using hfuel) hnext (by omega)

theorem length_le_flatMap_bytes (before : List InfoRecord) :
    before.length ≤ (before.flatMap InfoRecord.bytes).length := by
  induction before with
  | nil => exact Nat.le_refl 0
  | cons r before ih =>
    rw [List.flatMap_cons, List.length_append, List.length_cons, r.length_bytes]
    omega

/-- An event is what it carries, and the rest is what comes after it. -/
theorem parseFrom_at {buf : Str} {at_ fuel : Nat} {e : KernelEvent} {out : List Seen} {ok : Bool}
    (h : At buf at_ e.bytes) (hrest : parseFrom fuel buf (at_ + e.length) = some (out, ok)) :
    parseFrom (fuel + 1) buf at_ = some (e.seen.toList ++ out, !e.body.isOverflow && ok) := by
  have hle := h.le
  have hfd := e.fdPidFits
  have hextra := e.extraFits
  rw [e.length_bytes] at hle
  unfold KernelEvent.bytes at h
  have h4 := h.right (j := at_ + 4) (by rw [length_toLe])
  have h6 := h4.tail.tail
  have h8 := h6.right (j := at_ + 8) (by rw [length_toLe])
  have h16 := h8.right (j := at_ + 16) (by rw [length_toLe])
  have h24 := h16.right (j := at_ + 24) (by rw [hfd])
  have hbody := h24.right (j := at_ + max (24 + e.extra.length) 24) (by omega)
  have hlen : readLe buf 4 at_ = some e.length := readLe_at h.left e.fits
  have hmeta : readLe buf 2 (at_ + 6) = some (24 + e.extra.length) := readLe_at h6.left hextra
  have hmask : readLe buf 8 (at_ + 8) = some e.mask := readLe_at h8.left e.maskFits
  have hlong : 24 + e.extra.length + e.body.bytes.length = e.length := rfl
  unfold parseFrom
  rw [if_pos (by omega), hlen]
  simp only [Option.bind_eq_bind, Option.bind_some]
  rw [if_neg (by omega), hmeta, hmask]
  simp only [Option.bind_some]
  have hover := e.overflows
  unfold KernelEvent.seen
  cases hb : e.body with
  | overflow more =>
    rw [if_pos (hover.mpr (by rw [hb]; rfl)), hrest]
    rfl
  | named before record after =>
    rw [if_neg (fun hm => by have := hover.mp hm; rw [hb] at this; cases this)]
    rw [hb] at hbody hlong
    have hbl := length_le_flatMap_bytes before
    simp only [Body.bytes, List.length_append, record.length_bytes] at hlong
    rw [parseInfo_at before (buf.length + 1) _ (by omega) hbody (by omega), hrest]
    rfl

theorem parseFrom_events (events : List KernelEvent) : ∀ {buf : Str} {at_ fuel : Nat},
    events.length < fuel → At buf at_ (events.flatMap KernelEvent.bytes) →
    at_ + (events.flatMap KernelEvent.bytes).length = buf.length →
    parseFrom fuel buf at_ = some (events.flatMap fun e => e.seen.toList,
      !events.any fun e => e.body.isOverflow) := by
  induction events with
  | nil =>
    intro buf at_ fuel hfuel h hend
    obtain ⟨fuel, rfl⟩ : ∃ n, fuel = n + 1 := ⟨fuel - 1, by simp at hfuel; omega⟩
    exact if_neg (by simp at hend; omega)
  | cons e events ih =>
    intro buf at_ fuel hfuel h hend
    obtain ⟨fuel, rfl⟩ : ∃ n, fuel = n + 1 := ⟨fuel - 1, by simp at hfuel; omega⟩
    rw [List.flatMap_cons] at h
    rw [List.flatMap_cons, List.length_append, e.length_bytes] at hend
    have hrest := ih (by simpa using hfuel)
      (h.right (j := at_ + e.length) (by rw [e.length_bytes])) (by omega)
    rw [parseFrom_at h.left hrest, List.flatMap_cons, List.any_cons, Bool.not_or]

theorem parse_events (events : List KernelEvent) :
    parseEvents (events.flatMap KernelEvent.bytes) =
      some (events.flatMap fun e => e.seen.toList, !events.any fun e => e.body.isOverflow) := by
  refine parseFrom_events events ?_ (at_zero _) (Nat.zero_add _)
  have hlen : events.length ≤ (events.flatMap KernelEvent.bytes).length := by
    induction events with
    | nil => exact Nat.le_refl 0
    | cons e events ih =>
      have hlong : 24 ≤ e.length := by
        unfold KernelEvent.length
        omega
      rw [List.flatMap_cons, List.length_append, List.length_cons, e.length_bytes]
      omega
  omega

/-! ## What the events report -/

/-- The entries that events name, each with its event's mask. -/
def namedIn (events : List KernelEvent) : List (Nat × NameRecord) :=
  events.filterMap fun e =>
    match e.body with
    | .overflow _ => none
    | .named _ record _ => some (e.mask, record)

/-- What is seen is what the event says: the directory's inode, file system and subvolume, and the
name as the walk spells it. -/
structure Announces (n : Nat × NameRecord) (s : Seen) : Prop where
  handle : Layout (toI32 n.2.handleType) n.2.handle s.parentIno s.parentFs.root
  fsid : s.parentFs.fsid = n.2.fsid
  name : s.name = fromBytes n.2.name
  mask : s = seenOf n.1 s.parentIno s.parentFs s.name

/-- A handle whose layout is known and a name that is UTF-8. -/
def Readable (n : Nat × NameRecord) : Prop :=
  (∃ ino root, Layout (toI32 n.2.handleType) n.2.handle ino root) ∧ n.2.name ≠ [] ∧ IsText n.2.name

theorem okText_eq_some {b : Str} {cs : Text} (h : okText b = some cs) :
    utf8 cs = b ∧ fromBytes b = cs := by
  unfold okText at h
  split at h
  · rename_i s hd
    rw [← Option.some.inj h]
    refine ⟨(encode_of_decode hd).symm, ?_⟩
    unfold fromBytes normalise
    rw [hd]
  · cases h

theorem okText_utf8 (cs : Text) : okText (utf8 cs) = some cs := by
  unfold okText
  have hd : decode (utf8 cs) = .ok cs := decode_encode cs
  rw [hd]

/-- What the code makes of a record is what the record says. -/
theorem announces_of_seen {n : Nat × NameRecord} {s : Seen} (h : n.2.seen n.1 = some s) :
    Announces n s ∧ Readable n := by
  unfold NameRecord.seen at h
  obtain ⟨ino, hino, h⟩ := Option.bind_eq_some_iff.mp h
  split at h
  · rename_i hpos
    obtain ⟨cs, hcs, rfl⟩ := Option.map_eq_some_iff.mp h
    obtain ⟨htext, hname⟩ := okText_eq_some hcs
    have hl := layout_iff.mpr ⟨hino, rfl⟩
    exact ⟨⟨hl, rfl, hname.symm, rfl⟩, ⟨_, _, hl⟩, List.length_pos_iff.mp hpos, cs, htext⟩
  · cases h

theorem seen_of_readable {n : Nat × NameRecord} (h : Readable n) : (n.2.seen n.1).isSome = true := by
  obtain ⟨⟨ino, root, hl⟩, hne, cs, htext⟩ := h
  unfold NameRecord.seen
  rw [(layout_iff.mp hl).1, Option.bind_some, if_pos (List.length_pos_iff.mpr hne), ← htext,
    okText_utf8]
  rfl

theorem filterMap_seen (events : List KernelEvent) :
    events.filterMap KernelEvent.seen = (namedIn events).filterMap fun n => n.2.seen n.1 := by
  unfold namedIn
  rw [List.filterMap_filterMap]
  refine List.filterMap_congr fun e _ => ?_
  unfold KernelEvent.seen
  cases e.body with
  | overflow more => rfl
  | named before record after => rfl

theorem forall₂_filterMap_iff {α β : Type*} {R : α → β → Prop} {f : α → Option β}
    (h : ∀ a b, f a = some b → R a b) (l : List α) :
    List.Forall₂ R l (l.filterMap f) ↔ ∀ a ∈ l, (f a).isSome = true := by
  constructor
  · intro hall
    exact List.filterMap_length_eq_length.mp hall.length_eq.symm
  · intro hall
    induction l with
    | nil => exact List.Forall₂.nil
    | cons a l ih =>
      obtain ⟨b, hb⟩ := Option.isSome_iff_exists.mp (hall a List.mem_cons_self)
      rw [List.filterMap_cons_some hb]
      exact .cons (h a b hb) (ih fun x hx => hall x (List.mem_cons_of_mem _ hx))

/-- **The buffer is decoded safely, and completely where its names are UTF-8**: every buffer is read
to an end with nothing outside it; of events as the kernel writes them an overflow is always told,
and what is seen is one report for each name, in order, exactly where each has a handle of a known
layout and a name that is not empty and is UTF-8. -/
theorem announces_iff (buf : Str) (events : List KernelEvent) :
    (∃ r, parseEvents buf = some r) ∧
      ∃ out ok, parseEvents (events.flatMap KernelEvent.bytes) = some (out, ok) ∧
        (ok = false ↔ ∃ e ∈ events, e.body.isOverflow = true) ∧
        (List.Forall₂ Announces (namedIn events) out ↔ ∀ n ∈ namedIn events, Readable n) := by
  refine ⟨parse_total buf, _, _, parse_events events, ?_, ?_⟩
  · rw [Bool.not_eq_false', List.any_eq_true]
  · rw [← List.filterMap_eq_flatMap_toList, filterMap_seen,
      forall₂_filterMap_iff fun n s h => (announces_of_seen h).1]
    refine forall₂_congr fun n hn => ⟨fun h => ?_, seen_of_readable⟩
    obtain ⟨s, hs⟩ := Option.isSome_iff_exists.mp h
    exact (announces_of_seen hs).2

/-- A file made, in the directory with inode 7. -/
def created (name : Str) (hname : 0 ∉ name ∧ name.length < 256) : KernelEvent where
  vers := 3
  reserved := 0
  mask := FAN_CREATE
  fdPid := toLe 8 0
  extra := []
  body := .named []
    { pad := 0
      fsid := (1, 2)
      handleType := 1
      handle := toLe 4 7 ++ toLe 4 0
      name := name
      filling := []
      fsidFits := by decide
      typeFits := by decide
      noNul := hname.1
      fits := by simp; omega } []
  maskFits := by decide
  overflows := by
    rw [Body.isOverflow]
    decide
  fdPidFits := rfl
  extraFits := by decide
  fits := by
    simp only [Body.bytes, List.flatMap_nil, List.nil_append, List.length_append,
      NameRecord.length_bytes, NameRecord.length, List.length_nil, length_toLe]
    omega

/-- A name of one byte that is not UTF-8 is dropped. -/
theorem not_announces :
    ¬ ∀ events : List KernelEvent, ∃ out ok,
      parseEvents (events.flatMap KernelEvent.bytes) = some (out, ok) ∧
        List.Forall₂ Announces (namedIn events) out := by
  intro h
  obtain ⟨out, ok, hparse, hall⟩ := h [created [0xFF] (by decide)]
  have hnone : parseEvents ([created [0xFF] (by decide)].flatMap KernelEvent.bytes) =
      some ([], true) := by decide
  rw [hnone, Option.some.injEq, Prod.mk.injEq] at hparse
  rw [← hparse.1] at hall
  have := hall.length_eq
  cases this

end Scour
