import Scour.PrefixSet

/-!
# Entries, changes and the digest of a path

`Entry` is one row as a source produces it, `Change` what a source reports.  Of an entry's identity
the index reads the source only: the rest is derived from the path (`EntryId::path_hash`), so `Key`
here is the pair of source and path that a row is unique under.

`pathDigest` is FxHash's finaliser over eight-byte words.  Two sources never share the digest of one
path (`pathDigest_source_injective`): each round is a bijection of the running hash.  Two paths of
one source may (`pathDigest_collision`).
-/

namespace Scour

abbrev SourceId := UInt32

/-- Everything measurable about an entry. -/
@[ext]
structure Meta where
  size : Int
  mtime : Int
  ctime : Int
  atime : Int
  mode : Int
  uid : Int
  gid : Int
  disk : Int
  items : Int
  links : Int
  /-- A file has at least the name it was found under. -/
  named : 1 ≤ links
deriving DecidableEq

/-- Nothing known: no stat was made, or it failed. -/
def Meta.UNKNOWN : Meta := ⟨0, 0, 0, 0, 0, 0, 0, 0, -1, 1, by decide⟩

/-- One entry as a source produces it. -/
structure Entry where
  source : SourceId
  path : Path
  isDir : Bool
  info : Meta
deriving DecidableEq

/-- A path spelled out; `/` where it is none. -/
def Path.of (s : String) : Path :=
  if h : isPath (str s) = true then ⟨str s, h⟩ else ⟨[slash], by decide⟩

/-- A file nothing is known of but where it is. -/
def Entry.file (s : String) : Entry := ⟨0, .of s, false, .UNKNOWN⟩

/-- What a row is unique under. -/
abbrev Key := SourceId × Path

def Entry.key (e : Entry) : Key := (e.source, e.path)

/-- What a source reports when the world moves. -/
inductive Change where
  | upsert (e : Entry)
  | removeSubtree (path : Path)
  | rescan (path : Str)
deriving DecidableEq

/-! ## The digest -/

def SEED : UInt64 := 0x517cc1b727220a95

/-- `u64::from_le_bytes` of at most eight bytes, the missing ones zero. -/
def leWord : Str → UInt64
  | [] => 0
  | b :: rest => b.toUInt64 ||| (leWord rest <<< 8)

def rotateLeft (h n : UInt64) : UInt64 := (h <<< n) ||| (h >>> (64 - n))

/-- `chunks(8)`, `fuel` bounding the number of chunks. -/
def chunks8 : Nat → Str → List Str
  | 0, _ => []
  | fuel + 1, p => if p.isEmpty then [] else p.take 8 :: chunks8 fuel (p.drop 8)

def digestStep (h : UInt64) (chunk : Str) : UInt64 := (rotateLeft h 5 ^^^ leWord chunk) * SEED

/-- `path_digest`: a stable 64-bit digest of a source and a path. -/
def pathDigest (source : SourceId) (path : Str) : UInt64 :=
  (chunks8 path.length path).foldl digestStep source.toUInt64

/-- The number the index's own tests pin it to. -/
example : pathDigest 0 (str "/a/b") = 0xe8e92dc1109d665b := by decide

/-- `IdMap::key_of`: the half of the digest that goes in the identity table. -/
def keyOf (source : SourceId) (path : Str) : UInt32 := (pathDigest source path >>> 32).toUInt32

def Entry.digest (e : Entry) : UInt64 := pathDigest e.source e.path.bytes

theorem rotateLeft_rotateLeft (x : UInt64) : rotateLeft (rotateLeft x 5) 59 = x := by
  unfold rotateLeft
  apply UInt64.toBitVec_inj.mp
  simp
  ext i hi
  simp
  grind

/-- The multiplicative inverse of an odd number. -/
theorem seed_mul_inverse : SEED * 0x2040003d780970bd = 1 := by decide

theorem digestStep_injective (chunk : Str) {a b : UInt64}
    (h : digestStep a chunk = digestStep b chunk) : a = b := by
  have hmul : rotateLeft a 5 ^^^ leWord chunk = rotateLeft b 5 ^^^ leWord chunk := by
    have := congrArg (· * (0x2040003d780970bd : UInt64)) h
    simpa only [digestStep, UInt64.mul_assoc, seed_mul_inverse, UInt64.mul_one] using this
  have hxor : rotateLeft a 5 = rotateLeft b 5 := by
    have := congrArg (· ^^^ leWord chunk) hmul
    simpa only [UInt64.xor_assoc, UInt64.xor_self, UInt64.xor_zero] using this
  rw [← rotateLeft_rotateLeft a, hxor, rotateLeft_rotateLeft]

theorem foldl_digestStep_injective (chunks : List Str) :
    ∀ {a b : UInt64}, chunks.foldl digestStep a = chunks.foldl digestStep b → a = b := by
  induction chunks with
  | nil => exact fun h => h
  | cons c chunks ih => exact fun h => digestStep_injective c (ih h)

/-- For one path, the digest tells the source. -/
theorem pathDigest_source_injective {s t : SourceId} (p : Str)
    (h : pathDigest s p = pathDigest t p) : s = t := by
  have h64 := foldl_digestStep_injective _ h
  apply UInt32.toNat_inj.mp
  have := congrArg UInt64.toNat h64
  simpa using this

/-- Two ordinary names in one directory that share a digest. -/
theorem pathDigest_collision :
    pathDigest 0 (str "/w/faaaaeaaaaaaa") = pathDigest 0 (str "/w/faaaizaaaaaaa") := by decide

end Scour
