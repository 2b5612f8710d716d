import Mathlib.Logic.Relation
import Scour.Lib.Tree
import Scour.Lib.Utf8
import Scour.Path

/-!
# The trash

A deletion is a move into `files/` of a trash directory.  A name there is claimed by creating its
info file, which must not exist, and given up again where the move does not come about.

`World` is the file system with any number of calls under way, and `Step` one file step of one call.
-/

namespace Scour.Trash

open Search (Tree)

/-! ## The names -/

/-- The names from the root, none of which is a link. -/
abbrev Place := List Str

/-- The bytes of a string that has been read as UTF-8 as far as it is. -/
def toStringLossy (s : Str) : Str := Search.encodeText (Search.lossy s)

/-- The name before and behind the last dot that is not the first letter. -/
def splitExtension (name : Str) : Str × Str :=
  match name.reverse.findIdx? (· = 46) with
  | some k => if k + 1 < name.length then
      (name.take (name.length - 1 - k), name.drop (name.length - k)) else (name, [])
  | none => (name, [])

example : splitExtension (str "notes.tar.gz") = (str "notes.tar", str "gz") := by decide +kernel

/-- The name that is tried after `n` others. -/
def candidate (name : Str) (n : Nat) : Str :=
  let (stem, ext) := splitExtension name
  if n = 0 then name
  else if ext = [] then stem ++ str "." ++ str (toString n)
  else stem ++ str "." ++ str (toString n) ++ str "." ++ ext

/-- A place as text. -/
def display (p : Place) : Str := p.flatMap fun name => 47 :: name

/-- The volume a trash directory is for. -/
def topDirOf (trash : Place) : Option Place :=
  match trash.getLast? with
  | none => none
  | some name =>
      if str ".Trash-" <+: toStringLossy name then some trash.dropLast
      -- `.Trash/$uid`: two levels up
      else if trash.dropLast.getLast? = some (str ".Trash") then some trash.dropLast.dropLast
      else none

/-- The path that an info file has: relative to the volume, where the trash is a volume's. -/
def recorded (dir path : Place) : Str :=
  match topDirOf dir with
  | some top => if top <+: path then (display (path.drop top.length)).drop 1 else display path
  | none => display path

/-- A digit of sixteen. -/
def hexDigit (n : Nat) : UInt8 := if n < 10 then (48 + n).toUInt8 else (55 + n).toUInt8

/-- A byte that stands for itself in a path. -/
def isPlain (b : UInt8) : Bool :=
  (65 ≤ b && b ≤ 90) || (97 ≤ b && b ≤ 122) || (48 ≤ b && b ≤ 57) || b = 45 || b = 95 || b = 46 ||
    b = 126 || b = 47

/-- Percent-encoding. -/
def encode (s : Str) : Str :=
  s.flatMap fun b =>
    if isPlain b then [b] else [37, hexDigit (b.toNat / 16), hexDigit (b.toNat % 16)]

/-- What an info file says. -/
def body (dir path : Place) (stamp : Str) : Str :=
  str "[Trash Info]\nPath=" ++ encode (toStringLossy (recorded dir path)) ++
    str "\nDeletionDate=" ++ stamp ++ str "\n"

/-! ## The file system -/

inductive Node where
  | dir
  | link (target : Str)
  /-- A file, and the call that created it as its info file, with the number of the name. -/
  | file (bytes : Str) (made : Option (Nat × Nat))
deriving DecidableEq

abbrev Files := Tree Str Node

/-- A file gets other bytes, wherever it stands. -/
def rewrite (t : Files) (made : Nat × Nat) (bytes : Str) : Files := fun p =>
  match t p with
  | some (.file old (some by_)) =>
      if by_ = made then some (.file bytes (some by_)) else some (.file old (some by_))
  | x => x

/-! ## The calls -/

/-- Where a call stands. -/
inductive Pc where
  | start
  /-- About to create the info file of a name. -/
  | claiming (n : Nat)
  /-- The info file is created: about to look at `files/`. -/
  | looking (n : Nat)
  /-- The name is taken there: about to remove the info file. -/
  | unclaiming (n : Nat)
  | writing (n : Nat)
  | moving (n : Nat)
  /-- No renaming without replacing: about to look first, and then to rename. -/
  | peeking (n : Nat)
  | renaming (n : Nat)
  /-- About to remove the info file, and to try the next name or to fail. -/
  | forgetting (n : Nat) (retry : Bool)
  | ok (n : Nat)
  | failed
deriving DecidableEq

/-- The calls on one trash directory. -/
structure Setup where
  dir : Place
  /-- The path each call is for. -/
  src : Nat → Place
  /-- The time each call writes down. -/
  stamp : Nat → Str
  /-- Whether the kernel and the file system can rename without replacing. -/
  noReplace : Bool

namespace Setup

variable (S : Setup)

def filesDir : Place := S.dir ++ [str "files"]

def infoDir : Place := S.dir ++ [str "info"]

/-- The name that a call tries after `n` others. -/
def name (i n : Nat) : Str := candidate (toStringLossy ((S.src i).getLast?.getD [])) n

/-- Where a call's file lands. -/
def landed (i n : Nat) : Place := S.filesDir ++ [S.name i n]

/-- The info file of that name. -/
def info (i n : Nat) : Place := S.infoDir ++ [S.name i n ++ str ".trashinfo"]

def body (i : Nat) : Str := Trash.body S.dir (S.src i) (S.stamp i)

end Setup

/-- A step of a call that changes no file. -/
inductive Turn (S : Setup) (t : Files) (i : Nat) : Pc → Pc → Prop
  | begin : S.src i ≠ [] → t (S.src i) ≠ none → Turn S t i .start (.claiming 0)
  /-- No name, nothing there, or nowhere to put it. -/
  | refuse : Turn S t i .start .failed
  | taken {n} : n < 10000 → t (S.info i n) ≠ none → Turn S t i (.claiming n) (.claiming (n + 1))
  /-- Another failure to create the info file. -/
  | uncreated {n} : n < 10000 → Turn S t i (.claiming n) .failed
  | exhausted {n} : 10000 ≤ n → Turn S t i (.claiming n) .failed
  | there {n} : t (S.landed i n) ≠ none → Turn S t i (.looking n) (.unclaiming n)
  /-- Nothing is there, or the look failed. -/
  | absent {n} : Turn S t i (.looking n) (.writing n)
  | onto {n} : t (S.landed i n) ≠ none → Turn S t i (.moving n) (.forgetting n true)
  | unmoved {n} : Turn S t i (.moving n) (.forgetting n false)
  /-- The flag is not known, or the move would be into what is moved. -/
  | unable {n} : S.noReplace = false ∨ S.src i <+: S.landed i n →
      Turn S t i (.moving n) (.peeking n)
  | seen {n} : t (S.landed i n) ≠ none → Turn S t i (.peeking n) (.forgetting n true)
  | unseen {n} : Turn S t i (.peeking n) (.renaming n)
  | unrenamed {n retry} : Turn S t i (.renaming n) (.forgetting n retry)

/-- The removal of an info file, and where the call goes on, whether it succeeds or not. -/
inductive Drops : Pc → Nat → Pc → Prop
  | unclaim {n} : Drops (.unclaiming n) n (.claiming (n + 1))
  | retry {n} : Drops (.forgetting n true) n (.claiming (n + 1))
  | fail {n} : Drops (.forgetting n false) n .failed

/-- A file that was moved: by which call, to the name it tried after how many others, and what. -/
structure Move where
  call : Nat
  number : Nat
  tree : Files

/-- The file system and the calls, with what was moved and the info files whose removal failed. -/
structure World where
  files : Files
  pc : Nat → Pc
  moves : List Move
  kept : List (Nat × Nat)

def World.goTo (w : World) (i : Nat) (b : Pc) : World := { w with pc := Function.update w.pc i b }

/-- What a rename may replace. -/
def replaceable (t : Files) (src dest : Place) : Prop :=
  t dest = none ∨ t src ≠ some .dir ∧ t dest ≠ some .dir ∨
    t src = some .dir ∧ t dest = some .dir ∧ ∀ r ≠ [], t (dest ++ r) = none

/-- A call's file is renamed. -/
def World.move (S : Setup) (w : World) (i n : Nat) : World where
  files := w.files.move (S.src i) (S.landed i n)
  pc := Function.update w.pc i (.ok n)
  moves := w.moves ++ [⟨i, n, w.files.below (S.src i)⟩]
  kept := w.kept

/-- A file step of one call. -/
inductive Step (S : Setup) : World → World → Prop
  | turn {w i b} : Turn S w.files i (w.pc i) b → Step S w (w.goTo i b)
  | create {w i n} : w.pc i = .claiming n → n < 10000 → w.files (S.info i n) = none →
      w.files S.infoDir = some .dir →
      Step S w { w.goTo i (.looking n) with
        files := w.files.put (S.info i n) (some (.file [] (some (i, n)))) }
  /-- Written and brought to the disk. -/
  | write {w i n} : w.pc i = .writing n →
      Step S w { w.goTo i (.moving n) with files := rewrite w.files (i, n) (S.body i) }
  /-- Not written, or in part. -/
  | unwritten {w i n} (bytes : Str) : w.pc i = .writing n →
      Step S w { w.goTo i (.forgetting n false) with files := rewrite w.files (i, n) bytes }
  | remove {w i n b} : Drops (w.pc i) n b → w.files (S.info i n) ≠ some .dir →
      Step S w { w.goTo i b with files := w.files.put (S.info i n) none }
  | keep {w i n b} : Drops (w.pc i) n b →
      Step S w { w.goTo i b with kept := (i, n) :: w.kept }
  | move {w i n} : w.pc i = .moving n → S.noReplace = true → w.files (S.src i) ≠ none →
      w.files (S.landed i n) = none → ¬ S.src i <+: S.landed i n →
      w.files S.filesDir = some .dir → Step S w (w.move S i n)
  | rename {w i n} : w.pc i = .renaming n → w.files (S.src i) ≠ none →
      replaceable w.files (S.src i) (S.landed i n) → ¬ S.src i <+: S.landed i n →
      w.files S.filesDir = some .dir → Step S w (w.move S i n)

/-- Any number of steps, of any calls. -/
abbrev Reaches (S : Setup) : World → World → Prop := Relation.ReflTransGen (Step S)

/-- Before any call: the trash directory is there, and no info file is one of a call. -/
structure Initial (S : Setup) (w : World) : Prop where
  filesDir : w.files S.filesDir = some .dir
  infoDir : w.files S.infoDir = some .dir
  unmade : ∀ p bytes made, w.files p ≠ some (.file bytes (some made))
  pc : ∀ i, w.pc i = .start
  moves : w.moves = []
  kept : w.kept = []

end Scour.Trash
