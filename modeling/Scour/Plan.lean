import Scour.Query
import Scour.Trigram

/-!
# A query compiled against a segment

`View` is the files a search reads, opened together.  `Plan.compile` resolves an `Ast` against it
into clauses of tests, cheapest first, with the blocks the trigram index leaves; `Plan.accepts` tests
a row; `blocksWorthOpening` is the blocks a search looks at, by the candidates, the live bits and the
zone map.

What the code takes from elsewhere is a `Platform`: the case table, the regular expressions, and two
tables of its own that nothing here depends on, the one behind `kind_of` and the share of blocks
above which a posting list is dropped.
-/

namespace Scour

/-- What the search rests on and this development leaves open. -/
structure Platform where
  case : CaseTable
  /-- `kind_of`: is it a directory, its name, its mode. -/
  kindOf : Bool → Str → Int → Kind
  /-- The share of the blocks above which a trigram is in too many of them. -/
  tooCommon : Nat → Nat
  /-- A compiled regular expression, -/
  Re : Type
  /-- `Regex::new`, with the message of what will not compile, -/
  regexNew : Text → Except Text Re
  /-- and `Regex::is_match`. -/
  isMatch : Re → Text → Bool
  /-- Is `SCOUR_NO_TRIGRAM` set? -/
  noTrigram : Bool

/-- ASCII names of no known extension, no regular expressions, and two blocks in five. -/
def Platform.plain : Platform where
  case := .asciiOnly
  kindOf isDir _ _ := if isDir then .dir else .file
  tooCommon blocks := blocks * 2 / 5
  Re := Empty
  regexNew _ := .error []
  isMatch _ _ := false
  noTrigram := false

/-- The files a search reads, opened together. -/
structure View where
  seg : Segment
  /-- The names, folded when the segment was written. -/
  folded : List Str
  /-- The kind column. -/
  kinds : List Int
  tri : TrigramIndex
  /-- One bit a row, set when the row is still live. -/
  alive : Str

/-- A bitmap with exactly `rows` bits set. -/
def aliveBits (rows : Nat) : Str :=
  List.replicate (rows / 8) (0xff : UInt8) ++
    if rows % 8 = 0 then [] else [(1 <<< UInt8.ofNat (rows % 8)) - 1]

/-- What a search reads of a segment over entries in the stored order, every row alive. -/
def View.buildSorted (P : Platform) (es : List Entry) : View :=
  let folded := es.map fun e => Folded.foldBytes P.case e.name
  { seg := (Scour.buildSorted es).seg
    folded := folded
    kinds := es.map fun e => ((P.kindOf e.isDir e.name e.info.mode).asU8 : Int)
    tri := TrigramIndex.build P.tooCommon folded
    alive := aliveBits es.length }

def View.build (P : Platform) (es : List Entry) : View :=
  View.buildSorted P (es.insertionSort storedLe)

namespace View

def rows (v : View) : Nat := min v.seg.cols.length v.seg.names.length

/-- Is any row of this block still live? -/
def blockAlive (v : View) (block : Nat) : Bool :=
  let lo := block * BLOCK / 8
  let hi := min (lo + BLOCK / 8) v.alive.length
  if lo ≤ hi then ((v.alive.drop lo).take (hi - lo)).any (· != 0)
  -- an absent bitmap means nothing has been deleted yet
  else v.alive.isEmpty

def isAlive (v : View) (row : Nat) : Bool :=
  match v.alive[row / 8]? with
  | some byte => byte &&& (1 <<< UInt8.ofNat (row % 8)) != 0
  | none => v.alive.isEmpty

/-- `seg.num(Field::Kind, row)`. -/
def kind (v : View) (row : Nat) : Int := v.kinds.getD row 0

/-- The kind column's range over one block. -/
def kindRange (v : View) (block : Nat) : Option (Int × Int) :=
  match (v.kinds.drop (block * BLOCK)).take BLOCK with
  | [] => none
  | k :: ks => some (ks.foldl min k, ks.foldl max k)

/-- The row's name as a walk hands it over. -/
def foldedName (v : View) (row : Nat) : Str := v.folded.getD row []

end View

/-! ## Path terms -/

/-- Which directories a path term can be answered from. -/
structure PathSet where
  /-- Directories holding the term anywhere in them. -/
  whole : List Bool
  /-- Directories ending with the part of the term before its last slash. -/
  ending : List Bool
  /-- What a name must start with, for those. -/
  tail : Str
  /-- The term again, when it could be in the name. -/
  inName : Option Str
  /-- How many directories before each number can hold a match; empty when the name could answer. -/
  reach : List Nat

namespace PathSet

/-- The running count of the directories that are flagged. -/
def countUp : Nat → List Bool → List Nat
  | n, [] => [n]
  | n, b :: bs => n :: countUp (n + b.toNat) bs

def build (T : CaseTable) (term : Str) (dirs : DirTable) : PathSet :=
  let (head, tail) :=
    match rsplitOnce term with
    | some (head, tail) => (head, tail)
    | none => (term, [])
  let whole := dirs.paths.map fun dir => decide (term <:+: Folded.foldBytes T dir)
  let ending := dirs.paths.map fun dir => decide (head <:+ Folded.foldBytes T dir)
  let inName := if slash ∈ term then none else some term
  { whole := whole
    ending := ending
    tail := tail
    inName := inName
    reach := if inName.isNone then countUp 0 (List.zipWith (· || ·) whole ending) else [] }

/-- Can a block whose directory numbers run from `lo` to `hi` hold a match? -/
def admits (s : PathSet) (lo hi : Nat) : Bool :=
  if s.reach.isEmpty then true
  else
    match s.reach[lo]?, s.reach[hi + 1]? with
    | some below, some through => through > below
    -- a number past the table: say yes rather than guess
    | _, _ => true

end PathSet

/-! ## Tests -/

/-- One condition, compiled against a segment. -/
inductive Test (P : Platform) where
  | num (field : Field) (cmp : Cmp) (value span : Int64)
  | dirIn (scope : DirScope)
  | bits (field : Field) (mask want : Int64) (any : Bool)
  | depth (depths : List Nat) (cmp : Cmp) (value : Int64)
  | nameLen (cmp : Cmp) (value : Int64)
  | nameHasCased (want : Text)
  | regex (re : P.Re)
  /-- A bitset over the discriminants. -/
  | kindIn (mask : Nat)
  | nameHas (needle : Str)
  | nameGlob (p : Text)
  /-- `dirs` is whether a directory can have an extension. -/
  | ext (list : List Text) (dirs : Bool)
  | pathIn (set : PathSet)
  /-- Matches nothing. -/
  | never

/-- What a query cannot be answered with. -/
inductive QueryError where
  | querySyntax (expected : Text)
  | contentNotIndexed
deriving DecidableEq

namespace Test

variable {P : Platform}

/-- Roughly what this costs to evaluate. -/
def cost : Test P → Nat
  | .never => 0
  | .num .. | .dirIn _ | .kindIn _ | .bits .. => 1
  | .depth .. => 2
  | .ext .. => 3
  | .nameHas _ | .nameGlob _ => 10
  | .nameLen .. => 4
  | .nameHasCased _ => 20
  | .pathIn _ => 8
  | .regex _ => 60

/-- Does answering this read the name? -/
def readsName : Test P → Bool
  | .nameHas _ | .nameGlob _ | .ext .. | .pathIn _ | .regex _ | .nameLen .. | .nameHasCased _ => true
  | _ => false

end Test

/-- The suffix after the last dot, with no restriction on its length. -/
def extension (name : Str) : Str :=
  let suffix := (name.reverse.takeWhile (· != 46)).reverse
  let at_ := name.length - suffix.length - 1
  if 46 ∈ name ∧ 0 < at_ ∧ 0 < suffix.length then suffix else []

/-- Whether the spelling has an extension: one to twelve bytes after the last dot. -/
def extensionIsEligible (name : Str) : Bool :=
  let suffix := (name.reverse.takeWhile (· != 46)).reverse
  let at_ := name.length - suffix.length - 1
  46 ∈ name ∧ 0 < at_ ∧ 1 ≤ suffix.length ∧ suffix.length ≤ 12

/-- The row's folded extension, with eligibility decided before the fold. -/
def foldedExtension (spelled folded : Str) : Str :=
  if extensionIsEligible spelled then extension folded else []

/-- The number of `/` in a directory's path, as far as it is counted. -/
def DirTable.depths (t : DirTable) : List Nat := t.paths.map fun p => min (p.count slash) 65535

/-- The column a query names. -/
def numField : NumField → Field
  | .mode => .mode
  | .uid => .uid
  | .gid => .gid
  | .items => .items
  | .disk => .disk

/-- The column a temporal term is about. -/
def timeField : TimeField → Field
  | .modified => .mtime
  | .created => .ctime
  | .accessed => .atime

/-- Does a comparison hold of a number?  A dated `=` is a half-open window of `span`. -/
def cmpHolds (cmp : Cmp) (value span : Int64) (got : Int) : Bool :=
  if cmp = .eq ∧ 1 < span then value.toInt ≤ got && got < (value + span).toInt
  else cmp.holds got value.toInt

def maskHolds (mask want : Int64) (any : Bool) (got : Int) : Bool :=
  let got := Int64.ofInt got &&& mask
  if any then got != 0 else got == want

/-- `compile_match`. -/
def compileMatch (P : Platform) (v : View) : Match → Except QueryError (Test P)
  | .nameContains t => .ok (.nameHas (utf8 t))
  | .nameGlob p =>
      match p with
      | '*' :: '.' :: ext =>
          if ext ≠ [] ∧ ¬ (ext.any fun c => c == '*' || c == '?' || c == '.') then
            -- a pattern over the name, so a directory called `mod.rs` matches
            .ok (.ext [ext] true)
          else .ok (.nameGlob p)
      | _ => .ok (.nameGlob p)
  | .pathContains t => .ok (.pathIn (PathSet.build P.case (utf8 t) v.seg.dirs))
  | .ext list => .ok (.ext list false)
  | .isDir want => .ok (.num .isDir .eq (if want then 1 else 0) 1)
  | .kind k => .ok (.kindIn (k.foldl (fun m k => m ||| 1 <<< k.asU8) 0))
  | .size cmp n => .ok (.num .size cmp n 1)
  | .nameLen cmp n => .ok (.nameLen cmp n)
  | .nameContainsCased t => .ok (.nameHasCased t)
  | .depth cmp n => .ok (.depth v.seg.dirs.depths cmp n)
  | .regex p =>
      match P.regexNew p with
      | .ok re => .ok (.regex re)
      | .error e => .error (.querySyntax ("a regular expression: ".toList ++ e))
  | .num f cmp n => .ok (.num (numField f) cmp n 1)
  | .bits f mask want any => .ok (.bits (numField f) mask want any)
  | .time f cmp n => .ok (.num (timeField f) cmp n 86400)
  | .under d =>
      let scope := v.seg.dirs.subtree (utf8 d)
      .ok (if scope.isEmpty then .never else .dirIn scope)
  | .parentIs d =>
      match v.seg.dirs.exact (utf8 d) with
      | some id => .ok (.dirIn ⟨some id, (id, id)⟩)
      | none => .ok .never
  | .contentContains _ => .error .contentNotIndexed

/-- The path test of one row, whose name arrives folded. -/
def PathSet.holds (s : PathSet) (dir : Nat) (name : Str) : Bool :=
  s.whole.getD dir false
    -- a term with no separator in it can be in the name
    || s.inName.any (fun needle => decide (needle <:+: name))
    -- and one with a separator can straddle the last
    || (s.ending.getD dir false && decide (s.tail <+: name))

/-- Test one condition against one row.  `name` arrives folded. -/
def evaluate {P : Platform} (v : View) (row : Nat) (name : Str) : Test P → Bool
  | .never => false
  | .num field cmp value span => cmpHolds cmp value span (v.seg.num field row)
  | .dirIn scope => scope.contains (v.seg.dirId row)
  | .depth depths cmp value =>
      -- a row sits one level below the directory holding it
      let d := match depths[v.seg.dirId row]? with
        | some d => d + 1
        | none => 0
      cmp.holds d value.toInt
  | .nameLen cmp value =>
      let n := match fromUtf8 name with
        | some cs => cs.length
        | none => name.length
      cmp.holds n value.toInt
  | .nameHasCased want =>
      match v.seg.names[row]? with
      | some written => decide (utf8 want <:+: written)
      | none => false
  | .regex re =>
      match fromUtf8 name with
      | some cs => P.isMatch re cs
      | none => false
  | .bits field mask want any => maskHolds mask want any (v.seg.num field row)
  | .kindIn mask =>
      let k := v.kind row
      0 ≤ k && k < 16 && mask &&& 1 <<< k.toNat != 0
  | .ext list dirs =>
      let ext := foldedExtension (v.seg.names.getD row []) name
      ext != [] && list.any (fun e => utf8 e == ext) && (dirs || v.seg.num .isDir row == 0)
  | .nameHas needle => decide (needle <:+: name)
  | .nameGlob p =>
      match fromUtf8 name with
      | some cs => globMatches p cs
      | none => false
  | .pathIn set => set.holds (v.seg.dirId row) name

/-! ## Clauses and plans -/

/-- Alternatives ORed together; the flag is negation. -/
structure Clause (P : Platform) where
  alts : List (Bool × Test P)

/-- A query, compiled. -/
structure Plan (P : Platform) where
  clauses : List (Clause P)
  /-- Blocks the walk has to visit, when the trigram index could say. -/
  candidates : Option (List Nat)

variable {P : Platform}

/-- Can `cmp value` hold for any number in `[lo, hi]`? -/
def admits (cmp : Cmp) (value span : Int64) (lo hi : Int) : Bool :=
  match cmp with
  | .eq =>
      -- a dated `=` is a half-open window, not a point
      if 1 < span then
        value.toInt ≤ hi && lo < min (value.toInt + span.toInt) Int64.maxValue.toInt
      else lo ≤ value.toInt && value.toInt ≤ hi
  | .lt => lo < value.toInt
  | .le => lo ≤ value.toInt
  | .gt => hi > value.toInt
  | .ge => hi ≥ value.toInt

/-- The last of the longest, by bytes (`max_by_key`). -/
def longest : List Text → Option Text
  | [] => none
  | r :: rs =>
      some (rs.foldl (fun m r => if (utf8 m).length ≤ (utf8 r).length then r else m) r)

/-- A string every matching name must contain, if there is one. -/
def filterable : Test P → Option Str
  | .nameHas needle => some needle
  -- a name with extension `pdf` contains `.pdf`; one extension only
  | .ext [only] _ => some (utf8 ('.' :: only))
  -- a name matching `rap*or` contains `rap` and contains `or`
  | .nameGlob p =>
      (longest (splitWild p)).bind fun run =>
        if 3 ≤ (utf8 run).length then some (utf8 run) else none
  | _ => none

/-- The blocks a search has to look at, if the trigram index can say. -/
def narrowToBlocks (clauses : List (Clause P)) (v : View) : Option (List Nat) :=
  if P.noTrigram then none
  else
    clauses.foldl (fun out c =>
      match c.alts with
      | [(false, test)] =>
          match (filterable test).bind v.tri.candidates with
          | some blocks =>
              match out with
              | none => some blocks
              | some have_ => some (Search.intersect have_ blocks)
          | none => out
      | _ => out) none

namespace Plan

def compileAlts (v : View) : List (Bool × Match) → Except QueryError (List (Bool × Test P))
  | [] => .ok []
  | (negated, m) :: rest => do
      let t ← compileMatch P v m
      let ts ← compileAlts v rest
      pure ((negated, t) :: ts)

def compileGroups (v : View) : List Group → Except QueryError (List (Clause P))
  | [] => .ok []
  | g :: rest => do
      let alts ← compileAlts v g.alts
      let cs ← compileGroups v rest
      pure (⟨alts⟩ :: cs)

/-- A clause is only as cheap as its dearest alternative. -/
def clauseCost (c : Clause P) : Nat := (c.alts.map fun a => a.2.cost).foldl max 0

/-- Compile an `Ast` against a segment. -/
def compile (ast : Ast) (v : View) : Except QueryError (Plan P) := do
  let clauses ← compileGroups v ast.groups
  let clauses := clauses.insertionSort fun a b => clauseCost a ≤ clauseCost b
  pure ⟨clauses, narrowToBlocks clauses v⟩

def isEmpty (p : Plan P) : Bool := p.clauses.isEmpty

/-- Does answering this require reading names at all? -/
def needsName (p : Plan P) : Bool :=
  p.clauses.any fun c => c.alts.any fun a => a.2.readsName

/-- What one test leaves of a block, from the range its column stores. -/
def testPossible (v : View) (block : Nat) : Test P → Bool
  | .never => false
  | .num field cmp value span =>
      match v.seg.blockRange field block with
      | some (lo, hi) => admits cmp value span lo hi
      | none => true
  | .dirIn scope =>
      match v.seg.blockRange .dirId block with
      | some (lo, hi) => if 0 ≤ lo then scope.intersects lo.toNat hi.toNat else true
      | none => true
  | .pathIn set =>
      match v.seg.blockRange .dirId block with
      | some (lo, hi) => if 0 ≤ lo then set.admits lo.toNat hi.toNat else true
      | none => true
  | .kindIn mask =>
      match v.kindRange block with
      | some (lo, hi) =>
          if 0 ≤ lo ∧ lo < 16 ∧ 0 ≤ hi ∧ hi < 16 then
            let span := ((1 <<< ((hi - lo).toNat + 1)) - 1) <<< lo.toNat
            mask &&& span != 0
          else true
      | none => true
  | _ => true

/-- Could any row of this block match? -/
def blockPossible (p : Plan P) (v : View) (block : Nat) : Bool :=
  p.clauses.all fun c =>
    match c.alts with
    | [(false, test)] => testPossible v block test
    | _ => true

/-- Does this row match? -/
def accepts (p : Plan P) (v : View) (row : Nat) (name : Str) : Bool :=
  p.clauses.all fun c => c.alts.any fun a => evaluate v row name a.2 != a.1

end Plan

/-- Which blocks are worth opening at all. -/
def blocksWorthOpening (v : View) (p : Plan P) : List Nat :=
  let blocks := match p.candidates with
    | some c => c
    | none => List.range ((v.rows + (BLOCK - 1)) / BLOCK)
  blocks.filter fun b => v.blockAlive b && p.blockPossible v b

end Scour
