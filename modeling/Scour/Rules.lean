import Scour.Lib.Split
import Scour.Text

/-!
# What not to index

`Rules` of the filesystem source: a path prefix, a directory name or a sequence of them anywhere, a
file name anywhere, plus `allow`, which overrules them, and `deny`, which nothing overrules.
`Rules.excludes` is what the walk asks of an entry, with its kind known; `Rules.excludesPath` is what
the watcher asks, of a path alone.

A hash set is a list here.  `windows` panics on a sequence rule of no components, which a rule of
separators alone compiles to: what panics is `none`.
-/

namespace Scour

open Search

/-- The components of a path. -/
def components (path : Str) : List Str := (split slash path).filter (!·.isEmpty)

/-- What a scan is told of exclusions. -/
structure ScanOptions where
  excludePaths : List Str := []
  excludeDirs : List Str := []
  excludeFiles : List Str := []
  allow : List Str := []
  deny : List Str := []
deriving DecidableEq

/-- Compiled exclusion rules. -/
structure Rules where
  paths : List Str
  dirs : List Str
  /-- Rules naming a sequence, such as `.git/objects`. -/
  dirSeqs : List (List Str)
  files : List Str
  allow : List Str
  allowSeqs : List (List Str)
  deny : List Str
deriving DecidableEq

/-- How deep a tail `tailOf` can read. -/
def MAX_TAIL : Nat := 8

namespace Rules

variable (U : Unicode)

/-- Trailing separators go, and so does what is nothing else. -/
def norm (v : List Str) : List Str := (v.map trimEnd).filter (!·.isEmpty)

def fromOptions (opts : ScanOptions) : Rules :=
  let lower := opts.excludeDirs.map U.toLowercase
  { paths := norm opts.excludePaths
    dirs := lower.filter (!·.contains slash)
    dirSeqs := (lower.filter (·.contains slash)).map components
    files := opts.excludeFiles.map U.toLowercase
    allow := norm (opts.allow.filter fun a => a.head? == some slash)
    -- anything that is not an absolute path is a sequence of directory names
    allowSeqs := (opts.allow.filter fun a => !(a.head? == some slash)).map fun a =>
      (components a).map U.toLowercase
    deny := norm opts.deny }

variable (r : Rules)

/-- Does a directory-sequence rule match, ending at this path? -/
def seqEndsAt (path name : Str) : Bool :=
  let lower := U.toLowercase name
  let comps := components path
  r.dirSeqs.any fun rule =>
    rule.getLast? == some lower && rule.length ≤ comps.length &&
      ((comps.drop (comps.length - rule.length)).zip rule).all fun c => U.toLowercase c.1 == c.2

/-- Does a directory-sequence rule match anywhere in this path? -/
def seqWithin (path : Str) : Option Bool :=
  if r.dirSeqs.isEmpty then some false
  else
    let comps := (components path).map U.toLowercase
    r.dirSeqs.anyM fun rule =>
      if comps.length < rule.length then some false
      else if rule.isEmpty then none
      else some ((windows rule.length comps).any (· == rule))

def lowerComponents (path : Str) : List Str := (components path).map U.toLowercase

/-- The last components of a path, newest first. -/
def tailOf (path : Str) (keep : Nat) : List Str := (components path).reverse.take keep

/-- Is `component` this rule component, ignoring case? -/
def eqFolded (component folded : Str) : Bool := U.charsLowercase component == folded

/-- How much of a tail the sequence rules need. -/
def keep : Nat := (r.allowSeqs.map List.length).foldl max 0 + 1

/-- Does the path, its last `from_` components left out, end with the sequence? -/
def tailMatches (path : Str) (rule : List Str) (from_ : Nat) : Bool :=
  if MAX_TAIL < r.keep then
    -- deeper than anyone writes
    let comps := lowerComponents U path
    let n := comps.length
    from_ + rule.length ≤ n && (comps.take (n - from_)).drop (n - from_ - rule.length) == rule
  else
    let tail := tailOf path r.keep
    from_ + rule.length ≤ tail.length &&
      (rule.reverse.zip (tail.drop from_)).all fun c => eqFolded U c.2 c.1

/-- Is this path taken back by an allow rule?  A path takes back a subtree; a sequence takes back
that directory and the files directly in it. -/
def allows (path : Str) (isDir : Bool) : Bool :=
  if r.allow.any (under path ·) then true
  else if r.allowSeqs.isEmpty then false
  else r.allowSeqs.any fun rule =>
    r.tailMatches U path rule 0 || (!isDir && r.tailMatches U path rule 1)

/-- Is any ancestor of this path an excluded directory? -/
def insideExcluded (path : Str) : Option Bool :=
  -- the last component is the entry itself
  if (components path).dropLast.any fun c => r.dirs.contains (U.charsLowercase c) then some true
  else r.seqWithin U path

/-- Should this entry be skipped? -/
def excludes (path name : Str) (isDir : Bool) : Option Bool :=
  if r.deny.any (under path ·) then some true
  else if r.allows U path isDir then some false
  else if r.paths.any (under path ·) then some true
  else
    let lower := U.toLowercase name
    if if isDir then r.dirs.contains lower || r.seqEndsAt U path name else r.files.contains lower then
      some true
    else if r.allow.isEmpty && r.allowSeqs.isEmpty then some false
    else r.insideExcluded U path

/-- Should this path be skipped, judged from the path alone? -/
def excludesPath (path : Str) : Option Bool :=
  if r.deny.any (under path ·) then some true
  else if r.allows U path false || r.allows U path true then some false
  else if r.paths.any (under path ·) then some true
  else if (components path).any fun part => r.dirs.contains (U.toLowercase part) then some true
  else
    (r.seqWithin U path).map fun within =>
      within || r.files.contains (U.toLowercase ((components path).getLast?.getD []))

/-- Could anything under this directory still be wanted? -/
def mayContainAllowed (path : Str) : Bool :=
  if r.allow.any (under · path) then true
  else if r.allowSeqs.isEmpty then false
  else
    let comps := lowerComponents U path
    r.allowSeqs.any fun rule =>
      (List.range (min rule.length comps.length)).any fun n =>
        comps.drop (comps.length - (n + 1)) == rule.take (n + 1)

end Rules

end Scour
