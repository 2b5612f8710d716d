import Scour.PathTerm

/-!
# The obviously-correct answer

Every predicate written the slow, direct way, over one entry: what a query means.  An entry's path
is a text, kept as its bytes.
-/

namespace Scour

variable (P : Platform)

/-- The characters of a `str`. -/
def chars (b : Str) : Text := (fromUtf8 b).getD []

/-- The extension of a name as spelled. -/
def extStr (name : Str) : Str := if extensionIsEligible name then extension name else []

/-- Case-folded extension without the dot; a directory has none. -/
def Entry.ext (e : Entry) : Text :=
  if e.isDir then [] else DefaultFolder.fold P.case (chars (extStr e.name))

def Entry.kind (e : Entry) : Kind := P.kindOf e.isDir e.name e.info.mode

/-- The stored number a query names. -/
def numOf (e : Entry) : NumField → Int
  | .mode => e.info.mode
  | .uid => e.info.uid
  | .gid => e.info.gid
  | .items => e.info.items
  | .disk => e.info.disk

def timeOf (e : Entry) : TimeField → Int
  | .modified => e.info.mtime
  | .created => e.info.ctime
  | .accessed => e.info.atime

def matchesOne (e : Entry) : Match → Bool
  | .nameContains t => decide (t <:+: DefaultFolder.fold P.case (chars e.name))
  | .nameGlob p => globMatches p (DefaultFolder.fold P.case (chars e.name))
  | .pathContains t => decide (t <:+: DefaultFolder.fold P.case (chars e.path.bytes))
  | .under d =>
      let d := trimEnd (utf8 d)
      d.length < e.path.bytes.length && d.isPrefixOf e.path.bytes &&
        (d.isEmpty || e.path.bytes[d.length]? == some slash)
  | .parentIs d => e.parent == trimEnd (utf8 d) || (d == ['/'] && e.parent == [slash])
  | .ext list => list.contains (e.ext P)
  | .isDir want => e.isDir == want
  | .size cmp v => cmp.holds e.info.size v.toInt
  | .num f cmp v => cmp.holds (numOf e f) v.toInt
  | .nameLen cmp v => cmp.holds (chars e.name).length v.toInt
  | .nameContainsCased t => decide (utf8 t <:+: e.name)
  | .depth cmp v => cmp.holds (e.path.bytes.count slash) v.toInt
  | .regex p =>
      match P.regexNew p with
      | .ok re => P.isMatch re (DefaultFolder.fold P.case (chars e.name))
      | .error _ => false
  | .bits f mask want any => maskHolds mask want any (numOf e f)
  | .kind k => k.contains (e.kind P)
  | .time f cmp v =>
      match cmp with
      -- equality on a timestamp means the calendar day it names
      | .eq => v.toInt ≤ timeOf e f && timeOf e f < (v + 86400).toInt
      | cmp => cmp.holds (timeOf e f) v.toInt
  -- nothing extracts content yet
  | .contentContains _ => false

/-- One alternative, with its negation. -/
def Entry.holds (e : Entry) (a : Bool × Match) : Bool := matchesOne P e a.2 != a.1

/-- Does one of these alternatives hold? -/
def Entry.meets (e : Entry) (alts : List (Bool × Match)) : Bool := alts.any (e.holds P)

/-- Does this entry satisfy the query? -/
def «matches» (e : Entry) (ast : Ast) : Bool := ast.groups.all fun g => e.meets P g.alts

end Scour
