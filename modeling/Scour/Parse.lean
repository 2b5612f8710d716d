import Scour.Fields

/-!
# Text to `Ast`

The parser never fails: an unknown field, or one whose value will not parse, becomes a search for
the raw text.  A query is cut at white space (`tokenize`), five passes join and cut the tokens, each
token is rewritten if it is shorthand (`expand`), and every token that is left is one group, its
alternatives cut at `|` (`parseAlt`).
-/

namespace Scour

variable (R : Reader)

/-! ## Fields and quotes -/

def splitOutsideQuotesFrom (mark : Char) : Bool → Text → List Text
  | _, [] => [[]]
  | quoted, c :: s =>
      if c = '"' then (splitOutsideQuotesFrom mark (!quoted) s).modifyHead (c :: ·)
      else if c = mark ∧ ¬ quoted then [] :: splitOutsideQuotesFrom mark quoted s
      else (splitOutsideQuotesFrom mark quoted s).modifyHead (c :: ·)

/-- Split on `mark`, ignoring any that falls inside a quoted run. -/
def splitOutsideQuotes (s : Text) (mark : Char) : List Text := splitOutsideQuotesFrom mark false s

/-- Split `field:value`.  A name is at least two alphabetic characters. -/
def splitField (s : Text) : Option (Text × Text) :=
  if ':' ∉ s then none
  else
    let name := s.takeWhile (· ≠ ':')
    if name.length < 2 ∨ ¬ name.all R.isAlphabetic then none
    else some (DefaultFolder.fold R.case name, (s.dropWhile (· ≠ ':')).tail)

/-- The field a whole token names, with any leading `!` set aside. -/
def tokenField (s : Text) : Option (Text × Text) := splitField R ((stripPrefix ['!'] s).getD s)

/-- `token_field(&t).is_some_and(|(f, _)| crate::fields::lookup(&f).is_some())` -/
def isFieldToken (t : Text) : Bool := (tokenField R t).any fun fv => (lookup fv.1).isSome

def unquote (s : Text) : Text := s.filter (· ≠ '"')

def startsQuoted (t : Text) : Bool := t.head? == some '"'

/-! ## The passes -/

def tokenizeFrom : Text → Bool → Text → List Text
  | cur, _, [] => if cur = [] then [] else [cur]
  | cur, inQuotes, c :: s =>
      if c = '"' then tokenizeFrom (cur ++ ['"']) (!inQuotes) s
      else if R.isWhitespace c ∧ ¬ inQuotes then
        (if cur = [] then [] else [cur]) ++ tokenizeFrom [] inQuotes s
      else tokenizeFrom (cur ++ [c]) inQuotes s

/-- Split on whitespace, keeping quoted runs together. -/
def tokenize (input : Text) : List Text := tokenizeFrom R [] false input

/-- One token, after what is out already; `open_` when the last one wants what comes next. -/
def joinListsStep : List Text × Bool → Text → List Text × Bool
  | (out, open_), t =>
      if startsQuoted t then (out ++ [t], false)
      else
        let afterField := out.getLast?.any fun p => (tokenField R p).isSome
        let out :=
          if afterField ∧ (open_ ∨ t.head? = some ';') then
            let prev := out.getLast?.getD []
            -- the separator stays exactly once, however it was spaced
            let prev := if prev.getLast? = some ';' then prev else prev ++ [';']
            out.dropLast ++ [prev ++ t.dropWhile (· == ';')]
          else out ++ [t]
        let last := out.getLast?.getD []
        (out, last.getLast? == some ';' && (tokenField R last).isSome)

/-- Close up the spaces around a `;` inside a field's value. -/
def joinLists (tokens : List Text) : List Text := (tokens.foldl (joinListsStep R) ([], false)).1

/-- Cut a token at every `;` that separates two terms. -/
def splitSemicolons (tokens : List Text) : List Text :=
  tokens.flatMap fun t =>
    if startsQuoted t ∨ isFieldToken R t then [t]
    else (splitOutsideQuotes t ';').filter (· ≠ [])

/-- The pieces of a token, `cur` being what the current one holds. -/
def cutBangs : Text → Text → List Text
  | cur, [] => [cur]
  | cur, c :: s =>
      let before := cur.getLast?
      -- not at an end, and not where an alternative starts
      if c ≠ '!' ∨ before = none ∨ s = [] ∨ before = some '|' ∨ before = some ';' then
        cutBangs (cur ++ [c]) s
      else cur :: cutBangs ['!'] s

/-- Cut a token where a `!` starts a new term. -/
def splitBangs (tokens : List Text) : List Text :=
  tokens.flatMap fun t =>
    if startsQuoted t ∨ isFieldToken R t then [t] else cutBangs [] t

structure Joining where
  out : List Text
  pendingBang : Bool
  wantAlt : Bool

/-- One token of `join_operators`. -/
def joinOperatorsStep (j : Joining) (t : Text) : Joining :=
  let quoted := startsQuoted t
  if !quoted ∧ t = ['|'] then { j with wantAlt := true }
  else
    let leading : Bool := !quoted ∧ t.head? = some '|' ∧ j.out ≠ []
    let wantAlt := leading || j.wantAlt
    let t := if leading then t.tail else t
    let trailingAlt : Bool := !quoted ∧ 1 < t.length ∧ t.getLast? = some '|'
    let t := if trailingAlt then t.dropLast else t
    if !quoted ∧ t = ['!'] then { j with pendingBang := true, wantAlt }
    else if t = [] then { j with wantAlt := wantAlt || trailingAlt }
    else
      -- once, not twice: `!!ext:rs` reads as no field at all
      let t := if j.pendingBang ∧ t.head? ≠ some '!' then '!' :: t else t
      let out := match wantAlt, j.out.getLast? with
        | true, some prev => j.out.dropLast ++ [prev ++ '|' :: t]
        | _, _ => j.out ++ [t]
      ⟨out, false, trailingAlt⟩

/-- Reattach a `|` or `!` that stands alone. -/
def joinOperators (tokens : List Text) : List Text :=
  (tokens.foldl joinOperatorsStep ⟨[], false, false⟩).out

def joinAll (sep : Text) : List Text → Text
  | [] => []
  | [t] => t
  | t :: ts => t ++ sep ++ joinAll sep ts

/-- The tokens through the first that ends in `closer`, and those after it. -/
def through (closer : Char) : List Text → Option (List Text × List Text)
  | [] => none
  | t :: ts =>
      if t.getLast? = some closer then some ([t], ts)
      else (through closer ts).map fun r => (t :: r.1, r.2)

def opensGroup (t : Text) : Bool :=
  (t.head? == some '(' || t.head? == some '<') && !(stripPrefix ['(', '"'] t).isSome

/-- What stands between the parentheses of a run. -/
def groupInner (run : List Text) : Text :=
  let joined := joinAll [' '] run
  R.trim (trimEndMatches (fun c => c == ')' || c == '>')
    (joined.dropWhile fun c => c == '(' || c == '<'))

def joinParensFrom : Nat → List Text → List Text
  | 0, tokens => tokens
  | _, [] => []
  | fuel + 1, t :: ts =>
      if opensGroup t then
        match through (if t.head? = some '<' then '>' else ')') (t :: ts) with
        | some (run, rest) =>
            let inner := groupInner R run
            if '|' ∈ inner then
              -- `a | b` inside the parentheses is the same as `a|b`
              joinAll ['|'] ((Search.split '|' inner).map R.trim) :: joinParensFrom fuel rest
            -- not a group: ordinary characters in a name
            else t :: joinParensFrom fuel ts
        | none => t :: joinParensFrom fuel ts
      else t :: joinParensFrom fuel ts

/-- Glue `( a | b )` into one token, but only when the run holds a `|`. -/
def joinParens (tokens : List Text) : List Text := joinParensFrom R tokens.length tokens

/-! ## Shorthand -/

/-- The `kind:` a type macro stands for. -/
def macroKind : FieldName → Option String
  | .audio => some "audio"
  | .video => some "video"
  | .pic => some "image"
  | .doc => some "doc"
  | .exe => some "exec"
  | .zip => some "archive"
  | _ => none

/-- `value.split_once("..")` -/
def splitDots : Text → Option (Text × Text)
  | [] => none
  | c :: s =>
      match c, s with
      | '.', '.' :: hi => some ([], hi)
      | _, _ => (splitDots s).map fun r => (c :: r.1, r.2)

/-- Rewrite the body of a token: a field, as it was spelled, and its value. -/
def expandField (f : FieldName) (field value body : Text) : List Text :=
  match macroKind f with
  | some k => ["kind:".toList ++ k.toList]
  | none =>
      if f = .empty then ["file:".toList, "size:=0".toList]
      else if f = .startwith ∧ value ≠ [] then [value ++ ['*']]
      else if f = .endwith ∧ value ≠ [] then ['*' :: value]
      else
        match splitDots value with
        | some (lo, hi) =>
            if f.takes = .size ∨ f.takes = .time then
              match lo, hi with
              | [], [] => [body]
              -- open at one end
              | [], hi => [field ++ ":<=".toList ++ hi]
              | lo, [] => [field ++ ":>=".toList ++ lo]
              | lo, hi => [field ++ ":>=".toList ++ lo, field ++ ":<=".toList ++ hi]
            else [body]
        | none => [body]

/-- Rewrite the spellings that are shorthand for something the language can already say. -/
def expand (token : Text) : List Text :=
  -- a quoted run is literal all the way through
  if startsQuoted token then [token]
  else
    let (neg, body) := match token with
      | '!' :: rest => (['!'], rest)
      | _ => ([], token)
    match splitField R body with
    | none => [token]
    | some (field, value) =>
        match lookup field with
        | none => [token]
        | some f => (expandField f field value body).map (neg ++ ·)

/-! ## Alternatives -/

def nameMatch (text : Text) : Match :=
  -- no name holds a slash
  if '/' ∈ text then .pathContains text
  else if '*' ∈ text ∨ '?' ∈ text then .nameGlob text
  else .nameContains text

/-- A condition on a field, or none when the value cannot be used. -/
def fieldMatch (now : Int64) (home : Option Text) (f : FieldName) (raw : Text) : Option Match :=
  let folded := DefaultFolder.fold R.case raw
  match f with
  | .ext =>
      some (.ext (((Search.split ';' folded).map fun e => e.dropWhile (· == '.')).filter (· ≠ [])))
  | .path => some (.pathContains folded)
  | .under => if raw ≠ [] then some (.under (trimDir raw home)) else none
  | .parent => if raw ≠ [] then some (.parentIs (trimDir raw home)) else none
  | .file => some (.isDir false)
  | .folder => some (.isDir true)
  | .size => parseSize R folded
  | .kind => (Kind.fromName folded).map .kind
  | .dm => parseTime R .modified folded now
  | .dc => parseTime R .created folded now
  | .da => parseTime R .accessed folded now
  | .content => if folded ≠ [] then some (.contentContains folded) else none
  | .node => parseNode folded
  | .perm => parsePerm folded
  | .suid => some (bits 0o4000 0o4000 false)
  | .sgid => some (bits 0o2000 0o2000 false)
  | .sticky => some (bits 0o1000 0o1000 false)
  | .ww => some (bits 0o0002 0 true)
  | .user => resolveOwner R .uid raw
  | .group => resolveOwner R .gid raw
  | .len =>
      let (cmp, rest) := splitCmp folded
      (parseI64 (R.trim rest)).map (.nameLen cmp)
  -- the raw text: the spelling is the whole question
  | .case => if raw ≠ [] then some (.nameContainsCased raw) else none
  | .depth =>
      let (cmp, rest) := splitCmp folded
      -- a bare number means equals
      let cmp := if cmp = .ge ∧ rest = folded then .eq else cmp
      (parseI64 (R.trim rest)).map (.depth cmp)
  | .regex => if folded ≠ [] then some (.regex folded) else none
  | .empty | .startwith | .endwith | .audio | .video | .pic | .doc | .exe | .zip => none

/-- A condition, whatever stands before it. -/
def parseBody (now : Int64) (home : Option Text) (rest : Text) : Option Match :=
  match splitField R rest with
  | some (field, value) =>
      -- a value that cannot be used is searched for as it was typed
      some (((lookup field).bind fun f => fieldMatch R now home f (unquote value)).getD
        (nameMatch (DefaultFolder.fold R.case (unquote rest))))
  | none =>
      let text := DefaultFolder.fold R.case (unquote rest)
      if text = [] then none
      -- inside quotes a wildcard is an ordinary character
      else if startsQuoted rest then
        some (if '/' ∈ text then .pathContains text else .nameContains text)
      else some (nameMatch text)

def parseAlt (now : Int64) (home : Option Text) (raw : Text) : Option (Bool × Match) :=
  let (negated, rest) := match raw with
    | '!' :: r => (true, r)
    | _ => (false, raw)
  if rest = [] then none else (parseBody R now home rest).map fun m => (negated, m)

/-- The alternatives of one token. -/
def alternatives (now : Int64) (home : Option Text) (token : Text) : List (Bool × Match) :=
  ((splitOutsideQuotes token '|').filter (· ≠ [])).filterMap (parseAlt R now home)

/-- The tokens of a query, before any is rewritten. -/
def passes (input : Text) : List Text :=
  joinParens R (joinOperators (splitBangs R (splitSemicolons R (joinLists R (tokenize R input)))))

/-- `parse_in`: the clock, and the directory `~` expands to, if any. -/
def parseIn (now : Int64) (home : Option Text) (input : Text) : Ast where
  groups := (((passes R input).flatMap (expand R)).map (alternatives R now home)).filterMap
    fun alts => if alts = [] then none else some ⟨alts⟩

end Scour
