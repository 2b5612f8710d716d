import Scour.Parse

/-!
# Query text in colours

The highlighter cuts a query at its white space (`tokens`) and colours every piece: it looks for the
fields, the operators and the lists itself, beside the parser's passes, and asks `accepts` whether a
field can use its value.  What it writes is a run of spans over the whole text.

The one thing it shares with the parser is the cut at a mark outside quotes.
-/

namespace Scour

variable (R : Reader)

/-- What a run of the query is. -/
inductive Role where
  | text | glob | phrase | quote | field | unknownField | colon
  /-- A value the field can use. -/
  | value
  /-- A real field with a value it cannot read, so the whole term falls back to text. -/
  | badValue
  | cmp | not | or | sep | space
deriving DecidableEq

structure Span where
  start : UInt32
  len : UInt32
  role : Role
  /-- Part of a term that must not match. -/
  not : Bool
deriving DecidableEq

namespace Span

def new (start len : Nat) (role : Role) : Span := ⟨UInt32.ofNat start, UInt32.ofNat len, role, false⟩

/-- The same run, marked as part of an excluded term. -/
def excluded (s : Span) : Span := { s with not := true }

/-- The bytes a span covers. -/
def of (s : Span) (query : Text) : Str :=
  let bytes := utf8 query
  if s.start.toNat + s.len.toNat ≤ bytes.length then (bytes.drop s.start.toNat).take s.len.toNat else []

end Span

/-! ## Can a field use a value? -/

/-- The numeric half of `size:`. -/
def parseSizeValue (v : Text) : Option Int64 :=
  let rest := R.trim (splitCmp v).2
  let (num, mult) := (sizeUnits.findSome? fun u =>
    (stripSuffix u.1.toList rest).map fun n => (n, u.2)).getD (rest, 1)
  (R.parseF64 (R.trim num)).map fun value => R.scaled value mult

/-- A time value, with no field attached. -/
def parseTimeValue (v : Text) (now : Int64) : Option Int64 :=
  match parseTime R .modified v now with
  | some (.time _ _ at_) => some at_
  | _ => none

/-- Can this field use this value as written? -/
def accepts (f : FieldName) (folded : Text) (now : Int64) : Bool :=
  match f.takes with
  | .nothing => true
  | .text | .path => folded ≠ []
  | .ext => (Search.split ';' folded).any fun e => e.dropWhile (· == '.') ≠ []
  | .size => (parseSizeValue R folded).isSome
  | .time => (parseTimeValue R folded now).isSome
  | .kind => (Kind.fromName folded).isSome

namespace Highlight

/-! ## Tokens -/

/-- `u8::is_ascii_whitespace` -/
def isAsciiWhitespace (c : Char) : Bool :=
  c == ' ' || c == '\t' || c == '\n' || c == '\x0C' || c == '\r'

/-- The tokens, `cur` being what the current one holds, and whether it is a run of white space. -/
def tokensFrom : Text → Bool → Bool → Text → List Text
  | cur, _, _, [] => if cur = [] then [] else [cur]
  | cur, space, inQuotes, c :: s =>
      let blank := isAsciiWhitespace c
      if cur = [] then tokensFrom [c] blank (!blank && c == '"') s
      else if space then
        if blank then tokensFrom (cur ++ [c]) true inQuotes s
        else cur :: tokensFrom [c] false (c == '"') s
      else if c = '"' then tokensFrom (cur ++ [c]) false (!inQuotes) s
      else if !inQuotes ∧ blank then cur :: tokensFrom [c] true false s
      else tokensFrom (cur ++ [c]) false inQuotes s

/-- Each piece with the place it starts at. -/
def placed : Nat → List Text → List (Nat × Text)
  | _, [] => []
  | start, t :: ts => (start, t) :: placed (start + (utf8 t).length) ts

/-- Terms and the whitespace between them, with every byte kept. -/
def tokens (input : Text) : List (Nat × Text) := placed 0 (tokensFrom [] false false input)

def isSpace (t : Text) : Bool := t.all R.isWhitespace

/-! ## Fields -/

/-- `field:value` by the parser's rule. -/
def fieldSplit (s : Text) : Option (Text × Text) :=
  if ':' ∉ s then none
  else
    let name := s.takeWhile (· ≠ ':')
    if name.length < 2 ∨ ¬ name.all R.isAlphabetic then none
    else some (name, (s.dropWhile (· ≠ ':')).tail)

/-- The field a token filters on, if it is a field term at all. -/
def fieldOf (token : Text) : Option FieldName :=
  if startsQuoted token then none
  else
    (fieldSplit R ((stripPrefix ['!'] token).getD token)).bind fun nv =>
      lookup (DefaultFolder.fold R.case nv.1)

/-! ## Values -/

/-- The items of a list, each after the first behind a separator. -/
def itemSpans : Nat → Bool → List Text → List Span
  | _, _, [] => []
  | start, first, item :: items =>
      let start' := if first then start else start + 1
      let len := (utf8 item).length
      (if first then [] else [Span.new start 1 .sep]) ++
        (if item = [] then [] else [Span.new start' len .value]) ++ itemSpans (start' + len) false items

/-- The operators a value may begin with, the longer ones first. -/
def cmpLen (value : Text) : Nat :=
  ((["<=", ">=", "<", ">", "="].find? fun p => p.toList.isPrefixOf value).map String.length).getD 0

/-- The value after a field's colon. -/
def valueSpans (start : Nat) (value : Text) (f : FieldName) (now : Int64) : List Span :=
  if value = [] then []
  else if accepts R f (DefaultFolder.fold R.case (unquote value)) now = false then
    [Span.new start (utf8 value).length .badValue]
  else
    let opLen := if f.takes = .size ∨ f.takes = .time then cmpLen value else 0
    let op := if 0 < opLen then [Span.new start opLen .cmp] else []
    let rest := value.drop opLen
    op ++
      if f.takes = .ext then itemSpans (start + opLen) true (Search.split ';' rest)
      else if rest = [] then []
      else [Span.new (start + opLen) (utf8 rest).length .value]

/-- Plain text, which may be quoted or contain wildcards. -/
def plain (start : Nat) (text : Text) : List Span :=
  let len := (utf8 text).length
  if startsQuoted text then
    let innerEnd := if 1 < len ∧ text.getLast? = some '"' then len - 1 else len
    Span.new start 1 .quote ::
      (if 1 < innerEnd then [Span.new (start + 1) (innerEnd - 1) .phrase] else []) ++
      (if innerEnd < len then [Span.new (start + max 1 innerEnd) 1 .quote] else [])
  else [Span.new start len (if '*' ∈ text ∨ '?' ∈ text then .glob else .text)]

/-! ## Terms -/

def alternativeSpans (start : Nat) (text : Text) (now : Int64) : List Span :=
  let (mark, start, rest) := match text with
    | '!' :: rest => ([Span.new start 1 .not], start + 1, rest)
    | _ => ([], start, text)
  if rest = [] then mark
  else
    mark ++
      match fieldSplit R rest with
      | some (name, value) =>
          let len := (utf8 name).length
          match lookup (DefaultFolder.fold R.case name) with
          | some f =>
              Span.new start len .field :: Span.new (start + len) 1 .colon ::
                valueSpans R (start + len + 1) value f now
          -- letters and a colon but not a field: the whole term is text
          | none => [Span.new start (utf8 rest).length .unknownField]
      | none => plain start rest

/-- One alternative, and whether it is excluded. -/
def alternative (start : Nat) (text : Text) (now : Int64) : List Span × Bool :=
  let negated := text.head? == some '!'
  let spans := alternativeSpans R start text now
  (if negated then spans.map Span.excluded else spans, negated)

/-- Alternatives, each after the first behind a mark. -/
def alternativesFrom (now : Int64) : Nat → Bool → List Text → List Span × Bool
  | _, _, [] => ([], false)
  | start, first, alt :: alts =>
      let start' := if first then start else start + 1
      let (spans, negated) := alternative R start' alt now
      let (later, negated') := alternativesFrom now (start' + (utf8 alt).length) false alts
      ((if first then [] else [Span.new start 1 .or]) ++ spans ++ later, negated || negated')

/-- One term: alternatives separated by `|`. -/
def oneTerm (start : Nat) (text : Text) (now : Int64) : List Span × Bool :=
  alternativesFrom R now start true (splitOutsideQuotes text '|')

/-- The cuts at every `!` that starts a new term, `cur` being what the current piece holds. -/
def bangsFrom : Text → Text → List Text
  | cur, [] => [cur]
  | cur, c :: s =>
      if c ≠ '!' ∨ cur = [] ∨ s = [] ∨ cur.getLast? = some '|' then bangsFrom (cur ++ [c]) s
      else cur :: bangsFrom ['!'] s

def bangPieces (text : Text) : List Text :=
  if text = [] ∨ startsQuoted text ∨ (fieldOf R text).isSome then [text] else bangsFrom [] text

/-- The terms inside one token, and whether each was cut off by a `;`. -/
def termPieces (text : Text) : List (Text × Bool) :=
  if startsQuoted text ∨ (fieldOf R text).isSome then [(text, false)]
  else
    let parts := (splitOutsideQuotes text ';').map fun part =>
      (bangPieces R part).map fun piece => (piece, false)
    match parts with
    | [] => []
    | part :: later => part ++ (later.map (List.modifyHead fun p => (p.1, true))).flatten

def termsFrom (now : Int64) : Nat → List (Text × Bool) → List Span × Bool
  | _, [] => ([], false)
  | start, (piece, cut) :: pieces =>
      let start' := if cut then start + 1 else start
      let (spans, negated) := oneTerm R start' piece now
      let (later, negated') := termsFrom now (start' + (utf8 piece).length) pieces
      ((if cut then [Span.new start 1 .space] else []) ++ spans ++ later, negated || negated')

/-- One whitespace-separated term, and whether it is excluded. -/
def term (start : Nat) (text : Text) (now : Int64) : List Span × Bool :=
  if text = ['|'] then ([Span.new start 1 .or], false)
  else if text = [';'] then ([Span.new start 1 .space], false)
  else if text = ['!'] then ([(Span.new start 1 .not).excluded], true)
  else termsFrom R now start (termPieces R text)

/-! ## A query -/

/-- What is carried from one token to the next. -/
structure Context where
  /-- The list a value may continue, -/
  list : Option FieldName
  /-- and whether its last separator still wants one. -/
  expectValue : Bool
  listNot : Bool
  loneBang : Bool

/-- The first alternative of the first term, where a `!` stands alone before it. -/
def reach : Bool → List Span → List Span
  | _, [] => []
  | reached, s :: spans =>
      if s.role = .or then s :: spans
      else if s.role = .space ∨ s.role = .sep then
        if reached then s :: spans else s.excluded :: reach reached spans
      else s.excluded :: reach true spans

/-- The alternatives behind the first value of a list. -/
def laterAlternatives (now : Int64) : Nat → List Text → List Span
  | _, [] => []
  | start, piece :: pieces =>
      Span.new start 1 .or :: (oneTerm R (start + 1) piece now).1 ++
        laterAlternatives now (start + 1 + (utf8 piece).length) pieces

/-- A list's next value, in a token of its own. -/
def continued (ctx : Context) (f : FieldName) (start : Nat) (token : Text) (now : Int64) :
    List Span × Context :=
  let (sep, at_, rest, expectValue) := match token with
    | ';' :: rest => ([Span.new start 1 .sep], start + 1, rest, true)
    | _ => ([], start, token, ctx.expectValue)
  let pieces := splitOutsideQuotes rest '|'
  let first := pieces.headD []
  let expectValue := if first = [] then expectValue else first.getLast? == some ';'
  let spans := sep ++ valueSpans R at_ first f now
  let spans := if ctx.listNot then spans.map Span.excluded else spans
  let later := laterAlternatives R now (at_ + (utf8 first).length) pieces.tail
  (spans ++ later,
    -- past the `|` the list is over
    if pieces.tail = [] then { ctx with expectValue := expectValue }
    else { ctx with list := none, expectValue := false, listNot := false })

/-- One token; `before` and `after` are the tokens around it. -/
def spansStep (before after : List Text) (ctx : Context) (start : Nat) (token : Text) (now : Int64) :
    List Span × Context :=
  if isSpace R token then
    let nextWord := after.find? fun t => !isSpace R t
    let nextTermWord := after.find? fun t => !isSpace R t && t != ['!']
    let prevWord := before.find? fun t => !isSpace R t
    let besideAlt := nextTermWord.any (·.head? == some '|') || prevWord.any (·.getLast? == some '|')
    let listJoin := ctx.list.isSome && nextWord.any (!startsQuoted ·) &&
      (ctx.expectValue || nextWord.any (·.head? == some ';'))
    let span := Span.new start (utf8 token).length (if besideAlt || listJoin then .sep else .space)
    ([if (listJoin && ctx.listNot) || ctx.loneBang then span.excluded else span],
      if listJoin then ctx else { ctx with list := none, expectValue := false, listNot := false })
  else
    match ctx.list with
    | some f =>
        if !startsQuoted token ∧ (ctx.expectValue ∨ token.head? = some ';') then
          continued R ctx f start token now
        else fresh
    | none => fresh
where
  fresh : List Span × Context :=
    let (spans, negated) := term R start token now
    -- only the last term in a token continues across the space
    let tail := (bangPieces R token).getLast?.getD token
    let list := fieldOf R tail
    (if ctx.loneBang then reach false spans else spans,
      { list := list
        expectValue := list.isSome && tail.getLast? == some ';'
        listNot := negated || ctx.loneBang
        loneBang := token == ['!'] || (ctx.loneBang && token.all (· == ';')) })

def spansFrom (now : Int64) : List Text → Context → List (Nat × Text) → List Span
  | _, _, [] => []
  | before, ctx, (start, token) :: toks =>
      let (spans, ctx) := spansStep R before (toks.map (·.2)) ctx start token now
      spans ++ spansFrom now (token :: before) ctx toks

/-- Does a span say something, or separate terms? -/
def speaks (query : Text) (s : Span) : Bool :=
  (s.role != .space && s.role != .sep) || s.of query == [59]

/-- A `;` beside a `|` says nothing the `|` has not. -/
def absorbFrom (query : Text) : Option Role → List Span → List Span
  | _, [] => []
  | before, s :: spans =>
      let after := (spans.find? (speaks query)).map (·.role)
      let s' := if s.role = .space ∧ s.of query = [59] ∧ (before = some .or ∨ after = some .or) then
        { s with role := .sep } else s
      s' :: absorbFrom query (if speaks query s' then some s'.role else before) spans

/-- Cut a query into coloured runs against `now`. -/
def spansAt (input : Text) (now : Int64) : List Span :=
  absorbFrom input none (spansFrom R now [] ⟨none, false, false, false⟩ (tokens input))

end Highlight

end Scour
