import Scour.Lib.Split
import Scour.Plan

/-!
# Every field the query language has, and how its values are read

`lookup` finds a field by any of its spellings, which arrive folded.  The value parsers below it
answer `none` for a value the field cannot use.  Arithmetic on `i64` wraps, as in a release build.

What this rests on besides the platform is a `Reader`: Unicode's white space and letters, `f64`, and
the user and group databases of the machine.
-/

namespace Scour

/-! ## Text -/

def stripPrefix (p t : Text) : Option Text := if p <+: t then some (t.drop p.length) else none

def stripSuffix (p t : Text) : Option Text :=
  if p <:+ t then some (t.take (t.length - p.length)) else none

/-- `str::trim_end_matches`. -/
abbrev trimEndMatches (p : Char → Bool) (t : Text) : Text := t.rdropWhile p

/-- `i64::from_str_radix`, for a radix of at most ten. -/
def fromStrRadix (radix : Nat) (t : Text) : Option Int64 :=
  let (negative, digits) := match t with
    | '-' :: rest => (true, rest)
    | '+' :: rest => (false, rest)
    | _ => (false, t)
  if digits = [] ∨ ¬ digits.all (fun c => 48 ≤ c.toNat && c.toNat < 48 + radix) then none
  else
    let n := digits.foldl (fun n c => n * radix + (c.toNat - 48)) 0
    let v : Int := if negative then -n else n
    if -2 ^ 63 ≤ v ∧ v < 2 ^ 63 then some (Int64.ofInt v) else none

def parseI64 (t : Text) : Option Int64 := fromStrRadix 10 t

example : parseI64 "-12".toList = some (-12) := by decide

/-- `str::lines`. -/
def lines (t : Text) : List Text :=
  let pieces := Search.split '\n' t
  pieces.dropLast.map (fun l => (stripSuffix ['\r'] l).getD l) ++
    pieces.getLast?.toList.filter (· ≠ [])

/-- Split off a leading comparison operator; absent means `>=`. -/
def splitCmp (v : Text) : Cmp × Text :=
  match v with
  | '>' :: '=' :: rest => (.ge, rest)
  | '<' :: '=' :: rest => (.le, rest)
  | '>' :: rest => (.gt, rest)
  | '<' :: rest => (.lt, rest)
  | '=' :: rest => (.eq, rest)
  | _ => (.ge, v)

/-! ## The reader -/

/-- What reading a query rests on and this development leaves open. -/
structure Reader extends Platform where
  /-- `char::is_whitespace` -/
  isWhitespace : Char → Bool
  /-- `char::is_alphabetic` -/
  isAlphabetic : Char → Bool
  whitespace_ascii : ∀ c, c.toNat < 128 →
    isWhitespace c = (c == ' ' || (9 ≤ c.toNat && c.toNat ≤ 13))
  alphabetic_ascii : ∀ c, c.toNat < 128 → isAlphabetic c = c.isAlpha
  F64 : Type
  /-- `str::parse::<f64>` -/
  parseF64 : Text → Option F64
  /-- `(value * mult as f64) as i64` -/
  scaled : F64 → Int64 → Int64
  zero : (parseF64 ['0']).map (scaled · 1) = some 0
  /-- `/etc/passwd`, when it can be read, -/
  passwd : Option Text
  /-- and `/etc/group`. -/
  groups : Option Text

/-- A machine of ASCII text and whole numbers, with no user databases. -/
def Reader.plain : Reader where
  toPlatform := .plain
  isWhitespace c := c == ' ' || (9 ≤ c.toNat && c.toNat ≤ 13)
  isAlphabetic := Char.isAlpha
  whitespace_ascii _ _ := rfl
  alphabetic_ascii _ _ := rfl
  F64 := Int64
  parseF64 := parseI64
  scaled := (· * ·)
  zero := by decide
  passwd := none
  groups := none

/-- `str::trim`. -/
def Reader.trim (R : Reader) (t : Text) : Text :=
  trimEndMatches R.isWhitespace (t.dropWhile R.isWhitespace)

/-! ## The fields -/

/-- What a field does with the text after its colon. -/
inductive Takes where
  | text | path | ext | size | time | kind | nothing
deriving DecidableEq

inductive FieldName where
  | ext | path | under | parent | file | folder | size | kind | dm | dc | da | content | node | perm
  | suid | sgid | sticky | ww | user | group | depth | regex | empty | startwith | endwith | len
  | case | audio | video | pic | doc | exe | zip
deriving DecidableEq

namespace FieldName

/-- The canonical spelling. -/
def name : FieldName → String
  | .ext => "ext"
  | .path => "path"
  | .under => "under"
  | .parent => "parent"
  | .file => "file"
  | .folder => "folder"
  | .size => "size"
  | .kind => "kind"
  | .dm => "dm"
  | .dc => "dc"
  | .da => "da"
  | .content => "content"
  | .node => "node"
  | .perm => "perm"
  | .suid => "suid"
  | .sgid => "sgid"
  | .sticky => "sticky"
  | .ww => "ww"
  | .user => "user"
  | .group => "group"
  | .depth => "depth"
  | .regex => "regex"
  | .empty => "empty"
  | .startwith => "startwith"
  | .endwith => "endwith"
  | .len => "len"
  | .case => "case"
  | .audio => "audio"
  | .video => "video"
  | .pic => "pic"
  | .doc => "doc"
  | .exe => "exe"
  | .zip => "zip"

/-- Everything else that means the same thing, already folded. -/
def aliases : FieldName → List String
  | .under => ["in", "altinda"]
  | .parent => ["child", "children"]
  | .file => ["files"]
  | .folder => ["folders", "dir"]
  | .kind => ["type", "tur", "tür"]
  | .dm => ["modified"]
  | .dc => ["created"]
  | .da => ["accessed"]
  | .content => ["text", "icerik", "içerik"]
  | .node => ["dugum"]
  | .perm => ["mode", "izin"]
  | .ww => ["writable"]
  | .user => ["owner"]
  | .depth => ["derinlik"]
  | .regex => ["re"]
  | .empty => ["bos"]
  | .startwith => ["startswith", "prefix"]
  | .endwith => ["endswith", "suffix"]
  | .len => ["namelen"]
  | .case => ["cased"]
  | .audio => ["ses"]
  | .pic => ["image", "gorsel"]
  | .doc => ["belge"]
  | .zip => ["archive", "arsiv"]
  | _ => []

def takes : FieldName → Takes
  | .ext => .ext
  | .under | .parent => .path
  | .size | .depth | .len => .size
  | .kind => .kind
  | .dm | .dc | .da => .time
  | .path | .content | .node | .perm | .user | .group | .regex | .startwith | .endwith | .case =>
      .text
  | .file | .folder | .suid | .sgid | .sticky | .ww | .empty | .audio | .video | .pic | .doc | .exe
  | .zip => .nothing

def spellings (f : FieldName) : List Text := (f.name :: f.aliases).map String.toList

end FieldName

/-- The language, as data. -/
def FIELDS : List FieldName :=
  [.ext, .path, .under, .parent, .file, .folder, .size, .kind, .dm, .dc, .da, .content, .node,
    .perm, .suid, .sgid, .sticky, .ww, .user, .group, .depth, .regex, .empty, .startwith, .endwith,
    .len, .case, .audio, .video, .pic, .doc, .exe, .zip]

/-- Find a field by any of its spellings. -/
def lookup (folded : Text) : Option FieldName :=
  FIELDS.find? fun f => f.spellings.contains folded

theorem lookup_kind : lookup "kind".toList = some .kind := by decide

theorem lookup_file : lookup "file".toList = some .file := by decide

theorem lookup_size : lookup "size".toList = some .size := by decide

theorem mem_spellings_of_lookup {s : Text} {f : FieldName} (h : lookup s = some f) :
    s ∈ f.spellings := by
  simpa using List.find?_some h

/-- No spelling holds a character that means something to the parser. -/
theorem plain_of_mem_spellings (f : FieldName) : ∀ s ∈ f.spellings, s ≠ [] ∧
    ∀ c ∈ s, c ≠ '|' ∧ c ≠ '"' ∧ c ≠ '!' ∧ c ≠ ':' := by
  cases f <;> decide

/-! ## Values -/

/-- The kinds a value of `kind:` stands for. -/
def KIND_NAMES : List (List String × List Kind) :=
  [(["dir", "folder", "klasor", "klasör"], [.dir]),
   (["code", "source", "kod", "kaynak"], [.code]),
   (["image", "img", "pic", "gorsel", "görsel", "resim"], [.image]),
   (["archive", "arsiv", "arşiv", "zip"], [.archive]),
   (["doc", "document", "belge"], [.doc]),
   (["exec", "exe", "bin", "executable", "calistirilabilir", "çalıştırılabilir"], [.exec]),
   (["audio", "ses", "muzik", "müzik"], [.audio]),
   (["video", "film"], [.video]),
   (["media", "medya"], [.audio, .video, .media]),
   (["build", "derleme", "cikti", "çıktı"], [.build]),
   (["data", "veri"], [.data]),
   (["config", "conf", "settings", "ayar", "yapilandirma", "yapılandırma"], [.config]),
   (["font", "yazitipi", "yazıtipi"], [.font]),
   (["file", "dosya"], [.file]),
   (["text", "metin"], [.code, .doc, .data, .config])]

def Kind.fromName (folded : Text) : Option (List Kind) :=
  (KIND_NAMES.find? fun r => (r.1.map String.toList).contains folded).map (·.2)

/-- `mode & mask` against `want`, or against zero when `any`. -/
def bits (mask want : Int64) (any : Bool) : Match := .bits .mode mask want any

/-- The `S_IFMT` bits, named the way `find -type` names them. -/
def NODE_NAMES : List (List String × Int64) :=
  [(["f", "file", "dosya"], 0o100000),
   (["d", "dir", "folder", "klasor"], 0o040000),
   (["l", "link", "symlink", "bag"], 0o120000),
   (["s", "socket", "soket"], 0o140000),
   (["p", "fifo", "pipe", "boru"], 0o010000),
   (["b", "block", "blok"], 0o060000),
   (["c", "char", "karakter"], 0o020000)]

def parseNode (v : Text) : Option Match :=
  (NODE_NAMES.find? fun r => (r.1.map String.toList).contains v).map fun r =>
    bits 0o170000 r.2 false

/-- `644` exactly these bits, `-200` all of these, `/222` any of these. -/
def parsePerm (v : Text) : Option Match :=
  match v with
  | '-' :: rest => (fromStrRadix 8 rest).map fun n => bits n n false
  | '/' :: rest | '+' :: rest => (fromStrRadix 8 rest).map fun n => bits n 0 true
  | _ => (fromStrRadix 8 v).map fun n => bits 0o7777 n false

/-- The first line of a user or group database that gives `name` a number. -/
def ownerId (name : Text) (database : Text) : Option Int64 :=
  (lines database).findSome? fun line =>
    let parts := Search.split ':' line
    if parts.head? = some name then (parts[2]?).bind parseI64 else none

/-- A number, or a name looked up on the machine that owns the files. -/
def resolveOwner (R : Reader) (field : NumField) (raw : Text) : Option Match :=
  let name := R.trim raw
  if name = [] then none
  else
    match parseI64 name with
    | some n => some (.num field .eq n)
    | none =>
        ((if field = .uid then R.passwd else R.groups).bind (ownerId name)).map (.num field .eq)

def sizeUnits : List (String × Int64) :=
  [("tb", 1024 ^ 4), ("gb", 1024 ^ 3), ("mb", 1024 * 1024), ("kb", 1024), ("b", 1)]

/-- `>1mb`, `<=500kb`, `=0`. -/
def parseSize (R : Reader) (v : Text) : Option Match :=
  let (cmp, rest) := splitCmp v
  let rest := R.trim rest
  let (num, mult) := (sizeUnits.findSome? fun u =>
    (stripSuffix u.1.toList rest).map fun n => (n, u.2)).getD (rest, 1)
  (R.parseF64 (R.trim num)).map fun value => .size cmp (R.scaled value mult)

/-! ### Dates -/

def Time.HOUR : Int64 := 3600

def Time.DAY : Int64 := 86400

/-- The windows that have a name. -/
def WINDOWS : List (List String × Int64) :=
  [(["today", "bugun", "bugün"], Time.DAY),
   (["yesterday", "dun", "dün"], 2 * Time.DAY),
   (["week", "thisweek", "hafta"], 7 * Time.DAY),
   (["month", "thismonth", "ay"], 30 * Time.DAY),
   (["year", "thisyear", "yil", "yıl"], 365 * Time.DAY)]

def timeUnits : List (List String × Int64) :=
  [(["h", "s", "saat"], Time.HOUR),
   (["d", "g", "gun", "gün"], Time.DAY),
   (["w", "hafta"], 7 * Time.DAY),
   (["m", "ay"], 30 * Time.DAY),
   (["y", "yil", "yıl"], 365 * Time.DAY)]

/-- The entry of a table of spellings. -/
def named (table : List (List String × Int64)) (s : Text) : Option Int64 :=
  (table.find? fun r => (r.1.map String.toList).contains s).map (·.2)

/-- `i64::checked_mul`. -/
def checkedMul (a b : Int64) : Option Int64 :=
  if (a * b).toInt = a.toInt * b.toInt then some (a * b) else none

/-- Seconds behind `24h`, `7d`, `today`. -/
def relativeWindow (s : Text) : Option Int64 :=
  match named WINDOWS s with
  | some w => some w
  | none =>
      let num := s.takeWhile Char.isDigit
      match s.dropWhile Char.isDigit with
      | [] => none
      | unit => do checkedMul (← parseI64 num) (← named timeUnits unit)

/-- (year, month, day) to days since the unix epoch. -/
def daysFromCivil (y m d : Int64) : Int64 :=
  let y := if m ≤ 2 then y - 1 else y
  let era := (if y ≥ 0 then y else y - 399) / 400
  let yoe := y - era * 400
  let mp := (m + 9) % 12
  let doy := (153 * mp + 2) / 5 + d - 1
  let doe := yoe * 365 + yoe / 4 - yoe / 100 + doy
  era * 146097 + doe - 719468

example : daysFromCivil 2000 3 1 = 11017 := by decide

/-- `YYYY-MM-DD` to the epoch seconds of 00:00 UTC on that day. -/
def parseIsoDate (s : Text) : Option Int64 :=
  match Search.split '-' s with
  | [y, mo, d] => do
      let y ← parseI64 y
      let mo ← parseI64 mo
      let d ← parseI64 d
      if 1 ≤ mo ∧ mo ≤ 12 ∧ 1 ≤ d ∧ d ≤ 31 then some (daysFromCivil y mo d * Time.DAY) else none
  | _ => none

/-- Does the value say how to compare? -/
def startsWithCmp (v : Text) : Bool := v.head?.any fun c => c == '>' || c == '<' || c == '='

def parseTime (R : Reader) (field : TimeField) (v : Text) (now : Int64) : Option Match :=
  let (cmp, rest) := splitCmp v
  let rest := R.trim rest
  if rest = [] then none
  else
    match relativeWindow rest with
    | some window => some (.time field (if startsWithCmp v then cmp else .ge) (now - window))
    | none =>
        (parseIsoDate rest).map fun day =>
          .time field (if startsWithCmp v then cmp else .eq) day

/-- A directory as typed, spelt the index's way: a lone `~` or a leading `~/` becomes `home`. -/
def trimDir (s : Text) (home : Option Text) : Text :=
  let t := s.map fun c => if c = '\\' then '/' else c
  let trimmed := trimEndMatches (· == '/') t
  if trimmed = [] then ['/']
  else
    match home, stripPrefix "~/".toList trimmed with
    | some h, none => if trimmed = ['~'] then h else trimmed
    | some h, some rest => h ++ '/' :: rest
    | none, _ => trimmed

end Scour
