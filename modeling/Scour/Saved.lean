import Scour.Disks
import Scour.Opened

/-!
# What a person saved, and the rules it makes

`Saved` is the file the service keeps beside its index, `Change` what a face asks of it: a field
that is absent is no opinion, and what a face says of its own window is merged key by key.
`scanOptionsWith` makes the rules in force from the platform's own, the configuration's and the
saved ones; it reads the five lists of `rulesOf` and nothing else of the file
(`scanOptionsWith_congr`).
-/

namespace Scour

/-! ## What one kind of window remembers -/

/-- A JSON value; the keys of an object are in order. -/
inductive Value where
  | null
  | bool (b : Bool)
  | number (text : Str)
  | string (text : Str)
  | array (items : List Value)
  | object (fields : List (Str × Value))

section Maps

variable {α : Type}

def getKey (k : Str) (m : List (Str × α)) : Option α := (m.find? (·.1 == k)).map (·.2)

def dropKey (k : Str) (m : List (Str × α)) : List (Str × α) := m.filter (·.1 != k)

def setKey (k : Str) (v : α) : List (Str × α) → List (Str × α)
  | [] => [(k, v)]
  | (l, w) :: rest =>
      if k = l then (k, v) :: rest
      else if k < l then (k, v) :: (l, w) :: rest
      else (l, w) :: setKey k v rest

end Maps

namespace Value

/-- The fields of an object; anything else is replaced by an empty one. -/
def fields : Value → List (Str × Value)
  | .object fields => fields
  | _ => []

def isNull : Value → Bool
  | .null => true
  | _ => false

mutual

/-- RFC 7386 merge-patch: objects merge key by key, `null` removes, anything else replaces. -/
def merge (into : Value) : Value → Value
  | .object fields => .object (mergeFields into.fields fields)
  | .null => .null
  | .bool b => .bool b
  | .number text => .number text
  | .string text => .string text
  | .array items => .array items

def mergeFields (slot : List (Str × Value)) : List (Str × Value) → List (Str × Value)
  | [] => slot
  | (k, v) :: fields =>
      if v.isNull then mergeFields (dropKey k slot) fields
      else mergeFields (setKey k (merge ((getKey k slot).getD .null) v) slot) fields

end

end Value

/-! ## The settings and a change of them -/

/-- How many past queries are kept. -/
def HISTORY : Nat := 100

/-- Everything a frontend remembers, beside what a plan of the disks reads. -/
structure Saved extends Settings where
  excludePaths : List Str
  excludeDirs : List Str
  excludeFiles : List Str
  excludeAllow : List Str
  /-- Rules switched off, by id. -/
  excludeOff : List Str
  columns : List Str
  widths : List (Str × Nat)
  sort : Str
  descending : Option Bool
  dupesOpen : Bool
  keyHintSeen : Bool
  language : Str
  layout : Str
  face : Str
  theme : Str
  preview : Bool
  history : List Str
  view : List (Str × Value)

/-- `Settings::default`: nobody has chosen anything. -/
def Saved.unset : Saved where
  volumesOn := []
  volumesOff := []
  removable := []
  network := []
  folders := []
  excludePaths := []
  excludeDirs := []
  excludeFiles := []
  excludeAllow := []
  excludeOff := []
  columns := []
  widths := []
  sort := []
  descending := none
  dupesOpen := false
  keyHintSeen := false
  language := []
  layout := []
  face := []
  theme := []
  preview := false
  history := []
  view := []

/-- A change to the settings: the fields somebody set, and nothing else. -/
structure SettingsChange where
  excludePaths : Option (List Str) := none
  excludeDirs : Option (List Str) := none
  excludeFiles : Option (List Str) := none
  excludeAllow : Option (List Str) := none
  excludeOff : Option (List Str) := none
  columns : Option (List Str) := none
  widths : Option (List (Str × Nat)) := none
  sort : Option Str := none
  descending : Option Bool := none
  dupesOpen : Option Bool := none
  keyHintSeen : Option Bool := none
  language : Option Str := none
  layout : Option Str := none
  face : Option Str := none
  theme : Option Str := none
  removable : Option Str := none
  network : Option Str := none
  folders : Option (List Str) := none
  preview : Option Bool := none
  history : Option (List Str) := none
  remember : Option Str := none
  view : List (Str × Value) := []

/-- `char::is_whitespace`: the characters of Unicode's `White_Space`. -/
def isWhiteSpace (c : Char) : Bool :=
  let n := c.toNat
  (9 ≤ n && n ≤ 13) || n == 32 || n == 0x85 || n == 0xA0 || n == 0x1680 ||
    (0x2000 ≤ n && n ≤ 0x200A) || n == 0x2028 || n == 0x2029 || n == 0x202F || n == 0x205F ||
    n == 0x3000

/-- `str::trim`. -/
def trimText (b : Str) : Str :=
  match fromUtf8 b with
  | some cs => utf8 ((cs.dropWhile isWhiteSpace).rdropWhile isWhiteSpace)
  | none => b

namespace Saved

/-- Put a query at the front, once. -/
def remember (s : Saved) (query : Str) : Saved :=
  let query := trimText query
  if query.isEmpty then s
  else { s with history := (query :: s.history.filter (· ≠ query)).take HISTORY }

/-- Index this disk, or leave it out for good. -/
def choose (s : Saved) (volume : Str) (index : Bool) : Saved :=
  let on := s.volumesOn.filter (· ≠ volume)
  let off := s.volumesOff.filter (· ≠ volume)
  { s with
    volumesOn := if index then on ++ [volume] else on
    volumesOff := if index then off else off ++ [volume] }

/-- How a rule is named in `excludeOff`. -/
def ruleId (kind value : Str) : Str := kind ++ str ":" ++ value

/-- Has this rule been switched off? -/
def ruleOff (s : Saved) (kind value : Str) : Bool :=
  s.excludeOff.any (eqIgnoreAsciiCase · (ruleId kind value))

end Saved

namespace SettingsChange

/-- Whether this changes what is indexed, so that the service plans its sources again. -/
def movesSources (c : SettingsChange) : Bool :=
  c.removable.isSome || c.network.isSome || c.folders.isSome

/-- Fold this into the settings. -/
def apply (c : SettingsChange) (s : Saved) : Saved :=
  let s :=
    { s with
      excludePaths := c.excludePaths.getD s.excludePaths
      excludeDirs := c.excludeDirs.getD s.excludeDirs
      excludeFiles := c.excludeFiles.getD s.excludeFiles
      excludeAllow := c.excludeAllow.getD s.excludeAllow
      excludeOff := c.excludeOff.getD s.excludeOff
      columns := c.columns.getD s.columns
      widths := c.widths.getD s.widths
      sort := c.sort.getD s.sort
      descending := c.descending.or s.descending
      keyHintSeen := c.keyHintSeen.getD s.keyHintSeen
      dupesOpen := c.dupesOpen.getD s.dupesOpen
      language := c.language.getD s.language
      preview := c.preview.getD s.preview
      face := c.face.getD s.face
      layout := c.layout.getD s.layout
      theme := c.theme.getD s.theme
      removable := c.removable.getD s.removable
      network := c.network.getD s.network
      folders := c.folders.getD s.folders
      history := (c.history.map (List.take HISTORY)).getD s.history }
  let s := (c.remember.map s.remember).getD s
  { s with
    view := c.view.foldl (fun view (who, what) =>
      setKey who (Value.merge ((getKey who view).getD .null) what) view) s.view }

end SettingsChange

/-- One edit of the settings: a change a face sends, or an answer about a disk. -/
inductive Edit where
  | set (change : SettingsChange)
  | choose (volume : Str) (index : Bool)

def Edit.apply : Edit → Saved → Saved
  | .set change, s => change.apply s
  | .choose volume index, s => s.choose volume index

/-! ## The rules in force -/

/-- The parts of the configuration that name rules and sources, and the machine's own. -/
structure Config where
  excludePaths : List Str
  excludeDirs : List Str
  excludeFiles : List Str
  allow : List Str
  /-- Where the index was configured to go. -/
  indexDir : Str
  sources : List SourceCfg
  home : Option Str
  uid : Nat

/-- Things no file index should hold, on Linux. -/
def platformDefaults (uid : Nat) : List Str × List Str × List Str :=
  (["/proc", "/sys", "/dev", "/run", "/tmp", "/var/lib/docker", "/var/cache"].map str,
    (str ".Trash-" ++ str (toString uid)) ::
      [".git/objects", "target", "node_modules", ".cache", ".local/share/Trash", "__pycache__",
        ".venv", ".mypy_cache", ".pytest_cache", ".gradle", ".ccache", ".cargo/registry"].map str,
    [".DS_Store", "Thumbs.db", "desktop.ini"].map str)

/-- The end of a path that is no component goes: separators, and `.` behind one.  Backwards. -/
def trimTail : Str → Str
  | [] => []
  | b :: rest =>
      if b = slash || (b = 46 && rest.head? = some slash) then trimTail rest else b :: rest

/-- `Path::parent`. -/
def pathParent (p : Str) : Option Str :=
  let body := trimTail p.reverse
  if body.isEmpty then none
  else
    let above := (trimTail (body.dropWhile (· ≠ slash))).reverse
    some (if above.isEmpty && p.head? = some slash then [slash] else above)

example : pathParent (str "/var/lib/scour/index/.") = some (str "/var/lib/scour") := by decide +kernel

/-- `Path::join`, of a relative name. -/
def pathJoin (p name : Str) : Str :=
  if p.isEmpty then name else if p.getLast? = some slash then p ++ name else p ++ slash :: name

namespace Config

/-- Where the index files go: a subdirectory. -/
def nativeDir (c : Config) : Str := pathJoin c.indexDir (str "native")

/-- The data directory: the parent of the index. -/
def dataDir (c : Config) : Str := (pathParent c.indexDir).getD c.indexDir

/-- The scan options these settings describe. -/
def scanOptions (c : Config) : ScanOptions where
  excludePaths := c.excludePaths
  excludeDirs := c.excludeDirs
  excludeFiles := c.excludeFiles
  allow := c.allow

end Config

/-- `merge` of `wire.rs`: what is not there yet, whatever its case, goes to the end. -/
def mergeRules (into extra : List Str) : List Str :=
  extra.foldl (fun into e => if into.any (eqIgnoreAsciiCase · e) then into else into ++ [e]) into

def switchOff (list : List Str) (kind : Str) (added : Saved) : List Str :=
  list.filter fun v => !added.ruleOff kind v

/-- The rules in force, given what a window has written: merged first, and the switched-off ones
taken out last. -/
def scanOptionsWith (config : Config) (added : Saved) : ScanOptions :=
  let (paths, dirs, files) := platformDefaults config.uid
  let o := config.scanOptions
  { excludePaths :=
      switchOff (mergeRules (o.excludePaths ++ added.excludePaths) paths) (str "path") added
    excludeDirs := switchOff (mergeRules (o.excludeDirs ++ added.excludeDirs) dirs) (str "dir") added
    excludeFiles :=
      switchOff (mergeRules (o.excludeFiles ++ added.excludeFiles) files) (str "file") added
    allow := switchOff (o.allow ++ added.excludeAllow) (str "allow") added
    -- the directories the service writes itself cannot be switched off
    deny := mergeRules o.deny [config.indexDir, config.nativeDir, config.dataDir] }

/-- The five lists that decide what the index holds. -/
def rulesOf (s : Saved) : List Str × List Str × List Str × List Str × List Str :=
  (s.excludePaths, s.excludeDirs, s.excludeFiles, s.excludeAllow, s.excludeOff)

/-- The rules in force are made from nothing else of the file. -/
theorem scanOptionsWith_congr (config : Config) {s t : Saved} (h : rulesOf s = rulesOf t) :
    scanOptionsWith config s = scanOptionsWith config t := by
  unfold rulesOf at h
  simp only [Prod.mk.injEq] at h
  obtain ⟨hpaths, hdirs, hfiles, hallow, hoff⟩ := h
  have hswitch : ∀ list kind, switchOff list kind s = switchOff list kind t := by
    intro list kind
    unfold switchOff Saved.ruleOff
    rw [hoff]
  unfold scanOptionsWith
  simp only [hswitch, hpaths, hdirs, hfiles, hallow]

end Scour
