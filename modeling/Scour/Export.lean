import Scour.Civil
import Scour.Facets
import Scour.Fields
import Scour.Lib.Csv
import Scour.Lib.Utf8

/-!
# The result set as a spreadsheet

`Sheet` writes a header and a row for each hit, in the caller's columns.  The engine writes them
into one buffer, hands the buffer over as a text whenever it has grown past a size, and goes on
until the caller wants no more.

`exported_eq`: what is handed over is all that is written, in any number of pieces.
`export_reads_back`: a reader of the grammar finds the cells.
-/

namespace Scour

/-- `Hit::name` and `Hit::parent`. -/
def Hit.name (h : Hit) : Str := (splitPath h.path).2

def Hit.parent (h : Hit) : Str := (splitPath h.path).1

namespace Export

open Search

/-! ## The code -/

/-- UTF-8's byte-order mark, written once before the header row. -/
def BOM : Str := [0xEF, 0xBB, 0xBF]

/-- The user and the group database of the machine, empty where there is none. -/
structure Owners where
  passwd : Text
  group : Text

/-- A line of a database: its first field, and its third where that is a number. -/
def ownerLine (line : Text) : Option (Int × Text) :=
  match Search.split ':' line with
  | name :: _ :: third :: _ => (parseI64 third).map fun id => (id.toInt, name)
  | _ => none

/-- `owner_name`: of two names for an id the last is it. -/
def ownerName (db : Text) (id : Int) : Text :=
  ((((lines db).filterMap ownerLine).reverse.find? fun r => r.1 = id).map (·.2)).getD
    (toString id).toList

/-- `mode_string`: permission bits in `drwxr-xr-x` form. -/
def modeString (mode : Int) : Text :=
  if mode = 0 then []
  else
    let m := (mode % 2 ^ 32).toNat
    let typed := m &&& 0o170000
    let typeCh :=
      if typed = 0o040000 then 'd'
      else if typed = 0o120000 then 'l'
      else if typed = 0o060000 then 'b'
      else if typed = 0o020000 then 'c'
      else if typed = 0o010000 then 'p'
      else if typed = 0o140000 then 's'
      else '-'
    let triple (shift : Nat) : Text :=
      let bits := (m >>> shift) &&& 0o7
      [if bits &&& 0o4 ≠ 0 then 'r' else '-', if bits &&& 0o2 ≠ 0 then 'w' else '-',
        if bits &&& 0o1 ≠ 0 then 'x' else '-']
    -- setuid, setgid and sticky turn the matching `x` into s/S or t/T
    [(0o4000, 3, 's', 'S'), (0o2000, 6, 's', 'S'), (0o1000, 9, 't', 'T')].foldl
      (fun b (bit, idx, set, unset) =>
        if m &&& bit ≠ 0 then b.set idx (if b[idx]? = some 'x' then set else unset) else b)
      (typeCh :: (triple 6 ++ triple 3 ++ triple 0))

example : modeString 0o104755 = "-rwsr-xr-x".toList := by decide

/-- A number with zeros in front, up to this width. -/
def padded (width n : Nat) : Text := (Nat.toDigits 10 n).leftpad width '0'

/-- Seconds since the epoch as `2026-03-07 18:25:13`; empty where nobody recorded them. -/
def stamp (t : Int64) : Text :=
  if t ≤ 0 then []
  else
    let (y, m, d) := civil (divEuclid t 86400)
    let secs := (remEuclid t 86400).toInt.toNat
    -- a positive time is in a positive year
    padded 4 y.toInt.toNat ++ '-' :: padded 2 m.toNat ++ '-' :: padded 2 d.toNat ++
      ' ' :: padded 2 (secs / 3600) ++ ':' :: padded 2 (secs % 3600 / 60) ++
        ':' :: padded 2 (secs % 60)

example : stamp 1772907913 = "2026-03-07 18:25:13".toList := by decide

section
variable (T : CaseTable) (owners : Owners)

/-- What a column is called, and how to read it off a hit. -/
def cellOf (id : Str) (h : Hit) : Str :=
  if id = str "name" then h.name
  else if id = str "path" then h.parent
  else if id = str "full" then h.path
  else if id = str "ext" then utf8 (DefaultFolder.fold T (chars (extStr h.name)))
  else if id = str "size" then str (toString h.info.size)
  else if id = str "disk" then str (toString h.info.disk)
  else if id = str "mtime" then utf8 (stamp (Int64.ofInt h.info.mtime))
  else if id = str "ctime" then utf8 (stamp (Int64.ofInt h.info.ctime))
  else if id = str "atime" then utf8 (stamp (Int64.ofInt h.info.atime))
  else if id = str "kind" then str h.kind.token
  else if id = str "perm" then utf8 (modeString h.info.mode)
  else if id = str "user" then utf8 (ownerName owners.passwd h.info.uid)
  else if id = str "group" then utf8 (ownerName owners.group h.info.gid)
  else if id = str "items" then str (toString h.info.items)
  -- not a column this version knows: an empty cell under its heading
  else []

end

/-- The four bytes a spreadsheet minds. -/
def marks : Csv.Marks UInt8 := ⟨44, 34, 13, 10, by decide⟩

/-- Quote when the value holds a separator, a quote or a line break, and double any quote inside. -/
def escapeInto (value out : Str) : Str :=
  if value.any fun b => b = 44 || b = 34 || b = 10 || b = 13 then
    out ++ 34 :: (value.flatMap fun b => if b = 34 then [34, b] else [b]) ++ [34]
  else out ++ value

/-- The columns to write, in the order they will appear. -/
structure Sheet where
  columns : List Str

namespace Sheet

/-- Cells, with a comma before each but the first. -/
def cells (out : Str) : List Str → Str
  | [] => out
  | c :: cs => cs.foldl (fun out c => escapeInto c (out ++ [44])) (escapeInto c out)

def header (s : Sheet) (out : Str) : Str := cells (out ++ BOM) s.columns ++ [13, 10]

def row (T : CaseTable) (owners : Owners) (s : Sheet) (h : Hit) (out : Str) : Str :=
  cells out (s.columns.map fun id => cellOf T owners id h) ++ [13, 10]

def defaultColumns : List Str := ["name", "path", "size", "mtime", "kind"].map str

/-- Everything at once. -/
def text (T : CaseTable) (owners : Owners) (s : Sheet) (hits : List Hit) : Str :=
  hits.foldl (fun out h => s.row T owners h out) (s.header [])

end Sheet

/-- What is written and not handed over, what is handed over, and how many rows that is. -/
structure Run where
  buf : Str
  pieces : List Text
  wrote : Nat
  stopped : Bool

/-- A caller, who goes on after these pieces or does not. -/
abbrev Out := List Text → Bool

def Run.flush (out : Out) (e : Run) : Run × Bool :=
  if e.buf = [] then (e, true)
  else
    let e := { e with buf := [], pieces := e.pieces ++ [lossy e.buf] }
    if out e.pieces then (e, true) else ({ e with stopped := true }, false)

section
variable (T : CaseTable) (owners : Owners) (chunk : Nat) (out : Out) (s : Sheet)

/-- One hit of the scan: its row, and a piece where that is enough for one. -/
def Run.hit (e : Run) (h : Hit) : Run × Bool :=
  let e := { e with buf := s.row T owners h e.buf, wrote := e.wrote + 1 }
  if chunk ≤ e.buf.length then e.flush out else (e, true)

def Run.start : Run := ⟨s.header [], [], 0, false⟩

/-- The tail, and the header alone when nothing matched. -/
def Run.finish (e : Run) : Run := if e.stopped then e else (e.flush out).1

end

def EXPORT_CHUNK : Nat := 128 * 1024

/-- The sheet of a request for these columns. -/
def sheetOf (columns : List Str) : Sheet :=
  if columns = [] then ⟨Sheet.defaultColumns⟩ else ⟨columns⟩

/-- `Engine::export`. -/
def exportQuery {P : Platform} (owners : Owners) (hidden : PrefixSet) (query : Ast)
    (columns : List Str) (out : Out) (ls : List (OpenSegment P)) : Except QueryError Run :=
  let sheet := sheetOf columns
  match scan hidden query (Run.hit P.case owners EXPORT_CHUNK out sheet) (Run.start sheet) ls with
  | .error e => .error e
  | .ok (e, _) => .ok (e.finish out)

/-- Hits one after the other, until one says stop. -/
def visit {σ α : Type} (f : σ → α → σ × Bool) : σ → List α → σ × Bool
  | s, [] => (s, true)
  | s, x :: xs =>
      match f s x with
      | (s, true) => visit f s xs
      | (s, false) => (s, false)

/-- The export of these hits, in pieces of about this size. -/
def exported (T : CaseTable) (owners : Owners) (chunk : Nat) (out : Out) (s : Sheet)
    (hits : List Hit) : Run :=
  (visit (Run.hit T owners chunk out s) (Run.start s) hits).1.finish out

/-! ## What is written -/

theorem escapeInto_eq (value out : Str) : escapeInto value out = out ++ Csv.escape marks value := by
  have hany : (value.any fun b => b = 44 || b = 34 || b = 10 || b = 13) =
      value.any (· ∈ marks.all) := by
    congr 1
    funext b
    simp only [Csv.Marks.all, marks, List.mem_cons, List.not_mem_nil, or_false, Bool.decide_or]
    cases decide (b = 44) <;> cases decide (b = 34) <;> cases decide (b = 10) <;>
      cases decide (b = 13) <;> rfl
  have hdouble : (value.flatMap fun b => if b = 34 then [34, b] else [b]) =
      value.flatMap fun b => if b = marks.quote then [b, b] else [b] := by
    congr 1
    funext b
    show (if b = 34 then [34, b] else [b]) = if b = 34 then [b, b] else [b]
    split
    · rename_i hb
      rw [hb]
    · rfl
  unfold escapeInto Csv.escape
  rw [hany, hdouble]
  split
  · rw [List.append_assoc]
    rfl
  · rfl

namespace Sheet

theorem cells_eq (out : Str) : ∀ cs : List Str,
    cells out cs = out ++ [marks.comma].intercalate (cs.map (Csv.escape marks))
  | [] => (List.append_nil out).symm
  | c :: cs => by
    show cs.foldl (fun out c => escapeInto c (out ++ [44])) (escapeInto c out) = _
    rw [escapeInto_eq]
    induction cs generalizing out c with
    | nil =>
      rw [List.map_singleton, List.intercalate_singleton]
      rfl
    | cons c' cs ih =>
      have hjoin : [marks.comma].intercalate ((c :: c' :: cs).map (Csv.escape marks)) =
          Csv.escape marks c ++ [marks.comma] ++
            [marks.comma].intercalate ((c' :: cs).map (Csv.escape marks)) := by
        rw [List.map_cons, List.intercalate_cons_of_ne_nil (by simp)]
      rw [List.foldl_cons, escapeInto_eq, ih, hjoin]
      simp only [List.append_assoc]
      rfl

theorem header_eq (s : Sheet) (out : Str) :
    s.header out = out ++ BOM ++ Csv.writeRecord marks s.columns := by
  unfold header Csv.writeRecord
  rw [cells_eq, List.append_assoc]
  rfl

/-- The cells of a hit. -/
def record (T : CaseTable) (owners : Owners) (s : Sheet) (h : Hit) : List Str :=
  s.columns.map fun id => cellOf T owners id h

variable {T : CaseTable} {owners : Owners}

theorem row_eq (s : Sheet) (h : Hit) (out : Str) :
    s.row T owners h out = out ++ Csv.writeRecord marks (s.record T owners h) := by
  unfold row Csv.writeRecord
  rw [cells_eq, List.append_assoc]
  rfl

theorem foldl_row (s : Sheet) (hits : List Hit) : ∀ out : Str,
    hits.foldl (fun out h => s.row T owners h out) out =
      out ++ Csv.write marks (hits.map (s.record T owners)) := by
  induction hits with
  | nil => exact fun out => (List.append_nil out).symm
  | cons h hits ih =>
    intro out
    rw [List.foldl_cons, ih, row_eq, List.append_assoc]
    rfl

/-- A header and a record for each hit, behind the mark. -/
theorem text_eq (s : Sheet) (hits : List Hit) :
    s.text T owners hits = BOM ++ Csv.write marks (s.columns :: hits.map (s.record T owners)) := by
  unfold text
  rw [foldl_row, header_eq, List.nil_append, List.append_assoc]
  rfl

end Sheet

/-! ## It is a text -/

theorem isText_utf8 (t : Text) : IsText (utf8 t) := ⟨t, rfl⟩

theorem isText_str (s : String) : IsText (str s) := ⟨s.toList, rfl⟩

theorem isText_append {a b : Str} (ha : IsText a) (hb : IsText b) : IsText (a ++ b) := by
  obtain ⟨cs, rfl⟩ := ha
  obtain ⟨ds, rfl⟩ := hb
  exact ⟨cs ++ ds, List.flatMap_append⟩

theorem isText_ite {p : Prop} [Decidable p] {a b : Str} (ha : IsText a) (hb : IsText b) :
    IsText (if p then a else b) := by
  split
  · exact ha
  · exact hb

/-- A path is cut at a separator, so both parts are texts. -/
theorem isText_splitPath {path : Str} (h : IsText path) :
    IsText (splitPath path).1 ∧ IsText (splitPath path).2 := by
  have hcut : ∀ l r, rsplitOnce path = some (l, r) → IsText l ∧ IsText r := by
    intro l r hs
    obtain ⟨cs, rfl⟩ := h
    obtain ⟨c1, c2, -, h1, h2⟩ := utf8_split cs l r ((rsplitOnce_eq_some_iff _ _ _).mp hs).1
    exact ⟨⟨c1, h1⟩, ⟨c2, h2⟩⟩
  unfold splitPath
  split
  · rename_i name hs
    exact ⟨⟨['/'], rfl⟩, (hcut _ _ hs).2⟩
  · rename_i parent name _ hs
    exact hcut _ _ hs
  · exact ⟨⟨[], rfl⟩, h⟩

theorem isText_cellOf (T : CaseTable) (owners : Owners) (id : Str) {h : Hit} (hp : IsText h.path) :
    IsText (cellOf T owners id h) := by
  obtain ⟨hparent, hname⟩ := isText_splitPath hp
  unfold cellOf
  -- a path, parts of one, and texts of their own
  refine isText_ite hname (isText_ite hparent (isText_ite hp ?_))
  refine isText_ite (isText_utf8 _) (isText_ite (isText_str _) (isText_ite (isText_str _) ?_))
  refine isText_ite (isText_utf8 _) (isText_ite (isText_utf8 _) (isText_ite (isText_utf8 _) ?_))
  refine isText_ite (isText_str _) (isText_ite (isText_utf8 _) (isText_ite (isText_utf8 _) ?_))
  exact isText_ite (isText_utf8 _) (isText_ite (isText_str _) ⟨[], rfl⟩)

theorem isText_escape {v : Str} (hv : IsText v) : IsText (Csv.escape marks v) := by
  obtain ⟨cs, rfl⟩ := hv
  have hchar : ∀ c : Char, ((String.utf8EncodeChar c).flatMap fun b =>
      if b = marks.quote then [b, b] else [b]) = utf8 (if c = '"' then [c, c] else [c]) := by
    intro c
    by_cases hc : c = '"'
    · rw [if_pos hc, hc]
      rfl
    · have hnot : ∀ b ∈ String.utf8EncodeChar c, b ≠ marks.quote := by
        rintro b hb rfl
        have := (mem_utf8EncodeChar_iff c marks.quote (by decide)).mp hb
        exact hc (Char.toNat_inj.mp this)
      have hid : ((String.utf8EncodeChar c).flatMap fun b =>
          if b = marks.quote then [b, b] else [b]) = (String.utf8EncodeChar c).flatMap fun b => [b] :=
        List.flatMap_congr fun b hb => if_neg (hnot b hb)
      rw [if_neg hc, hid]
      simp [utf8]
  have hdouble : (utf8 cs).flatMap (fun b => if b = marks.quote then [b, b] else [b]) =
      utf8 (cs.flatMap fun c => if c = '"' then [c, c] else [c]) := by
    unfold utf8
    rw [List.flatMap_assoc, List.flatMap_assoc]
    exact List.flatMap_congr fun c _ => hchar c
  unfold Csv.escape
  split
  · rw [hdouble]
    exact isText_append (isText_append ⟨['"'], rfl⟩ (isText_utf8 _)) ⟨['"'], rfl⟩
  · exact isText_utf8 cs

theorem isText_writeRecord {r : List Str} (h : ∀ v ∈ r, IsText v) :
    IsText (Csv.writeRecord marks r) := by
  apply isText_append
  · induction r with
    | nil => exact ⟨[], rfl⟩
    | cons v r ih =>
      have hv := isText_escape (h v List.mem_cons_self)
      cases r with
      | nil =>
        rw [List.map_singleton, List.intercalate_singleton]
        exact hv
      | cons v' r =>
        rw [List.map_cons, List.intercalate_cons_of_ne_nil (by simp)]
        exact isText_append (isText_append hv ⟨[','], rfl⟩)
          (ih fun u hu => h u (List.mem_cons_of_mem v hu))
  · exact ⟨['\r', '\n'], rfl⟩

theorem isText_record {T : CaseTable} {owners : Owners} {s : Sheet} {h : Hit}
    (hp : IsText h.path) : ∀ v ∈ s.record T owners h, IsText v := by
  intro v hv
  obtain ⟨id, -, rfl⟩ := List.mem_map.mp hv
  exact isText_cellOf T owners id hp

/-! ## The pieces -/

section
variable {T : CaseTable} {owners : Owners} {chunk : Nat} {out : Out} {s : Sheet}

/-- What is handed over and what is not yet, after these hits: all that is written of them. -/
structure Run.Holds (T : CaseTable) (owners : Owners) (s : Sheet) (done : List Hit) (e : Run) :
    Prop where
  all : e.pieces.flatMap utf8 ++ e.buf = s.text T owners done
  isText : IsText e.buf
  wrote : e.wrote = done.length

theorem Run.holds_start (hcols : ∀ c ∈ s.columns, IsText c) :
    (Run.start s).Holds T owners s [] where
  all := rfl
  isText := by
    show IsText (s.header [])
    rw [Sheet.header_eq, List.nil_append]
    exact isText_append ⟨['\uFEFF'], by decide⟩ (isText_writeRecord hcols)
  wrote := rfl

/-- A piece takes all there is, and says whether to go on. -/
theorem Run.Holds.flush {done : List Hit} {e : Run} (h : e.Holds T owners s done)
    (hrun : e.stopped = false) :
    (e.flush out).1.Holds T owners s done ∧ (e.flush out).1.buf = [] ∧
      (e.flush out).1.stopped = !(e.flush out).2 ∧
      ((e.flush out).2 = false → out (e.flush out).1.pieces = false) := by
  obtain ⟨cs, hcs⟩ := h.isText
  have hpiece : utf8 (lossy e.buf) = e.buf := by
    rw [← hcs]
    exact congrArg utf8 (lossy_encode cs)
  have hall : (e.pieces ++ [lossy e.buf]).flatMap utf8 ++ [] = s.text T owners done := by
    rw [List.append_nil, List.flatMap_append, List.flatMap_singleton, hpiece]
    exact h.all
  unfold Run.flush
  by_cases hbuf : e.buf = []
  · rw [if_pos hbuf]
    exact ⟨h, hbuf, hrun, nofun⟩
  · rw [if_neg hbuf]
    dsimp only
    cases hout : out (e.pieces ++ [lossy e.buf]) with
    | true =>
      rw [if_pos rfl]
      exact ⟨⟨hall, ⟨[], rfl⟩, h.wrote⟩, rfl, hrun, nofun⟩
    | false =>
      rw [if_neg Bool.false_ne_true]
      exact ⟨⟨hall, ⟨[], rfl⟩, h.wrote⟩, rfl, rfl, fun _ => hout⟩

theorem Run.Holds.write {done : List Hit} {e : Run} (h : e.Holds T owners s done) {hit : Hit}
    (hp : IsText hit.path) :
    Run.Holds T owners s (done ++ [hit])
      { e with buf := s.row T owners hit e.buf, wrote := e.wrote + 1 } where
  all := by
    have hrow : s.row T owners hit (s.text T owners done) = s.text T owners (done ++ [hit]) := by
      unfold Sheet.text
      rw [List.foldl_append]
      rfl
    rw [← hrow, ← h.all, Sheet.row_eq, Sheet.row_eq, List.append_assoc]
  isText := by
    show IsText (s.row T owners hit e.buf)
    rw [Sheet.row_eq]
    exact isText_append h.isText (isText_writeRecord (isText_record hp))
  wrote := by
    rw [List.length_append, ← h.wrote]
    rfl

/-- When a run is where the caller said stop. -/
def Run.Declined (out : Out) (e : Run) : Prop := e.stopped = true ∧ e.buf = [] ∧ out e.pieces = false

theorem Run.Holds.hit {done : List Hit} {e : Run} (h : e.Holds T owners s done)
    (hrun : e.stopped = false) {hit : Hit} (hp : IsText hit.path) :
    (e.hit T owners chunk out s hit).1.Holds T owners s (done ++ [hit]) ∧
      (e.hit T owners chunk out s hit).1.stopped = !(e.hit T owners chunk out s hit).2 ∧
      ((e.hit T owners chunk out s hit).2 = false →
        (e.hit T owners chunk out s hit).1.Declined out) := by
  have hwrite := h.write hp
  unfold Run.hit
  dsimp only
  split
  · obtain ⟨hholds, hbuf, hstop, hdecl⟩ := @Run.Holds.flush T owners out s _ _ hwrite hrun
    refine ⟨hholds, hstop, fun hgo => ⟨?_, hbuf, hdecl hgo⟩⟩
    rw [hstop, hgo]
    rfl
  · exact ⟨hwrite, hrun, nofun⟩

/-- After a row at a time, all is written of the hits so far, which are all of them unless the
caller said stop. -/
theorem Run.Holds.visit (hits : List Hit) : ∀ {done : List Hit} {e : Run},
    e.Holds T owners s done → e.stopped = false → (∀ h ∈ hits, IsText h.path) →
    ∃ seen, seen <+: hits ∧
      (Export.visit (Run.hit T owners chunk out s) e hits).1.Holds T owners s (done ++ seen) ∧
      (seen = hits ∧ (Export.visit (Run.hit T owners chunk out s) e hits).1.stopped = false ∨
        (Export.visit (Run.hit T owners chunk out s) e hits).1.Declined out) := by
  induction hits with
  | nil =>
    intro done e h hrun _
    exact ⟨[], List.nil_prefix, by rwa [List.append_nil], Or.inl ⟨rfl, hrun⟩⟩
  | cons hit hits ih =>
    intro done e h hrun hp
    obtain ⟨hholds, hstop, hdecl⟩ := @Run.Holds.hit T owners chunk out s _ _ h hrun hit
      (hp hit List.mem_cons_self)
    unfold Export.visit
    cases hstep : e.hit T owners chunk out s hit with
    | mk e' go =>
      rw [hstep] at hholds hstop hdecl
      cases go with
      | true =>
        obtain ⟨seen, hpre, hrest, hend⟩ := ih hholds hstop fun h' hh =>
          hp h' (List.mem_cons_of_mem hit hh)
        refine ⟨hit :: seen, List.cons_prefix_cons.mpr ⟨rfl, hpre⟩, ?_, ?_⟩
        · rwa [List.append_assoc, List.singleton_append] at hrest
        · exact hend.imp (fun h => ⟨by rw [h.1], h.2⟩) id
      | false =>
        exact ⟨[hit], ⟨hits, rfl⟩, hholds, Or.inr (hdecl rfl)⟩

/-- The pieces are what is written of the rows they are of: all of them, unless the caller said
stop. -/
theorem exported_eq (hcols : ∀ c ∈ s.columns, IsText c) {hits : List Hit}
    (hp : ∀ h ∈ hits, IsText h.path) :
    (exported T owners chunk out s hits).pieces.flatMap utf8 =
        s.text T owners (hits.take (exported T owners chunk out s hits).wrote) ∧
      ((exported T owners chunk out s hits).wrote = hits.length ∨
        out (exported T owners chunk out s hits).pieces = false) := by
  obtain ⟨seen, hpre, hholds, hend⟩ :=
    @Run.Holds.visit T owners chunk out s hits _ _ (Run.holds_start hcols) rfl hp
  rw [List.nil_append] at hholds
  have htake : ∀ n, n = seen.length → hits.take n = seen := by
    rintro n rfl
    exact (List.prefix_iff_eq_take.mp hpre).symm
  unfold exported Run.finish
  rcases hend with ⟨rfl, hrun⟩ | ⟨hstop, hbuf, hdecl⟩
  · obtain ⟨hflushed, hbuf, -, -⟩ := @Run.Holds.flush T owners out s _ _ hholds hrun
    have hall := hflushed.all
    rw [if_neg (by rw [hrun]; exact Bool.false_ne_true), htake _ hflushed.wrote]
    rw [hbuf, List.append_nil] at hall
    exact ⟨hall, Or.inl hflushed.wrote⟩
  · have hall := hholds.all
    rw [if_pos hstop, htake _ hholds.wrote]
    rw [hbuf, List.append_nil] at hall
    exact ⟨hall, Or.inr hdecl⟩

end

/-! ## The hits of the index -/

section
variable {P : Platform} {hidden : PrefixSet} {query : Ast} {σ : Type}

theorem visit_append {α : Type} (f : σ → α → σ × Bool) (xs ys : List α) : ∀ s : σ,
    visit f s (xs ++ ys) = match visit f s xs with
      | (s, true) => visit f s ys
      | (s, false) => (s, false) := by
  induction xs with
  | nil => exact fun _ => rfl
  | cons x xs ih =>
    intro s
    simp only [List.cons_append, visit]
    cases f s x with
    | mk s' go =>
      cases go with
      | true => exact ih s'
      | false => rfl

theorem visitRows_passing (l : OpenSegment P) (f : σ → View → Nat → σ × Bool) (rows : List Nat) :
    ∀ s : σ, visitRows (l.passing hidden f) s rows =
      visit (fun s x => f s x.1 x.2) s
        ((rows.filter fun row => !l.hides hidden row).map fun row => (l.view, row)) := by
  induction rows with
  | nil => exact fun _ => rfl
  | cons row rows ih =>
    intro s
    unfold visitRows
    rw [passing_eq]
    by_cases hr : l.hides hidden row = true
    · rw [if_pos hr, List.filter_cons_of_neg (by simp [hr])]
      exact ih s
    · rw [if_neg hr, List.filter_cons_of_pos (by simpa using hr), List.map_cons]
      unfold visit
      cases f s l.view row with
      | mk s' go =>
        cases go with
        | true => exact ih s'
        | false => rfl

/-- A query that compiles is a walk over the rows that match. -/
theorem forEachMatch_visit (f : σ → View → Nat → σ × Bool) (ls : List (OpenSegment P)) :
    ∀ s : σ, queryError query ls = none →
      forEachMatch hidden query f s ls =
        .ok (visit (fun s x => f s x.1 x.2) s (walkedRows hidden query ls)).1 := by
  induction ls with
  | nil => exact fun _ _ => rfl
  | cons l ls ih =>
    intro s h
    unfold forEachMatch
    unfold queryError at h
    cases hp : (Plan.compile query l.view : Except QueryError (Plan P)) with
    | error e =>
      rw [hp] at h
      cases h
    | ok plan =>
      rw [hp] at h
      have hwalked : walkedRows hidden query (l :: ls) =
          (((walkMatches l.view plan).filter fun row => !l.hides hidden row).map fun row =>
            (l.view, row)) ++ walkedRows hidden query ls := by
        unfold walkedRows
        rw [List.flatMap_cons, hp]
      rw [hwalked, visit_append]
      dsimp only
      rw [visitRows_passing]
      generalize visit (fun s (x : View × Nat) => f s x.1 x.2) s _ = r
      obtain ⟨s', go⟩ := r
      cases go with
      | true => exact ih s' h
      | false => rfl

/-- Rows visited one for one with their hits, and counted. -/
theorem visit_counting (f : σ → Hit → σ × Bool) {g : σ × Nat → View × Nat → (σ × Nat) × Bool}
    {rows : List (View × Nat)}
    (hg : ∀ x ∈ rows, ∀ s n, g (s, n) x = (((f s (rowHit x)).1, n + 1), (f s (rowHit x)).2))
    (s : σ) (n : Nat) : ((visit g (s, n) rows).1).1 = (visit f s (rows.map rowHit)).1 := by
  induction rows generalizing s n with
  | nil => rfl
  | cons x rows ih =>
    rw [List.map_cons]
    unfold visit
    rw [hg x List.mem_cons_self]
    cases f s (rowHit x) with
    | mk s' go =>
      cases go with
      | true => exact ih (fun y hy => hg y (List.mem_cons_of_mem x hy)) s' (n + 1)
      | false => rfl

/-- A scan visits the hits of those rows. -/
theorem scan_visit (f : σ → Hit → σ × Bool) (s : σ) {ls : List (OpenSegment P)}
    (h : queryError query ls = none) :
    ∃ n, scan hidden query f s ls =
      .ok ((visit f s ((walkedRows hidden query ls).map rowHit)).1, n) := by
  unfold scan
  rw [forEachMatch_visit _ ls (s, 0) h, ← visit_counting f (fun x hx s n => ?_) s 0]
  · exact ⟨_, rfl⟩
  · obtain ⟨name, hname⟩ := mem_matchingRows ((walkedRows_perm ls).mem_iff.mp hx)
    unfold rowHit
    rw [hname]
    rfl

/-- The engine exports the hits of its index. -/
theorem exportQuery_eq (owners : Owners) (columns : List Str) (out : Out)
    {ls : List (OpenSegment P)} (h : queryError query ls = none) :
    exportQuery owners hidden query columns out ls = .ok (exported P.case owners EXPORT_CHUNK out
      (sheetOf columns) ((walkedRows hidden query ls).map rowHit)) := by
  obtain ⟨n, hscan⟩ := @scan_visit P hidden query _
    (Run.hit P.case owners EXPORT_CHUNK out (sheetOf columns)) (Run.start (sheetOf columns)) ls h
  unfold exportQuery
  dsimp only
  rw [hscan]
  rfl

end

/-! ## What is read back -/

/-- An export reads back: behind the mark there is a record of the columns and one of each hit's
cells, in the only reading there is, and the pieces are the same bytes. -/
theorem export_reads_back (T : CaseTable) (owners : Owners) (columns : List Str) (hits : List Hit)
    (hne : columns ≠ []) (hcols : ∀ c ∈ columns, IsText c) (hp : ∀ h ∈ hits, IsText h.path) :
    (∃ body, Sheet.text T owners ⟨columns⟩ hits = BOM ++ body ∧
      Csv.read marks body =
        some (columns :: hits.map fun h => columns.map fun id => cellOf T owners id h) ∧
      ∀ records, Csv.File marks records body ↔
        records = columns :: hits.map fun h => columns.map fun id => cellOf T owners id h) ∧
    ∀ (chunk : Nat) (out : Out),
      (exported T owners chunk out ⟨columns⟩ hits).pieces.flatMap utf8 =
          Sheet.text T owners ⟨columns⟩
            (hits.take (exported T owners chunk out ⟨columns⟩ hits).wrote) ∧
        ((exported T owners chunk out ⟨columns⟩ hits).wrote = hits.length ∨
          out (exported T owners chunk out ⟨columns⟩ hits).pieces = false) := by
  refine ⟨⟨_, Sheet.text_eq ⟨columns⟩ hits, ?_⟩, fun chunk out => exported_eq hcols hp⟩
  have hfields : ∀ r ∈ columns :: hits.map (Sheet.record T owners ⟨columns⟩), r ≠ [] := by
    intro r hr
    rcases List.mem_cons.mp hr with rfl | hr
    · exact hne
    · obtain ⟨h, -, rfl⟩ := List.mem_map.mp hr
      unfold Sheet.record
      simpa using hne
  have hfile := Csv.file_write (M := marks) _ hfields
  refine ⟨hfile.read, fun records => ⟨fun h => h.unique hfile, ?_⟩⟩
  rintro rfl
  exact hfile

/-- A file whose name has a comma, a quote and a line ending in it. -/
theorem export_reads_back_marked :
    let hit : Hit := ⟨0, str "/x/a,\"\r\nb", false, .file, .UNKNOWN⟩
    Csv.read marks ((Sheet.text .asciiOnly ⟨[], []⟩ ⟨[str "name", str "size"]⟩ [hit]).drop 3) =
      some [[str "name", str "size"], [str "a,\"\r\nb", str "0"]] := by
  intro hit
  have hcols : ∀ c ∈ [str "name", str "size"], IsText c := by
    intro c hc
    rcases List.mem_pair.mp hc with rfl | rfl
    · exact isText_str "name"
    · exact isText_str "size"
  have hpath : ∀ h ∈ [hit], IsText h.path := by
    intro h hh
    rw [List.mem_singleton.mp hh]
    exact isText_str _
  obtain ⟨⟨body, htext, hread, -⟩, -⟩ :=
    export_reads_back .asciiOnly ⟨[], []⟩ [str "name", str "size"] [hit] (by simp) hcols hpath
  have hcells : ([str "name", str "size"].map fun id => cellOf .asciiOnly ⟨[], []⟩ id hit) =
      [str "a,\"\r\nb", str "0"] := by decide
  rw [htext, ← hcells]
  exact hread

end Export

end Scour
