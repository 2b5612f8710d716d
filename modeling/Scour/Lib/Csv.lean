import Mathlib.Data.List.Basic
import Mathlib.Data.List.Flatten

/-!
# Comma separated values

The grammar of RFC 4180 over any four distinct marks, as relations between values and what is
written: a field is written as it is where it holds no mark, and else between quotes with its own
quotes doubled, a record is its fields with commas between them, and a file its records with a
line ending after each, which only the last may go without.

`read` is a reader that goes over the input once.  It finds whatever the grammar allows
(`File.read`), so a file has one reading (`File.unique`), and it reads back what `write` writes
(`read_write`).
-/

namespace Search.Csv

/-- A separator, a quote, and the two halves of a line ending. -/
structure Marks (α : Type) where
  comma : α
  quote : α
  cr : α
  lf : α
  distinct : [comma, quote, cr, lf].Nodup

variable {α : Type}

def Marks.all (M : Marks α) : List α := [M.comma, M.quote, M.cr, M.lf]

/-! ## The grammar -/

/-- A value, and how it stands between quotes. -/
inductive Quoted (M : Marks α) : List α → List α → Prop
  | nil : Quoted M [] []
  | quote {v w} : Quoted M v w → Quoted M (M.quote :: v) (M.quote :: M.quote :: w)
  | other {b v w} : b ≠ M.quote → Quoted M v w → Quoted M (b :: v) (b :: w)

inductive Field (M : Marks α) : List α → List α → Prop
  | plain {v} : (∀ b ∈ v, b ∉ M.all) → Field M v v
  | quoted {v w} : Quoted M v w → Field M v (M.quote :: (w ++ [M.quote]))

inductive Record (M : Marks α) : List (List α) → List α → Prop
  | last {v w} : Field M v w → Record M [v] w
  | cons {v w vs ws} : Field M v w → Record M vs ws → Record M (v :: vs) (w ++ M.comma :: ws)

inductive File (M : Marks α) : List (List (List α)) → List α → Prop
  | nil : File M [] []
  /-- The last record may end with the file.  Where nothing is written there is no record. -/
  | last {r w} : Record M r w → w ≠ [] → File M [r] w
  | cons {r w rs ws} : Record M r w → File M rs ws → File M (r :: rs) (w ++ M.cr :: M.lf :: ws)

/-! ## Reading -/

/-- Where a reader stands. -/
inductive Mode where
  /-- before a field, -/
  | before
  /-- in one without quotes, -/
  | plain
  /-- between quotes, -/
  | quoted
  /-- behind a quote that may be the last, -/
  | closed
  /-- and half way through a line ending. -/
  | ending
deriving DecidableEq

/-- The records, the fields of the one that is read, and what there is of the next field. -/
structure Reader (α : Type) where
  mode : Mode
  records : List (List (List α))
  fields : List (List α)
  field : List α

namespace Reader

variable [DecidableEq α] (M : Marks α)

/-- After a field: a comma or the end of a line. -/
def separate (r : Reader α) (b : α) : Option (Reader α) :=
  if b = M.comma then some ⟨.before, r.records, r.fields ++ [r.field], []⟩
  else if b = M.cr then some ⟨.ending, r.records, r.fields ++ [r.field], []⟩
  else none

def step (r : Reader α) (b : α) : Option (Reader α) :=
  match r.mode with
  | .before =>
      if b = M.quote then some { r with mode := .quoted }
      else if b ∈ M.all then r.separate M b
      else some { r with mode := .plain, field := [b] }
  | .plain =>
      if b ∈ M.all then r.separate M b
      else some { r with field := r.field ++ [b] }
  | .quoted =>
      if b = M.quote then some { r with mode := .closed }
      else some { r with field := r.field ++ [b] }
  | .closed =>
      if b = M.quote then some { r with mode := .quoted, field := r.field ++ [b] }
      else r.separate M b
  | .ending =>
      if b = M.lf then some ⟨.before, r.records ++ [r.fields], [], []⟩ else none

/-- The end of the input. -/
def finish (r : Reader α) : Option (List (List (List α))) :=
  match r.mode with
  | .before =>
      if r.fields = [] then some r.records else some (r.records ++ [r.fields ++ [r.field]])
  | .plain | .closed => some (r.records ++ [r.fields ++ [r.field]])
  | .quoted | .ending => none

def run : Reader α → List α → Option (Reader α)
  | r, [] => some r
  | r, b :: s => (r.step M b).bind fun r => run r s

end Reader

/-- The records of a file, where it is one. -/
def read [DecidableEq α] (M : Marks α) (s : List α) : Option (List (List (List α))) :=
  (Reader.run M ⟨.before, [], [], []⟩ s).bind Reader.finish

/-! ## Writing -/

def escape [DecidableEq α] (M : Marks α) (v : List α) : List α :=
  if v.any (· ∈ M.all) then
    M.quote :: (v.flatMap fun b => if b = M.quote then [b, b] else [b]) ++ [M.quote]
  else v

/-- A record, and the end of its line. -/
def writeRecord [DecidableEq α] (M : Marks α) (r : List (List α)) : List α :=
  [M.comma].intercalate (r.map (escape M)) ++ [M.cr, M.lf]

def write [DecidableEq α] (M : Marks α) (rs : List (List (List α))) : List α :=
  rs.flatMap (writeRecord M)

/-! ## What is written is in the grammar -/

section
variable [DecidableEq α] {M : Marks α}

theorem quoted_double (v : List α) :
    Quoted M v (v.flatMap fun b => if b = M.quote then [b, b] else [b]) := by
  induction v with
  | nil => exact .nil
  | cons b v ih =>
    rw [List.flatMap_cons]
    by_cases hb : b = M.quote
    · rw [if_pos hb, hb]
      exact .quote ih
    · rw [if_neg hb]
      exact .other hb ih

theorem field_escape (v : List α) : Field M v (escape M v) := by
  unfold escape
  by_cases hv : v.any (· ∈ M.all) = true
  · rw [if_pos hv]
    exact .quoted (quoted_double v)
  · rw [if_neg hv]
    apply Field.plain
    simpa using hv

theorem record_write : ∀ r : List (List α), r ≠ [] →
    Record M r ([M.comma].intercalate (r.map (escape M)))
  | [], h => absurd rfl h
  | [v], _ => by
    rw [List.map_singleton, List.intercalate_singleton]
    exact .last (field_escape v)
  | v :: v' :: vs, _ => by
    have hrest := record_write (v' :: vs) (List.cons_ne_nil v' vs)
    rw [List.map_cons, List.intercalate_cons_of_ne_nil (by simp), List.append_assoc,
      List.singleton_append]
    exact .cons (field_escape v) hrest

theorem file_write : ∀ rs : List (List (List α)), (∀ r ∈ rs, r ≠ []) → File M rs (write M rs)
  | [], _ => .nil
  | r :: rs, h => by
    have hr : Record M r _ := record_write r (h r List.mem_cons_self)
    have hrest := file_write rs fun r' hr' => h r' (List.mem_cons_of_mem r hr')
    have heq : write M (r :: rs) = [M.comma].intercalate (r.map (escape M)) ++
        M.cr :: M.lf :: write M rs := by
      unfold write writeRecord
      rw [List.flatMap_cons, List.append_assoc]
      rfl
    rw [heq]
    exact .cons hr hrest

end

/-! ## What is in the grammar is read -/

section
variable {M : Marks α}

theorem Marks.quote_ne_comma : M.comma ≠ M.quote := by
  have := M.distinct
  simp_all

theorem Marks.cr_ne : M.cr ≠ M.comma ∧ M.cr ≠ M.quote := by
  have := M.distinct
  constructor <;> rintro h <;> simp_all

variable [DecidableEq α]

theorem Reader.run_append (r : Reader α) (s t : List α) :
    r.run M (s ++ t) = (r.run M s).bind fun r => r.run M t := by
  induction s generalizing r with
  | nil => rfl
  | cons b s ih =>
    show (r.step M b).bind (fun r => r.run M (s ++ t)) = ((r.step M b).bind _).bind _
    rw [Option.bind_assoc]
    congr 1
    funext r
    exact ih r

/-- Text without marks is taken as it is. -/
theorem Reader.run_plain (v : List α) (hv : ∀ b ∈ v, b ∉ M.all) :
    ∀ (rs : List (List (List α))) (fs : List (List α)) (f : List α),
      Reader.run M ⟨.plain, rs, fs, f⟩ v = some ⟨.plain, rs, fs, f ++ v⟩ := by
  induction v with
  | nil =>
    intro rs fs f
    rw [List.append_nil]
    rfl
  | cons b v ih =>
    intro rs fs f
    have hb : b ∉ M.all := hv b List.mem_cons_self
    have hstep : Reader.step M ⟨.plain, rs, fs, f⟩ b = some ⟨.plain, rs, fs, f ++ [b]⟩ := by
      unfold Reader.step
      exact if_neg hb
    unfold Reader.run
    rw [hstep, Option.bind_some, ih fun c hc => hv c (List.mem_cons_of_mem b hc),
      List.append_assoc, List.singleton_append]

/-- Between quotes everything is taken, and a quote for two of them. -/
theorem Reader.run_quoted {v w : List α} (h : Quoted M v w) :
    ∀ (rs : List (List (List α))) (fs : List (List α)) (f : List α),
      Reader.run M ⟨.quoted, rs, fs, f⟩ w = some ⟨.quoted, rs, fs, f ++ v⟩ := by
  induction h with
  | nil =>
    intro rs fs f
    rw [List.append_nil]
    rfl
  | @quote v w h ih =>
    intro rs fs f
    have hopen : Reader.step M ⟨.quoted, rs, fs, f⟩ M.quote = some ⟨.closed, rs, fs, f⟩ :=
      if_pos rfl
    have hback : Reader.step M ⟨.closed, rs, fs, f⟩ M.quote =
        some ⟨.quoted, rs, fs, f ++ [M.quote]⟩ := if_pos rfl
    unfold Reader.run
    rw [hopen, Option.bind_some]
    unfold Reader.run
    rw [hback, Option.bind_some, ih, List.append_assoc, List.singleton_append]
  | @other b v w hb h ih =>
    intro rs fs f
    have hstep : Reader.step M ⟨.quoted, rs, fs, f⟩ b = some ⟨.quoted, rs, fs, f ++ [b]⟩ :=
      if_neg hb
    unfold Reader.run
    rw [hstep, Option.bind_some, ih, List.append_assoc, List.singleton_append]

/-- Behind a field: it is read, and the reader is where a separator may follow. -/
def Behind (rs : List (List (List α))) (fs : List (List α)) (v w : List α) (r : Reader α) : Prop :=
  r.records = rs ∧ r.fields = fs ∧ r.field = v ∧
    (r.mode = .plain ∨ r.mode = .closed ∨ r.mode = .before ∧ w = [])

theorem Field.run {v w : List α} (h : Field M v w) (rs : List (List (List α)))
    (fs : List (List α)) :
    ∃ r, Reader.run M ⟨.before, rs, fs, []⟩ w = some r ∧ Behind rs fs v w r := by
  cases h with
  | plain hv =>
    cases v with
    | nil => exact ⟨_, rfl, rfl, rfl, rfl, Or.inr (Or.inr ⟨rfl, rfl⟩)⟩
    | cons b v =>
      have hb : b ∉ M.all := hv b List.mem_cons_self
      have hne : b ≠ M.quote := by
        rintro rfl
        exact hb (by simp [Marks.all])
      have hstep : Reader.step M ⟨.before, rs, fs, []⟩ b = some ⟨.plain, rs, fs, [b]⟩ := by
        unfold Reader.step
        simp only [if_neg hne, if_neg hb]
      refine ⟨⟨.plain, rs, fs, [b] ++ v⟩, ?_, rfl, rfl, rfl, Or.inl rfl⟩
      unfold Reader.run
      rw [hstep, Option.bind_some]
      exact Reader.run_plain v (fun c hc => hv c (List.mem_cons_of_mem b hc)) rs fs [b]
  | @quoted w h =>
    have hopen : Reader.step M ⟨.before, rs, fs, []⟩ M.quote = some ⟨.quoted, rs, fs, []⟩ :=
      if_pos rfl
    have hclose : Reader.step M ⟨.quoted, rs, fs, v⟩ M.quote = some ⟨.closed, rs, fs, v⟩ :=
      if_pos rfl
    refine ⟨⟨.closed, rs, fs, v⟩, ?_, rfl, rfl, rfl, Or.inr (Or.inl rfl)⟩
    unfold Reader.run
    rw [hopen, Option.bind_some, Reader.run_append, Reader.run_quoted h, Option.bind_some,
      List.nil_append]
    unfold Reader.run
    rw [hclose]
    rfl

theorem Behind.step {rs : List (List (List α))} {fs : List (List α)} {v w : List α}
    {r : Reader α} (h : Behind rs fs v w r) {b : α} (hb : b = M.comma ∨ b = M.cr) :
    r.step M b = r.separate M b := by
  have hne : b ≠ M.quote := by
    rcases hb with rfl | rfl
    · exact Marks.quote_ne_comma
    · exact Marks.cr_ne.2
  have hmem : b ∈ M.all := by
    rcases hb with rfl | rfl <;> simp [Marks.all]
  unfold Reader.step
  rcases h.2.2.2 with hm | hm | ⟨hm, -⟩ <;> simp [hm, hne, hmem]

theorem Behind.comma {rs : List (List (List α))} {fs : List (List α)} {v w : List α}
    {r : Reader α} (h : Behind rs fs v w r) :
    r.step M M.comma = some ⟨.before, rs, fs ++ [v], []⟩ := by
  rw [h.step (Or.inl rfl)]
  unfold Reader.separate
  rw [if_pos rfl, h.1, h.2.1, h.2.2.1]

theorem Behind.cr {rs : List (List (List α))} {fs : List (List α)} {v w : List α}
    {r : Reader α} (h : Behind rs fs v w r) :
    r.step M M.cr = some ⟨.ending, rs, fs ++ [v], []⟩ := by
  rw [h.step (Or.inr rfl)]
  unfold Reader.separate
  rw [if_neg Marks.cr_ne.1, if_pos rfl, h.1, h.2.1, h.2.2.1]

/-- Behind a record its fields but the last are read, and the last is behind. -/
theorem Record.run {vs : List (List α)} {w : List α} (h : Record M vs w)
    (rs : List (List (List α))) : ∀ fs : List (List α),
    ∃ r fs' v w', Reader.run M ⟨.before, rs, fs, []⟩ w = some r ∧ Behind rs fs' v w' r ∧
      fs' ++ [v] = fs ++ vs ∧ (w' = [] → fs' = [] → w = []) := by
  induction h with
  | @last v w h =>
    intro fs
    obtain ⟨r, hr, hb⟩ := h.run rs fs
    exact ⟨r, fs, v, w, hr, hb, rfl, fun h _ => h⟩
  | @cons v w vs ws h hrest ih =>
    intro fs
    obtain ⟨r, hr, hb⟩ := h.run rs fs
    obtain ⟨r', fs', v', w', hr', hb', hfs, -⟩ := ih (fs ++ [v])
    refine ⟨r', fs', v', w', ?_, hb', ?_, ?_⟩
    · rw [Reader.run_append, hr, Option.bind_some]
      unfold Reader.run
      rw [hb.comma, Option.bind_some]
      exact hr'
    · rw [hfs, List.append_assoc, List.singleton_append]
    · -- a second field stands behind a first
      rintro - rfl
      have hlen := congrArg List.length hfs
      cases hrest <;> simp at hlen
      omega

theorem File.run {rs : List (List (List α))} {s : List α} (h : File M rs s) :
    ∀ rs₀ : List (List (List α)),
      (Reader.run M ⟨.before, rs₀, [], []⟩ s).bind Reader.finish = some (rs₀ ++ rs) := by
  induction h with
  | nil =>
    intro rs₀
    rw [List.append_nil]
    rfl
  | @last r w h hne =>
    intro rs₀
    obtain ⟨q, fs, v, w', hq, ⟨hrec, hfs, hv, hmode⟩, heq, hempty⟩ := h.run rs₀ []
    rw [hq, Option.bind_some]
    unfold Reader.finish
    rw [List.nil_append] at heq
    rcases hmode with hm | hm | ⟨hm, hw'⟩
    · simp [hm, hrec, hfs, hv, heq]
    · simp [hm, hrec, hfs, hv, heq]
    · have hsome : fs ≠ [] := fun hnil => hne (hempty hw' hnil)
      simp [hm, hrec, hfs, hv, heq, hsome]
  | @cons r w rs ws h hrest ih =>
    intro rs₀
    obtain ⟨q, fs, v, w', hq, hb, heq, -⟩ := h.run rs₀ []
    have hline : Reader.step M ⟨.ending, rs₀, fs ++ [v], []⟩ M.lf =
        some ⟨.before, rs₀ ++ [fs ++ [v]], [], []⟩ := if_pos rfl
    rw [Reader.run_append, hq, Option.bind_some]
    unfold Reader.run
    rw [hb.cr, Option.bind_some]
    unfold Reader.run
    rw [hline, Option.bind_some, heq, List.nil_append, ih, List.append_assoc,
      List.singleton_append]

/-- The reader finds what the grammar allows. -/
theorem File.read {rs : List (List (List α))} {s : List α} (h : File M rs s) :
    Csv.read M s = some rs := by
  unfold Csv.read
  rw [h.run [], List.nil_append]

/-- A file has one reading. -/
theorem File.unique {rs rs' : List (List (List α))} {s : List α} (h : File M rs s)
    (h' : File M rs' s) : rs = rs' :=
  Option.some.inj (h.read.symm.trans h'.read)

theorem read_write (rs : List (List (List α))) (h : ∀ r ∈ rs, r ≠ []) :
    Csv.read M (write M rs) = some rs := (file_write rs h).read

end

end Search.Csv
