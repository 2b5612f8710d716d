import Scour.Lib.Split
import Scour.Lib.Utf8
import Scour.Query

/-!
# A connection to the service

A session reads requests a line at a time from a socket, whose bytes arrive in pieces of any size
(`readLine`), and answers each before it reads the next (`session`).  What it reads is what the bytes
say, however they are cut (`readLines_eq`), and all it writes is one text: the frames of every line
in their order, as far as the socket takes them (`session_answers`).
-/

namespace Scour.Ipc

variable {Request Response Error : Type}

/-- One request, with the id its reply will carry. -/
structure Call (Request : Type) where
  id : UInt64
  request : Request

inductive Outcome (Response Error : Type)
  | ok (r : Response)
  | error (e : Error)

/-- One frame of one answer; another with this id follows when there is `more`. -/
structure Reply (Response Error : Type) where
  id : UInt64
  more : Bool
  outcome : Outcome Response Error

/-- A whole answer, in one frame. -/
def Reply.whole (id : UInt64) (outcome : Outcome Response Error) : Reply Response Error :=
  ⟨id, false, outcome⟩

/-- A piece, with more to come. -/
def Reply.piece (id : UInt64) (response : Response) : Reply Response Error :=
  ⟨id, true, .ok response⟩

def newline : UInt8 := 10

/-- How requests and replies are spelled, which this development leaves open. -/
structure Wording (Request Response Error : Type) where
  /-- `serde_json::to_string` -/
  toString : Reply Response Error → Option Str
  /-- `serde_json::from_str`, with what it says of a text that is no call -/
  fromStr : Text → Except Text (Call Request)
  /-- `Error::Config` -/
  config : Text → Error
  /-- `char::is_whitespace` -/
  isWhitespace : Char → Bool
  /-- Every reply can be spelled, -/
  spelled : ∀ r, (toString r).isSome = true
  /-- and is, on one line. -/
  oneLine : ∀ r text, toString r = some text → newline ∉ text

/-! ## Reading -/

/-- What one read of the socket gives: some bytes, or nothing for a reason.  When there is no read
left the peer has closed its end. -/
inductive Read
  | data (first : UInt8) (rest : Str)
  | interrupted
  | failed

/-- A line, the end of the stream, or a refusal. -/
inductive Line
  | line (s : Text)
  | ended
  | tooLong
deriving DecidableEq

/-- The largest request this will read. -/
def MAX_LINE : Nat := 1024 * 1024

/-- A final carriage return dropped. -/
def dropCr (s : Text) : Text := if s.getLast? = some '\r' then s.dropLast else s

/-- The loop of `read_line_capped`: `available` is what the reader holds and nobody has consumed. -/
def readLineLoop (buf : Str) : (available : Str) → (reads : List Read) → Line × Str × List Read
  -- a trailing line without a newline is still a request
  | [], [] => (if buf = [] then .ended else .line (Search.lossy buf), [], [])
  | [], .interrupted :: reads => readLineLoop buf [] reads
  | [], .failed :: reads => (.ended, [], reads)
  | [], .data b bs :: reads => readLineLoop buf (b :: bs) reads
  | b :: bs, reads =>
      match (b :: bs).idxOf? newline with
      | some i =>
          if MAX_LINE < buf.length + i then (.tooLong, b :: bs, reads)
          else (.line (dropCr (Search.lossy (buf ++ (b :: bs).take i))), (b :: bs).drop (i + 1), reads)
      | none =>
          if MAX_LINE < buf.length + (b :: bs).length then (.tooLong, b :: bs, reads)
          else readLineLoop (buf ++ b :: bs) [] reads
termination_by available reads => 2 * reads.length + (if available = [] then 0 else 1)

/-- The bytes that arrive before a read fails. -/
def arriving : List Read → Str
  | [] => []
  | .data b bs :: reads => b :: bs ++ arriving reads
  | .interrupted :: reads => arriving reads
  | .failed :: _ => []

/-- Does a read fail? -/
def breaks : List Read → Bool
  | [] => false
  | .data _ _ :: reads => breaks reads
  | .interrupted :: reads => breaks reads
  | .failed :: _ => true

/-- What is to be read of a stream: the first line of its bytes, and the bytes behind it. -/
def firstLine (broken : Bool) (s : Str) : Line × Str :=
  match s.idxOf? newline with
  | some i =>
      if MAX_LINE < i then (.tooLong, s)
      else (.line (dropCr (Search.lossy (s.take i))), s.drop (i + 1))
  | none =>
      if MAX_LINE < s.length then (.tooLong, s)
      else if s = [] ∨ broken then (.ended, [])
      else (.line (Search.lossy s), [])

/-- The lines of a stream: what stands between newlines, and behind the last when the peer is done;
up to the first that is too long. -/
def linesOf (broken : Bool) (s : Str) : List Text × Bool :=
  let pieces := Search.split newline s
  if pieces.all (·.length ≤ MAX_LINE) then
    let last := pieces.getLast?.getD []
    (pieces.dropLast.map (fun p => dropCr (Search.lossy p)) ++
      if last = [] ∨ broken then [] else [Search.lossy last], false)
  else
    ((pieces.takeWhile (·.length ≤ MAX_LINE)).map fun p => dropCr (Search.lossy p), true)

/-! ## What is read is what the bytes say -/

section Bytes

variable {buf available s : Str} {reads : List Read} {broken : Bool}

theorem idxOf?_eq_none {a : Str} : a.idxOf? newline = none ↔ newline ∉ a := by
  unfold List.idxOf?
  rw [List.findIdx?_eq_none_iff]
  constructor
  · intro h hm
    exact absurd (h _ hm) (by simp)
  · rintro h x hx
    rw [beq_eq_false_iff_ne]
    rintro rfl
    exact h hx

theorem idxOf?_append {p : Str} (hp : newline ∉ p) (r : Str) :
    (p ++ r).idxOf? newline = (r.idxOf? newline).map (· + p.length) := by
  have hnone := idxOf?_eq_none.mpr hp
  unfold List.idxOf? at hnone ⊢
  rw [List.findIdx?_append, hnone, Option.none_or]

theorem idxOf?_eq_some {a : Str} {i : ℕ} (h : a.idxOf? newline = some i) :
    ∃ p r, a = p ++ newline :: r ∧ newline ∉ p ∧ p.length = i := by
  induction a generalizing i with
  | nil => cases h
  | cons b bs ih =>
    rw [List.idxOf?_cons] at h
    split at h
    · rename_i hb
      cases h
      exact ⟨[], bs, by rw [beq_iff_eq.mp hb]; rfl, List.not_mem_nil, rfl⟩
    · rename_i hb
      obtain ⟨j, hj, rfl⟩ := Option.map_eq_some_iff.mp h
      obtain ⟨p, r, rfl, hp, rfl⟩ := ih hj
      refine ⟨b :: p, r, rfl, ?_, rfl⟩
      rw [List.mem_cons, not_or]
      exact ⟨fun he => hb (by rw [he]; exact beq_self_eq_true _), hp⟩

theorem firstLine_newline {p : Str} (hp : newline ∉ p) (r : Str) :
    firstLine broken (p ++ newline :: r) =
      if MAX_LINE < p.length then (.tooLong, p ++ newline :: r)
      else (.line (dropCr (Search.lossy p)), r) := by
  have hi : (p ++ newline :: r).idxOf? newline = some p.length := by
    rw [idxOf?_append hp, List.idxOf?_cons, if_pos (beq_self_eq_true _), Option.map_some, Nat.zero_add]
  unfold firstLine
  rw [hi]
  dsimp only
  rw [List.take_left' rfl, show (p ++ newline :: r).drop (p.length + 1) = r by simp]

theorem firstLine_open {p : Str} (hp : newline ∉ p) : firstLine broken p =
    if MAX_LINE < p.length then (.tooLong, p)
    else if p = [] ∨ broken then (.ended, [])
    else (.line (Search.lossy p), []) := by
  unfold firstLine
  rw [idxOf?_eq_none.mpr hp]

/-- A line is too long as soon as so much of it is there. -/
theorem firstLine_long {p : Str} (hp : newline ∉ p) (hlong : MAX_LINE < p.length) (r : Str) :
    (firstLine broken (p ++ r)).1 = .tooLong := by
  unfold firstLine
  rw [idxOf?_append hp]
  cases r.idxOf? newline with
  | none =>
    dsimp only [Option.map_none]
    rw [if_pos (by rw [List.length_append]; omega)]
  | some i =>
    dsimp only [Option.map_some]
    rw [if_pos (by omega)]

/-- A line that is begun is read to its end, whatever the reads. -/
theorem readLineLoop_spec (buf available : Str) (reads : List Read) (hbuf : newline ∉ buf)
    (hlen : buf.length ≤ MAX_LINE) :
    (readLineLoop buf available reads).1 =
        (firstLine (breaks reads) (buf ++ available ++ arriving reads)).1 ∧
      ∀ l, (readLineLoop buf available reads).1 = .line l →
        (readLineLoop buf available reads).2.1 ++ arriving (readLineLoop buf available reads).2.2 =
            (firstLine (breaks reads) (buf ++ available ++ arriving reads)).2 ∧
          breaks (readLineLoop buf available reads).2.2 = breaks reads := by
  induction buf, available, reads using readLineLoop.induct with
  | case1 buf =>
    have hs : buf ++ [] ++ arriving [] = buf := by simp [arriving]
    rw [hs, firstLine_open hbuf, if_neg (by omega)]
    unfold readLineLoop breaks
    by_cases hnil : buf = []
    · rw [if_pos hnil, if_pos (Or.inl hnil)]
      exact ⟨rfl, fun l hl => by cases hl⟩
    · rw [if_neg hnil, if_neg (by simp [hnil])]
      exact ⟨rfl, fun l _ => ⟨rfl, rfl⟩⟩
  | case2 buf reads ih =>
    unfold readLineLoop
    exact ih hbuf hlen
  | case3 buf reads =>
    have hs : buf ++ [] ++ arriving (.failed :: reads) = buf := by simp [arriving]
    rw [hs, firstLine_open hbuf, if_neg (by omega)]
    unfold readLineLoop breaks
    rw [if_pos (Or.inr rfl)]
    exact ⟨rfl, fun l hl => by cases hl⟩
  | case4 buf b bs reads ih =>
    have hs : buf ++ [] ++ arriving (.data b bs :: reads) = buf ++ b :: bs ++ arriving reads := by
      simp [arriving]
    rw [hs]
    unfold readLineLoop
    exact ih hbuf hlen
  | case5 buf b bs reads i hi hlong =>
    obtain ⟨p, r, hsplit, hp, rfl⟩ := idxOf?_eq_some hi
    have hs : buf ++ b :: bs ++ arriving reads = (buf ++ p) ++ newline :: (r ++ arriving reads) := by
      simp [hsplit]
    unfold readLineLoop
    rw [hi, hs]
    dsimp only
    rw [if_pos hlong, firstLine_long (by simp [hbuf, hp]) (by rwa [List.length_append])]
    exact ⟨rfl, fun l hl => by cases hl⟩
  | case6 buf b bs reads i hi hshort =>
    obtain ⟨p, r, hsplit, hp, rfl⟩ := idxOf?_eq_some hi
    have hs : buf ++ b :: bs ++ arriving reads = (buf ++ p) ++ newline :: (r ++ arriving reads) := by
      simp [hsplit]
    have htake : (b :: bs).take p.length = p := by rw [hsplit, List.take_left' rfl]
    have hdrop : (b :: bs).drop (p.length + 1) = r := by rw [hsplit]; simp
    unfold readLineLoop
    rw [hi, hs, firstLine_newline (by simp [hbuf, hp]),
      if_neg (show ¬ MAX_LINE < (buf ++ p).length by rwa [List.length_append])]
    dsimp only
    rw [if_neg hshort, htake, hdrop]
    exact ⟨rfl, fun l _ => ⟨rfl, rfl⟩⟩
  | case7 buf b bs reads hi hlong =>
    have hnone := idxOf?_eq_none.mp hi
    unfold readLineLoop
    rw [hi]
    dsimp only
    rw [if_pos hlong, firstLine_long (List.mem_append.not.mpr (not_or.mpr ⟨hbuf, hnone⟩))
      (by rwa [List.length_append])]
    exact ⟨rfl, fun l hl => by cases hl⟩
  | case8 buf b bs reads hi hshort ih =>
    have hnone := idxOf?_eq_none.mp hi
    have hih := ih (List.mem_append.not.mpr (not_or.mpr ⟨hbuf, hnone⟩))
      (by rw [List.length_append]; omega)
    rw [List.append_nil] at hih
    unfold readLineLoop
    rw [hi]
    dsimp only
    rw [if_neg hshort]
    exact hih

theorem firstLine_shorter {l : Text} (h : (firstLine broken s).1 = .line l) :
    (firstLine broken s).2.length < s.length := by
  cases hi : s.idxOf? newline with
  | some i =>
    obtain ⟨p, r, rfl, hp, rfl⟩ := idxOf?_eq_some hi
    rw [firstLine_newline hp] at h ⊢
    split at h
    · cases h
    · rename_i hlong
      rw [if_neg hlong, List.length_append, List.length_cons]
      show r.length < _
      omega
  | none =>
    rw [firstLine_open (idxOf?_eq_none.mp hi)] at h ⊢
    split at h
    · cases h
    · rename_i hlong
      split at h
      · cases h
      · rename_i hopen
        rw [if_neg hlong, if_neg hopen]
        exact List.length_pos_of_ne_nil fun hnil => hopen (Or.inl hnil)

/-- `read_line_capped`, a call of it: the line, and what is left of the stream. -/
theorem readLine_spec (available : Str) (reads : List Read) :
    (readLineLoop [] available reads).1 = (firstLine (breaks reads) (available ++ arriving reads)).1 ∧
      ∀ l, (readLineLoop [] available reads).1 = .line l →
        (readLineLoop [] available reads).2.1 ++ arriving (readLineLoop [] available reads).2.2 =
            (firstLine (breaks reads) (available ++ arriving reads)).2 ∧
          breaks (readLineLoop [] available reads).2.2 = breaks reads :=
  readLineLoop_spec [] available reads List.not_mem_nil (Nat.zero_le _)

theorem readLine_shorter {l : Text} {rest : Str} {later : List Read}
    (h : readLineLoop [] available reads = (.line l, rest, later)) :
    (rest ++ arriving later).length < (available ++ arriving reads).length := by
  obtain ⟨hfirst, hrest⟩ := readLine_spec available reads
  rw [h] at hfirst hrest
  rw [(hrest l rfl).1]
  exact firstLine_shorter hfirst.symm

/-- The lines a session reads, and whether it refuses the next. -/
def readLines (available : Str) (reads : List Read) : List Text × Bool :=
  match _h : readLineLoop [] available reads with
  | (.line l, rest, later) =>
      let r := readLines rest later
      (l :: r.1, r.2)
  | (.ended, _, _) => ([], false)
  | (.tooLong, _, _) => ([], true)
termination_by (available ++ arriving reads).length
decreasing_by exact readLine_shorter _h

theorem linesOf_newline {p : Str} (hp : newline ∉ p) (r : Str) :
    linesOf broken (p ++ newline :: r) =
      if MAX_LINE < p.length then ([], true)
      else (dropCr (Search.lossy p) :: (linesOf broken r).1, (linesOf broken r).2) := by
  have hsplit : Search.split newline (p ++ newline :: r) = p :: Search.split newline r := by
    rw [Search.split_append_cons, Search.split_of_notMem hp]
    rfl
  have hne := Search.split_ne_nil newline r
  unfold linesOf
  rw [hsplit]
  dsimp only
  by_cases hlong : MAX_LINE < p.length
  · have hnot : decide (p.length ≤ MAX_LINE) = false := by simpa using hlong
    rw [List.all_cons, hnot, Bool.false_and, if_neg Bool.false_ne_true,
      List.takeWhile_cons_of_neg (by simpa using hlong), if_pos hlong]
    rfl
  · have hle : decide (p.length ≤ MAX_LINE) = true := by simpa using hlong
    have htake : (p :: Search.split newline r).takeWhile (fun x => decide (x.length ≤ MAX_LINE)) =
        p :: (Search.split newline r).takeWhile fun x => decide (x.length ≤ MAX_LINE) :=
      List.takeWhile_cons_of_pos hle
    rw [List.all_cons, hle, Bool.true_and, if_neg hlong, htake,
      List.dropLast_cons_of_ne_nil hne, List.getLast?_cons_of_ne_nil hne]
    split <;> rfl

theorem linesOf_open {p : Str} (hp : newline ∉ p) : linesOf broken p =
    if MAX_LINE < p.length then ([], true)
    else (if p = [] ∨ broken then [] else [Search.lossy p], false) := by
  unfold linesOf
  rw [Search.split_of_notMem hp]
  dsimp only
  by_cases hlong : MAX_LINE < p.length
  · have hnot : decide (p.length ≤ MAX_LINE) = false := by simpa using hlong
    rw [List.all_cons, hnot, Bool.false_and, if_neg Bool.false_ne_true,
      List.takeWhile_cons_of_neg (by simpa using hlong), if_pos hlong]
    rfl
  · have hle : decide (p.length ≤ MAX_LINE) = true := by simpa using hlong
    rw [List.all_cons, hle, List.all_nil, Bool.true_and, if_pos rfl, if_neg hlong]
    rfl

theorem linesOf_nil : linesOf broken [] = ([], false) := rfl

/-- The lines of a stream are its first and those behind it. -/
theorem linesOf_eq (broken : Bool) (s : Str) : linesOf broken s =
    match (firstLine broken s).1 with
    | .line l =>
        (l :: (linesOf broken (firstLine broken s).2).1, (linesOf broken (firstLine broken s).2).2)
    | .ended => ([], false)
    | .tooLong => ([], true) := by
  cases hi : s.idxOf? newline with
  | some i =>
    obtain ⟨p, r, rfl, hp, rfl⟩ := idxOf?_eq_some hi
    rw [linesOf_newline hp, firstLine_newline hp]
    split <;> rfl
  | none =>
    have hs := idxOf?_eq_none.mp hi
    rw [linesOf_open hs, firstLine_open hs]
    split
    · rfl
    · split
      · rfl
      · rw [linesOf_nil]

theorem readLines_step (available : Str) (reads : List Read) : readLines available reads =
    match readLineLoop [] available reads with
    | (.line l, rest, later) => (l :: (readLines rest later).1, (readLines rest later).2)
    | (.ended, _, _) => ([], false)
    | (.tooLong, _, _) => ([], true) := by
  conv => lhs; unfold readLines
  split <;> rename_i h <;> rw [h]

/-- However the bytes arrive, the lines are those of the bytes. -/
theorem readLines_eq (available : Str) (reads : List Read) :
    readLines available reads = linesOf (breaks reads) (available ++ arriving reads) := by
  induction available, reads using readLines.induct with
  | case1 available reads l rest later h ih =>
    obtain ⟨hfirst, hrest⟩ := readLine_spec available reads
    rw [h] at hfirst hrest
    obtain ⟨hbytes, hbreaks⟩ := hrest l rfl
    dsimp only at hfirst hbytes hbreaks
    rw [readLines_step, h, linesOf_eq, ← hfirst, ← hbytes, ← hbreaks, ← ih]
  | case2 available reads rest later h =>
    obtain ⟨hfirst, -⟩ := readLine_spec available reads
    rw [h] at hfirst
    rw [readLines_step, h, linesOf_eq, ← hfirst]
  | case3 available reads rest later h =>
    obtain ⟨hfirst, -⟩ := readLine_spec available reads
    rw [h] at hfirst
    rw [readLines_step, h, linesOf_eq, ← hfirst]

end Bytes

/-! ## Answering -/

/-- What a handler does with a request: it returns, or sends a piece and goes on knowing whether it
went out. -/
inductive Handling (Response Error : Type)
  | done (outcome : Outcome Response Error)
  | piece (response : Response) (next : Bool → Handling Response Error)

/-- The peer's end of the socket: what it has been sent, and how much more it takes before it is
gone. -/
structure Wire where
  sent : Str
  room : Option ℕ
deriving DecidableEq

/-- `write_all`, which leaves a beginning behind when it fails. -/
def Wire.writeAll (w : Wire) (text : Str) : Wire × Bool :=
  match w.room with
  | none => (⟨w.sent ++ text, none⟩, true)
  | some n =>
      if text.length ≤ n then (⟨w.sent ++ text, some (n - text.length)⟩, true)
      else (⟨w.sent ++ text.take n, some 0⟩, false)

section Session

variable (W : Wording Request Response Error)

/-- A request that runs, its pieces going straight out. -/
def Handling.run (id : UInt64) : Handling Response Error → Wire → Outcome Response Error × Wire
  | .done outcome, out => (outcome, out)
  | .piece response next, out =>
      match W.toString (.piece id response) with
      | none => (next false).run id out
      | some text =>
          let (out, ok) := out.writeAll (text ++ [newline])
          (next ok).run id out

/-- The answer to a line, and whether the session goes on. -/
def answerLine (handler : Request → Handling Response Error) (line : Text) (out : Wire) :
    Wire × Bool :=
  let (reply, out) := match W.fromStr line with
    | .ok call =>
        let (outcome, out) := (handler call.request).run W call.id out
        (.whole call.id outcome, out)
    | .error e => (.whole 0 (.error (W.config e)), out)
  match W.toString reply with
  | none => (out, false)
  | some text => out.writeAll (text ++ [newline])

/-- What is said of a line over the ceiling. -/
def refusal : Reply Response Error :=
  .whole 0 (.error (W.config ("a request may not exceed 1048576 bytes".toList)))

def sayTooLong (out : Wire) : Wire :=
  match W.toString (refusal W) with
  | none => out
  | some text => (out.writeAll (text ++ [newline])).1

/-- The loop of `session`; the flag and the handler may be another at every turn. -/
def sessionLoop (stop : ℕ → Bool) (handler : ℕ → Request → Handling Response Error) (turn : ℕ)
    (available : Str) (reads : List Read) (out : Wire) : Wire :=
  if stop turn then out
  else
    match _h : readLineLoop [] available reads with
    | (.line line, rest, later) =>
        if line.all W.isWhitespace then sessionLoop stop handler (turn + 1) rest later out
        else
          match answerLine W (handler turn) line out with
          | (out, true) => sessionLoop stop handler (turn + 1) rest later out
          | (out, false) => out
    | (.ended, _, _) => out
    | (.tooLong, _, _) => sayTooLong W out
termination_by (available ++ arriving reads).length
decreasing_by all_goals exact readLine_shorter _h

/-- A connection; `clone` is the other handle of its socket, to write to. -/
def session (stop : ℕ → Bool) (handler : ℕ → Request → Handling Response Error)
    (reads : List Read) (clone : Option Wire) : Option Wire :=
  clone.map (sessionLoop W stop handler 0 [] reads)

/-! ## What is answered -/

/-- The pieces a request is answered in when they all go out, -/
def Handling.pieces : Handling Response Error → List Response
  | .done _ => []
  | .piece response next => response :: (next true).pieces

/-- and what it returns then. -/
def Handling.outcome : Handling Response Error → Outcome Response Error
  | .done outcome => outcome
  | .piece _ next => (next true).outcome

/-- The id a line carries, if it is a call. -/
def lineId (line : Text) : UInt64 :=
  match W.fromStr line with
  | .ok call => call.id
  | .error _ => 0

/-- The frames that answer a line. -/
def answer (handler : Request → Handling Response Error) (line : Text) :
    List (Reply Response Error) :=
  match W.fromStr line with
  | .ok call =>
      (handler call.request).pieces.map (.piece call.id) ++
        [.whole call.id (handler call.request).outcome]
  | .error e => [.whole 0 (.error (W.config e))]

/-- The frames of a connection: every line that is not blank is answered until the service stops, and
a line that is too long is refused. -/
def transcript (stop : ℕ → Bool) (handler : ℕ → Request → Handling Response Error) (turn : ℕ)
    (lines : List Text) (tooLong : Bool) : List (Reply Response Error) :=
  (((lines.zipIdx turn).takeWhile fun x => !stop x.2).filter fun x => !x.1.all W.isWhitespace).flatMap
      (fun x => answer W (handler x.2) x.1) ++
    if tooLong && (List.range' turn (lines.length + 1)).all (!stop ·) then [refusal W] else []

/-- A frame as it is spelled, -/
def Wording.text (r : Reply Response Error) : Str := (W.toString r).getD []

/-- and as it goes out. -/
def Wording.frame (r : Reply Response Error) : Str := W.text r ++ [newline]

variable {W} {stop : ℕ → Bool} {handler : ℕ → Request → Handling Response Error} {out : Wire}

theorem Wording.toString_eq (r : Reply Response Error) : W.toString r = some (W.text r) := by
  unfold Wording.text
  obtain ⟨text, htext⟩ := Option.isSome_iff_exists.mp (W.spelled r)
  rw [htext]
  rfl

theorem Wire.writeAll_nil (w : Wire) : w.writeAll [] = (w, true) := by
  obtain ⟨sent, room⟩ := w
  cases room with
  | none => simp [Wire.writeAll]
  | some n => simp [Wire.writeAll]

/-- Two writes are one of both, -/
theorem Wire.writeAll_append {w : Wire} {a : Str} (h : (w.writeAll a).2 = true) (b : Str) :
    w.writeAll (a ++ b) = (w.writeAll a).1.writeAll b := by
  obtain ⟨sent, room⟩ := w
  cases room with
  | none => simp [Wire.writeAll]
  | some n =>
    unfold Wire.writeAll at h ⊢
    dsimp only at h ⊢
    split at h
    · rename_i hle
      rw [if_pos hle]
      dsimp only
      rw [List.length_append]
      by_cases hb : b.length ≤ n - a.length
      · rw [if_pos (by omega), if_pos hb, List.append_assoc]
        congr 3
        omega
      · rw [if_neg (by omega), if_neg hb, List.append_assoc, List.take_append,
          List.take_of_length_le hle]
    · cases h

/-- and nothing comes behind one that failed. -/
theorem Wire.writeAll_failed {w : Wire} {a : Str} (h : (w.writeAll a).2 = false) (b : Str) :
    w.writeAll (a ++ b) = w.writeAll a ∧ (w.writeAll a).1.room = some 0 := by
  obtain ⟨sent, room⟩ := w
  cases room with
  | none => cases h
  | some n =>
    unfold Wire.writeAll at h ⊢
    dsimp only at h ⊢
    split at h
    · cases h
    · rename_i hlong
      rw [if_neg hlong, List.length_append, if_neg (by omega), List.take_append_of_le_length (by omega)]
      exact ⟨rfl, rfl⟩

theorem Wire.writeAll_gone {w : Wire} (h : w.room = some 0) {a : Str} (ha : a ≠ []) :
    w.writeAll a = (w, false) := by
  obtain ⟨sent, room⟩ := w
  obtain rfl : room = some 0 := h
  have hpos := List.length_pos_of_ne_nil ha
  unfold Wire.writeAll
  dsimp only
  rw [if_neg (by omega)]
  simp

/-- A run nobody is left to tell of. -/
theorem Handling.run_gone (id : UInt64) (h : Handling Response Error) :
    ∀ w : Wire, w.room = some 0 → (h.run W id w).2 = w := by
  induction h with
  | done outcome => exact fun _ _ => rfl
  | piece response next ih =>
    intro w hw
    unfold Handling.run
    rw [W.toString_eq]
    dsimp only
    rw [Wire.writeAll_gone hw (by simp)]
    exact ih false w hw

/-- The pieces of a run are written one behind the other. -/
theorem Handling.run_spec (id : UInt64) (h : Handling Response Error) : ∀ w : Wire,
    (h.run W id w).2 = (w.writeAll ((h.pieces.map (Reply.piece id)).flatMap W.frame)).1 ∧
      ((w.writeAll ((h.pieces.map (Reply.piece id)).flatMap W.frame)).2 = true →
        (h.run W id w).1 = h.outcome) := by
  induction h with
  | done outcome =>
    intro w
    unfold Handling.pieces
    rw [List.map_nil, List.flatMap_nil, Wire.writeAll_nil]
    exact ⟨rfl, fun _ => rfl⟩
  | piece response next ih =>
    intro w
    unfold Handling.pieces Handling.outcome Handling.run
    rw [W.toString_eq, List.map_cons, List.flatMap_cons]
    dsimp only
    rw [show W.text (.piece id response) ++ [newline] = W.frame (.piece id response) from rfl]
    cases hok : (w.writeAll (W.frame (.piece id response))).2 with
    | true =>
      rw [Wire.writeAll_append hok]
      exact ih true _
    | false =>
      obtain ⟨hall, hgone⟩ := Wire.writeAll_failed hok
        (((next true).pieces.map (Reply.piece id)).flatMap W.frame)
      rw [hall, hok]
      exact ⟨Handling.run_gone id (next false) _ hgone, fun h => by cases h⟩

/-- A line is answered in one write, as it were. -/
theorem answerLine_eq (handler : Request → Handling Response Error) (line : Text) (w : Wire) :
    answerLine W handler line w = w.writeAll ((answer W handler line).flatMap W.frame) := by
  unfold answerLine answer
  cases hcall : W.fromStr line with
  | error e =>
    dsimp only
    rw [W.toString_eq, List.flatMap_singleton]
    rfl
  | ok call =>
    dsimp only
    rw [List.flatMap_append, List.flatMap_singleton]
    obtain ⟨hsent, houtcome⟩ := Handling.run_spec (W := W) call.id (handler call.request) w
    rw [hsent, W.toString_eq]
    dsimp only
    cases hok : (w.writeAll (((handler call.request).pieces.map (Reply.piece call.id)).flatMap
        W.frame)).2 with
    | true =>
      rw [houtcome hok, Wire.writeAll_append hok]
      rfl
    | false =>
      obtain ⟨hall, hgone⟩ := Wire.writeAll_failed hok
        (W.frame (.whole call.id (handler call.request).outcome))
      rw [hall, Wire.writeAll_gone hgone (by simp)]
      exact Prod.ext rfl hok.symm

theorem transcript_stopped {turn : ℕ} (h : stop turn = true) (lines : List Text) (tooLong : Bool) :
    transcript W stop handler turn lines tooLong = [] := by
  have hall : (List.range' turn (lines.length + 1)).all (!stop ·) = false := by
    rw [List.range'_succ, List.all_cons, h]
    rfl
  unfold transcript
  rw [hall, Bool.and_false, if_neg Bool.false_ne_true]
  cases lines with
  | nil => rfl
  | cons line lines =>
    rw [List.zipIdx_cons, List.takeWhile_cons_of_neg (by simp [h])]
    rfl

theorem transcript_nil {turn : ℕ} (h : stop turn = false) (tooLong : Bool) :
    transcript W stop handler turn [] tooLong = if tooLong then [refusal W] else [] := by
  unfold transcript
  cases tooLong <;> simp [h]

theorem transcript_cons {turn : ℕ} (h : stop turn = false) (line : Text) (lines : List Text)
    (tooLong : Bool) :
    transcript W stop handler turn (line :: lines) tooLong =
      (if line.all W.isWhitespace then [] else answer W (handler turn) line) ++
        transcript W stop handler (turn + 1) lines tooLong := by
  have hall : (List.range' turn ((line :: lines).length + 1)).all (!stop ·) =
      (List.range' (turn + 1) (lines.length + 1)).all (!stop ·) := by
    rw [List.range'_succ, List.all_cons, h]
    rfl
  unfold transcript
  rw [hall, List.zipIdx_cons, List.takeWhile_cons_of_pos (by simp [h])]
  by_cases hblank : line.all W.isWhitespace = true
  · rw [List.filter_cons_of_neg (by simpa using hblank), if_pos hblank, List.nil_append]
  · rw [List.filter_cons_of_pos (by simpa using hblank), if_neg hblank, List.flatMap_cons,
      List.append_assoc]

theorem sayTooLong_eq (out : Wire) :
    sayTooLong W out = (out.writeAll (W.frame (refusal W))).1 := by
  unfold sayTooLong
  rw [W.toString_eq]
  rfl

theorem sessionLoop_step (turn : ℕ) (available : Str) (reads : List Read) (out : Wire) :
    sessionLoop W stop handler turn available reads out =
      if stop turn then out
      else
        match readLineLoop [] available reads with
        | (.line line, rest, later) =>
            if line.all W.isWhitespace then sessionLoop W stop handler (turn + 1) rest later out
            else
              match answerLine W (handler turn) line out with
              | (out, true) => sessionLoop W stop handler (turn + 1) rest later out
              | (out, false) => out
        | (.ended, _, _) => out
        | (.tooLong, _, _) => sayTooLong W out := by
  conv => lhs; unfold sessionLoop
  split
  · rfl
  · split <;> rename_i h <;> rw [h]

/-- A session writes its transcript. -/
theorem sessionLoop_eq (available : Str) (reads : List Read) : ∀ (turn : ℕ) (out : Wire),
    sessionLoop W stop handler turn available reads out =
      (out.writeAll ((transcript W stop handler turn (readLines available reads).1
        (readLines available reads).2).flatMap W.frame)).1 := by
  have hstopped : ∀ (turn : ℕ) (out : Wire) (lines : List Text) (tooLong : Bool), stop turn = true →
      out = (out.writeAll ((transcript W stop handler turn lines tooLong).flatMap W.frame)).1 := by
    intro turn out lines tooLong h
    rw [transcript_stopped h, List.flatMap_nil, Wire.writeAll_nil]
  induction available, reads using readLines.induct with
  | case1 available reads l rest later h ih =>
    intro turn out
    rw [readLines_step, sessionLoop_step, h]
    dsimp only
    split
    · rename_i hstop
      exact hstopped turn out _ _ hstop
    · rename_i hstop
      rw [transcript_cons (by simpa using hstop), List.flatMap_append]
      split
      · exact ih (turn + 1) out
      · rw [answerLine_eq]
        cases hok : out.writeAll ((answer W (handler turn) l).flatMap W.frame) with
        | mk out' ok =>
          cases ok with
          | true =>
            rw [Wire.writeAll_append (by rw [hok]), hok]
            exact ih (turn + 1) out'
          | false =>
            rw [(Wire.writeAll_failed (by rw [hok]) _).1, hok]
  | case2 available reads rest later h =>
    intro turn out
    rw [readLines_step, sessionLoop_step, h]
    dsimp only
    split
    · rename_i hstop
      exact hstopped turn out _ _ hstop
    · rename_i hstop
      rw [transcript_nil (by simpa using hstop), if_neg Bool.false_ne_true, List.flatMap_nil,
        Wire.writeAll_nil]
  | case3 available reads rest later h =>
    intro turn out
    rw [readLines_step, sessionLoop_step, h]
    dsimp only
    split
    · rename_i hstop
      exact hstopped turn out _ _ hstop
    · rename_i hstop
      rw [transcript_nil (by simpa using hstop), if_pos rfl, List.flatMap_singleton, sayTooLong_eq]

/-- What the peer reads are the frames. -/
theorem split_frames (frames : List (Reply Response Error)) :
    Search.split newline (frames.flatMap W.frame) = frames.map W.text ++ [[]] := by
  induction frames with
  | nil => rfl
  | cons r frames ih =>
    have htext : newline ∉ W.text r := W.oneLine r _ (W.toString_eq r)
    rw [List.flatMap_cons, show W.frame r = W.text r ++ newline :: [] from rfl, List.append_assoc,
      List.cons_append, List.nil_append, Search.split_append_cons, Search.split_of_notMem htext, ih]
    rfl

/-- A line is answered by its pieces and one frame that ends them, all under its own id. -/
theorem answer_eq (handler : Request → Handling Response Error) (line : Text) :
    ∃ pieces outcome, answer W handler line = pieces ++ [.whole (lineId W line) outcome] ∧
      ∀ p ∈ pieces, p.more = true ∧ p.id = lineId W line := by
  unfold answer lineId
  cases W.fromStr line with
  | error e => exact ⟨[], _, rfl, fun p hp => by cases hp⟩
  | ok call =>
    refine ⟨_, _, rfl, fun p hp => ?_⟩
    obtain ⟨response, -, rfl⟩ := List.mem_map.mp hp
    exact ⟨rfl, rfl⟩

end Session

/-- The lines of a connection are those of its bytes, and what is written is the transcript of these
lines, as far as the socket takes it. -/
theorem session_answers (W : Wording Request Response Error) (stop : ℕ → Bool)
    (handler : ℕ → Request → Handling Response Error) (reads : List Read) (out : Wire) :
    readLines [] reads = linesOf (breaks reads) (arriving reads) ∧
    session W stop handler reads (some out) =
      some (out.writeAll ((transcript W stop handler 0 (linesOf (breaks reads) (arriving reads)).1
        (linesOf (breaks reads) (arriving reads)).2).flatMap W.frame)).1 ∧
    (∀ frames : List (Reply Response Error),
      Search.split newline (frames.flatMap W.frame) = frames.map W.text ++ [[]]) ∧
    ∀ turn line, ∃ pieces outcome,
      answer W (handler turn) line = pieces ++ [.whole (lineId W line) outcome] ∧
        ∀ p ∈ pieces, p.more = true ∧ p.id = lineId W line := by
  have hlines : readLines [] reads = linesOf (breaks reads) (arriving reads) := readLines_eq [] reads
  refine ⟨hlines, ?_, split_frames, fun turn line => answer_eq (handler turn) line⟩
  unfold session
  rw [Option.map_some, sessionLoop_eq, hlines]

/-! ## A small service -/

/-- A text in JSON. -/
def quoted (t : Text) : Text :=
  '"' :: t.flatMap (fun c =>
    if c = '"' then ['\\', '"'] else if c = '\\' then ['\\', '\\']
    else if c = '\n' then ['\\', 'n'] else [c]) ++ ['"']

/-- A reply in JSON; there is one response, and the errors are details. -/
def spellReply (r : Reply Unit Text) : Text :=
  "\x7b\"id\":".toList ++ Nat.toDigits 10 r.id.toNat ++
    (if r.more then ",\"more\":true".toList else []) ++
    (match r.outcome with
      | .ok () => ",\"ok\":\x7b\"result\":\"accepted\"\x7d".toList
      | .error detail => ",\"error\":\x7b\"error\":\"config\",\"detail\":".toList ++ quoted detail ++
          "\x7d".toList) ++ "\x7d".toList

theorem newline_notMem_quoted (t : Text) : '\n' ∉ quoted t := by
  unfold quoted
  rw [List.mem_append, List.mem_cons, List.mem_flatMap, not_or, not_or]
  refine ⟨⟨by decide, ?_⟩, by decide⟩
  rintro ⟨c, -, hc⟩
  split at hc
  · revert hc
    decide
  · split at hc
    · revert hc
      decide
    · split at hc
      · revert hc
        decide
      · rename_i hnot
        exact hnot (List.mem_singleton.mp hc).symm

theorem newline_notMem_spellReply (r : Reply Unit Text) : '\n' ∉ spellReply r := by
  have hdigits : '\n' ∉ Nat.toDigits 10 r.id.toNat := fun h =>
    absurd (Nat.isDigit_of_mem_toDigits (by decide) (by decide) h) (by decide)
  unfold spellReply
  simp only [List.mem_append, not_or]
  refine ⟨⟨⟨⟨by decide, hdigits⟩, ?_⟩, ?_⟩, by decide⟩
  · split <;> decide
  · split
    · decide
    · simp only [List.mem_append, not_or]
      exact ⟨⟨by decide, newline_notMem_quoted _⟩, by decide⟩

theorem newline_notMem_utf8 {t : Text} (h : '\n' ∉ t) : newline ∉ utf8 t := by
  unfold utf8
  rw [List.mem_flatMap]
  rintro ⟨c, hc, hm⟩
  have hn := (mem_utf8EncodeChar_iff c newline (by decide)).mp hm
  exact h ((Char.toNat_inj.mp (hn.trans rfl) : c = '\n') ▸ hc)

/-- A service that knows one request. -/
def awaitCall : Text := "\x7b\"id\":3,\"op\":\"await\"\x7d".toList

def plainWording : Wording Unit Unit Text where
  toString r := some (utf8 (spellReply r))
  fromStr line :=
    if line = awaitCall then .ok ⟨3, ()⟩ else .error "expected value at line 1 column 1".toList
  config detail := detail
  isWhitespace c := c == ' ' || (9 ≤ c.toNat && c.toNat ≤ 13)
  spelled _ := rfl
  oneLine r _ h := Option.some.inj h ▸ newline_notMem_utf8 (newline_notMem_spellReply r)

/-- A text of ASCII in reads of one byte. -/
def byteReads (t : Text) : List Read := (utf8 t).map fun b => .data b []

/-- Byte by byte, a line that is no call and one that is. -/
theorem session_answers_await :
    session plainWording (fun _ => false) (fun _ _ => .done (.ok ()))
        (byteReads ("x\n\n".toList ++ awaitCall)) (some ⟨[], none⟩) =
      some ⟨utf8 (("\x7b\"id\":0,\"error\":\x7b\"error\":\"config\",\"detail\":" ++
        "\"expected value at line 1 column 1\"\x7d\x7d\n" ++
        "\x7b\"id\":3,\"ok\":\x7b\"result\":\"accepted\"\x7d\x7d\n").toList), none⟩ := by
  rw [(session_answers plainWording _ _ _ ⟨[], none⟩).2.1]
  decide +kernel

/-- A last line keeps its carriage return; a service that stops, and a peer that is gone, leave lines
without an answer. -/
theorem not_session_answers :
    readLines [] (byteReads "x\r".toList) = (["x\r".toList], false) ∧
    session plainWording (fun turn => turn == 1) (fun _ _ => .done (.ok ()))
        (byteReads (awaitCall ++ '\n' :: awaitCall)) (some ⟨[], none⟩) =
      some ⟨utf8 ("\x7b\"id\":3,\"ok\":\x7b\"result\":\"accepted\"\x7d\x7d\n".toList), none⟩ ∧
    session plainWording (fun _ => false) (fun _ _ => .done (.ok ()))
        (byteReads awaitCall) (some ⟨[], some 0⟩) = some ⟨[], some 0⟩ := by
  refine ⟨?_, ?_, ?_⟩
  · rw [readLines_eq]
    decide +kernel
  · unfold session
    rw [Option.map_some, sessionLoop_eq, readLines_eq]
    decide +kernel
  · unfold session
    rw [Option.map_some, sessionLoop_eq, readLines_eq]
    decide +kernel

end Scour.Ipc
