import Scour.Native

/-!
# The rows the index holds

`lives` are the segments there will be once every build in the air has landed well, each with the
kills recorded for it (`arrive`); `rows` is what they hold, and what the builds that failed are about
to give back.  `Ok` is what every call keeps whatever
fails: segments are built ones, numbers are handed out once, every flight knows the digests of its
rows.  `hands` are the batches callers have lifted out of the buffer and not yet given back.
-/

namespace Scour

namespace Live

/-- A segment just built. -/
def ofBytes (number generation : Nat) (b : SegmentBytes) : Live where
  number
  generation
  seg := b.seg
  alive := b.alive
  deaths := 0

theorem fromBytes_buildSorted (number generation : Nat) (es : List Entry) :
    fromBytes number generation (buildSorted es) = some (ofBytes number generation (buildSorted es)) := by
  have hd : ∀ d, ((buildSorted es).seg.derived d).all (fun rows => rows.length == es.length) = true := by
    intro d
    show (if d.isOrder && es.isEmpty then none else some es).all _ = true
    split <;> simp
  unfold fromBytes assemble
  simp [hd, ofBytes]

theorem ofBytes_ok (number generation : Nat) (es : List Entry) :
    (ofBytes number generation (buildSorted es)).Ok :=
  ⟨es, rfl, by simp [ofBytes]⟩

theorem entries_ofBytes (number generation : Nat) (es : List Entry) :
    (ofBytes number generation (buildSorted es)).entries = es := by
  have ht := @buildSorted_table es
  have hlt : ∀ row, row < es.length →
      (ofBytes number generation (buildSorted es)).isAlive row = true := by
    intro row h
    simp [isAlive, ofBytes, List.getD_eq_getElem?_getD, h]
  conv => rhs; rw [← ht]
  unfold entries Segment.table
  show (List.range (buildSorted es).seg.rows).filterMap _ = _
  rw [buildSorted_rows]
  apply List.filterMap_congr
  intro row hrow
  rw [hlt row (List.mem_range.mp hrow)]
  rfl

theorem build_full (es : List Entry) : (buildSorted es).Full := by
  intro d hd
  show (if d.isOrder && es.isEmpty then none else some es) ≠ none
  simp [hd]

theorem entries_eq_nil (l : Live) (h : l.liveRows = 0) : l.entries = [] := by
  unfold entries
  rw [List.filterMap_eq_nil_iff]
  intro row _
  have : l.isAlive row = false := by
    cases hb : l.isAlive row with
    | false => rfl
    | true =>
      exfalso
      unfold isAlive at hb
      rw [List.getD_eq_getElem?_getD] at hb
      cases hr : l.alive[row]? with
      | none => simp [hr] at hb
      | some b =>
        simp only [hr, Option.getD_some] at hb
        have hm : true ∈ l.alive := hb ▸ List.mem_of_getElem? hr
        exact absurd (List.count_pos_iff.mpr hm) (by unfold liveRows at h; omega)
  simp [this]

/-- A later state of a segment holds a sublist of its entries. -/
theorem Later.entries {l l' : Live} (h : l.Later l') : l'.entries.Sublist l.entries := by
  unfold Live.entries
  have hrows : l'.rows = l.rows := by unfold Live.rows; rw [h.seg]
  rw [hrows, h.seg]
  induction List.range l.rows with
  | nil => exact List.Sublist.refl _
  | cons row rest ih =>
    rw [List.filterMap_cons, List.filterMap_cons]
    cases ha : l'.isAlive row with
    | true =>
      rw [h.alive row ha]
      simp only [if_true]
      cases l.seg.entry row with
      | none => exact ih
      | some e => exact ih.cons_cons e
    | false =>
      simp only [Bool.false_eq_true, if_false]
      split
      · exact ih
      · exact ih.cons _

end Live

/-! ## What is in the air -/

/-- Does an entry outlive what is recorded for its flight? -/
def survives (flight : Option Flight) (e : Entry) : Bool :=
  !Live.isWanted ((flight.map (·.doomed)).getD []) e &&
    !scanned ((flight.map (·.gone)).getD .empty) e

/-- A flight's records are identities under their keys, and paths. -/
def Flight.Ok (f : Flight) : Prop :=
  (∀ x ∈ f.doomed, x.1 = keyOf x.2.1 x.2.2 ∧ isPath x.2.2 = true) ∧ f.gone.Clean

theorem arrive_later (flight : Option Flight) (l : Live) (hl : l.Ok) :
    l.Later (World.arrive flight l) := by
  unfold World.arrive
  simp only
  have h1 : l.Later (if ((flight.map (·.doomed)).getD []).isEmpty then l
      else (l.killPaths (((flight.map (·.doomed)).getD []).insertionSort
        fun a b => a.1 ≤ b.1)).1) := by
    split
    · exact Live.Later.refl l
    · exact Live.killPaths_later l hl _
  split
  · exact h1
  · exact h1.trans (Live.killUnder_later _ (h1.ok hl) _)

theorem keyed_insertionSort (wanted : List Live.Wanted)
    (h : ∀ x ∈ wanted, x.1 = keyOf x.2.1 x.2.2 ∧ isPath x.2.2 = true) :
    Live.Keyed (wanted.insertionSort fun a b => a.1 ≤ b.1) := by
  refine ⟨?_, fun x hx => h x ((List.mem_insertionSort _).mp hx)⟩
  exact @List.pairwise_insertionSort _ (fun a b : Live.Wanted => a.1 ≤ b.1) _
    ⟨fun _ _ => le_total _ _⟩ ⟨fun _ _ _ => le_trans⟩ _

theorem isWanted_insertionSort (wanted : List Live.Wanted) (e : Entry) :
    Live.isWanted (wanted.insertionSort fun a b => a.1 ≤ b.1) e = Live.isWanted wanted e := by
  rw [Bool.eq_iff_iff]
  simp only [Live.isWanted, List.any_eq_true, List.mem_insertionSort]

theorem entries_arrive (flight : Option Flight) (hf : ∀ f, flight = some f → f.Ok) (l : Live)
    (hl : l.Ok) : (World.arrive flight l).entries = l.entries.filter (survives flight) := by
  have hdoomed : ∀ x ∈ (flight.map Flight.doomed).getD [],
      x.1 = keyOf x.2.1 x.2.2 ∧ isPath x.2.2 = true := by
    cases flight with
    | none => simp
    | some f => exact (hf f rfl).1
  have hgone : ((flight.map Flight.gone).getD PrefixSet.empty).Clean := by
    cases flight with
    | none => exact PrefixSet.clean_empty
    | some f => exact (hf f rfl).2
  unfold survives World.arrive
  simp only
  generalize (flight.map Flight.doomed).getD [] = doomed at *
  generalize (flight.map Flight.gone).getD PrefixSet.empty = gone at *
  have h1 : l.Later (if doomed.isEmpty then l
      else (l.killPaths (doomed.insertionSort fun a b => a.1 ≤ b.1)).1) := by
    split
    · exact Live.Later.refl l
    · exact Live.killPaths_later l hl _
  have h2 : (if doomed.isEmpty then l
      else (l.killPaths (doomed.insertionSort fun a b => a.1 ≤ b.1)).1).entries =
        l.entries.filter fun e => !Live.isWanted doomed e := by
    split
    · rename_i h
      rw [List.isEmpty_iff] at h
      simp [h, Live.isWanted]
    · rw [Live.entries_killPaths l hl _ (keyed_insertionSort doomed hdoomed)]
      simp only [isWanted_insertionSort]
  generalize (if doomed.isEmpty then l
      else (l.killPaths (doomed.insertionSort fun a b => a.1 ≤ b.1)).1) = l' at h1 h2
  split
  · rename_i h
    rw [PrefixSet.isEmpty_iff] at h
    rw [h2]
    simp [scanned, h]
  · rw [Live.entries_killUnder l' (h1.ok hl) gone hgone, h2, List.filter_filter]
    apply List.filter_congr
    intro e _
    exact Bool.and_comm _ _

def Landed.number : Landed → Nat
  | .built number _ => number
  | .failed number _ => number

namespace Building

def flight? (b : Building) (number : Nat) : Option Flight :=
  b.flights.find? (·.number = number)

/-- The segment a job makes, as it will arrive. -/
def jobLive (b : Building) (j : Job) : Live :=
  World.arrive (b.flight? j.number) (.ofBytes j.number j.generation (build j.rows))

/-- A finished segment, as it will arrive. -/
def landedLive (b : Building) : Landed → Option Live
  | .built number live => some (World.arrive (b.flight? number) live)
  | .failed _ _ => none

/-- The numbers of the builds handed out and not yet taken back. -/
def numbers (b : Building) : List Nat := b.jobs.map (·.number) ++ b.landed.map Landed.number

def inAir (b : Building) : List Live := b.landed.filterMap b.landedLive ++ b.jobs.map b.jobLive

end Building

/-- A batch lifted out of the buffer: its number and its rows. -/
abbrev Hand := Nat × List Entry

namespace World

/-- The segments there will be once everything in the air has landed well. -/
def lives (w : World) : List Live := w.inner.segments ++ w.building.inAir

/-- The rows a search reads. -/
def liveRows (w : World) : List Entry := w.inner.segments.flatMap Live.entries

/-- Every number in use. -/
def numbers (w : World) (hands : List Hand) : List Nat :=
  w.inner.segments.map (·.number) ++ w.building.numbers ++ hands.map (·.1)

end World

/-- Every build in the air has a flight that knows its digests, and no other flight is. -/
structure Building.Ok (b : Building) : Prop where
  jobs : ∀ j ∈ b.jobs, ∃ f, b.flight? j.number = some f ∧ ∀ e ∈ j.rows, e.digest ∈ f.paths
  landed : ∀ n l, Landed.built n l ∈ b.landed → l.Ok ∧ l.number = n ∧
    ∃ f, b.flight? n = some f ∧ ∀ e ∈ l.entries, e.digest ∈ f.paths
  failed : ∀ n rows, Landed.failed n rows ∈ b.landed →
    ∃ f, b.flight? n = some f ∧ ∀ e ∈ rows, e.digest ∈ f.paths
  flights : ∀ f ∈ b.flights, f.Ok ∧ f.number ∈ b.numbers

theorem Inner.mem_of_segment? {inner : Inner} {number : Nat} {live : Live}
    (h : inner.segment? number = some live) : live ∈ inner.segments ∧ live.number = number := by
  unfold Inner.segment? at h
  have hn := List.find?_some h
  exact ⟨List.mem_of_find?_eq_some h, of_decide_eq_true hn⟩

namespace World

/-- What every call keeps, whatever fails. -/
structure Ok (w : World) (hands : List Hand) : Prop where
  segments : ∀ l ∈ w.inner.segments, l.Ok
  nodup : (w.numbers hands).Nodup
  fresh : ∀ n ∈ w.numbers hands, n < w.inner.nextSegment
  building : w.building.Ok
  clean : w.inner.hiddenPrefixes.Clean

/-- Two worlds that hold the same rows, waiting and live: only what is owed to the disk differs. -/
structure Same (w w' : World) : Prop where
  segments : w'.inner.segments = w.inner.segments
  staged : w'.inner.staged = w.inner.staged
  stagedAt : w'.inner.stagedAt = w.inner.stagedAt
  hidden : w'.inner.hiddenPrefixes = w.inner.hiddenPrefixes
  seen : w'.inner.seen = w.inner.seen
  sources : w'.inner.sources = w.inner.sources
  generation : w'.inner.generation = w.inner.generation
  opened : w'.inner.opened = w.inner.opened
  building : w'.building = w.building
  nextSegment : w.inner.nextSegment ≤ w'.inner.nextSegment

namespace Same

theorem refl (w : World) : w.Same w := ⟨rfl, rfl, rfl, rfl, rfl, rfl, rfl, rfl, rfl, le_refl _⟩

theorem ok {w w' : World} (h : w.Same w') {hands : List Hand} (hw : w.Ok hands) : w'.Ok hands where
  segments := by rw [h.segments]; exact hw.segments
  nodup := by unfold World.numbers; rw [h.segments, h.building]; exact hw.nodup
  fresh n hn := by
    unfold World.numbers at hn
    rw [h.segments, h.building] at hn
    exact lt_of_lt_of_le (hw.fresh n hn) h.nextSegment
  building := by rw [h.building]; exact hw.building
  clean := by rw [h.hidden]; exact hw.clean

end Same

theorem saveMeta_same (w : World) : w.Same w.saveMeta.world := by
  unfold saveMeta
  simp only
  split
  · exact ⟨rfl, rfl, rfl, rfl, rfl, rfl, rfl, rfl, rfl, le_refl _⟩
  · exact ⟨rfl, rfl, rfl, rfl, rfl, rfl, rfl, rfl, rfl, le_refl _⟩

theorem writeDirtyAlive_same (w : World) : w.Same w.writeDirtyAlive.world := by
  unfold writeDirtyAlive Inner.takeDirtyAlive
  simp only
  split
  · exact ⟨rfl, rfl, rfl, rfl, rfl, rfl, rfl, rfl, rfl, le_refl _⟩
  · split <;> exact ⟨rfl, rfl, rfl, rfl, rfl, rfl, rfl, rfl, rfl, le_refl _⟩

/-- Only the directory changed. -/
theorem same_disk (w : World) (d : Disk) : w.Same { w with disk := d } :=
  ⟨rfl, rfl, rfl, rfl, rfl, rfl, rfl, rfl, rfl, le_refl _⟩

end World

/-! ## What is in the air, as rows -/

namespace Building

/-- What is left of one finished build: a failed one still owes its rows. -/
def landedRows (b : Building) : Landed → List Entry
  | .built number live => live.entries.filter (survives (b.flight? number))
  | .failed number rows => rows.filter (survives (b.flight? number))

/-- What one job will hold. -/
def jobRows (b : Building) (j : Job) : List Entry :=
  (j.rows.insertionSort storedLe).filter (survives (b.flight? j.number))

def airRows (b : Building) : List Entry := b.landed.flatMap b.landedRows ++ b.jobs.flatMap b.jobRows

theorem flight?_ok {b : Building} (hb : b.Ok) {n : Nat} {f : Flight} (h : b.flight? n = some f) :
    f.Ok := (hb.flights f (List.mem_of_find?_eq_some h)).1

theorem entries_jobLive {b : Building} (hb : b.Ok) (j : Job) :
    (b.jobLive j).entries = b.jobRows j := by
  unfold jobLive jobRows build
  rw [entries_arrive _ (fun f hf => flight?_ok hb hf) _ (Live.ofBytes_ok _ _ _),
    Live.entries_ofBytes]

/-- The segments in the air hold the rows in the air, the failed builds' apart. -/
theorem entries_inAir {b : Building} (hb : b.Ok) :
    (b.inAir.flatMap Live.entries).Sublist b.airRows := by
  unfold inAir airRows
  rw [List.flatMap_append]
  refine List.Sublist.append ?_ ?_
  · have : ∀ done : List Landed, (∀ d ∈ done, d ∈ b.landed) →
        ((done.filterMap b.landedLive).flatMap Live.entries).Sublist
          (done.flatMap b.landedRows) := by
      intro done
      induction done with
      | nil => exact fun _ => List.Sublist.refl _
      | cons d done ih =>
        intro hsub
        have ih := ih fun d' hd => hsub d' (List.mem_cons_of_mem _ hd)
        cases d with
        | failed n rows =>
          rw [List.filterMap_cons, List.flatMap_cons]
          exact ih.trans (List.sublist_append_right _ _)
        | built n l =>
          have hl := (hb.landed n l (hsub _ List.mem_cons_self)).1
          rw [List.filterMap_cons, List.flatMap_cons]
          simp only [landedLive, List.flatMap_cons, landedRows]
          rw [entries_arrive _ (fun f hf => flight?_ok hb hf) l hl]
          exact ih.append_left _
    exact this b.landed fun _ h => h
  · rw [List.flatMap_map, List.flatMap_congr fun j _ => entries_jobLive hb j]

end Building

namespace World

/-- Every row the index has taken out of the buffer: live, in the air, or waiting to come back from
a build that failed. -/
def rows (w : World) : List Entry := w.liveRows ++ w.building.airRows

theorem entries_lives {w : World} (hb : w.building.Ok) :
    (w.lives.flatMap Live.entries).Sublist w.rows := by
  unfold lives rows liveRows
  rw [List.flatMap_append]
  exact (Building.entries_inAir hb).append_left _

theorem Same.rows {w w' : World} (h : w.Same w') : w'.rows = w.rows := by
  unfold World.rows liveRows
  rw [h.segments, h.building]

end World

end Scour
