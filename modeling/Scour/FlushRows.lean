import Scour.Sound

/-!
# What a flush does to the rows

One lemma a step: the removals filter what is live and what is in the air (`killHidden_spec`), what
the walk found unchanged leaves the buffer (`spareUnchanged_frame`), and the old rows of the rest go
(`killReplaced_spec`).  Then the buffer is lifted out, and a path still appears once
(`flushPrepare_sound`).
-/

namespace Scour

/-! ## The flights -/

namespace Building

def mapFlights (b : Building) (g : Flight → Flight) : Building :=
  { b with flights := b.flights.map g }

variable {b : Building} {g : Flight → Flight} (hn : ∀ f, (g f).number = f.number)
include hn

theorem flight?_mapFlights (n : Nat) : (b.mapFlights g).flight? n = (b.flight? n).map g := by
  unfold flight? mapFlights
  simp only [List.find?_map, Function.comp_def, hn]

theorem mapFlights_ok (hp : ∀ f, (g f).paths = f.paths) (hg : ∀ f, f.Ok → (g f).Ok) (hb : b.Ok) :
    (b.mapFlights g).Ok where
  jobs j hj := by
    obtain ⟨f, hf, hd⟩ := hb.jobs j hj
    exact ⟨g f, by rw [flight?_mapFlights hn, hf]; rfl, by rw [hp]; exact hd⟩
  landed n l hm := by
    obtain ⟨h1, h2, f, hf, hd⟩ := hb.landed n l hm
    exact ⟨h1, h2, g f, by rw [flight?_mapFlights hn, hf]; rfl, by rw [hp]; exact hd⟩
  failed n rows hm := by
    obtain ⟨f, hf, hd⟩ := hb.failed n rows hm
    exact ⟨g f, by rw [flight?_mapFlights hn, hf]; rfl, by rw [hp]; exact hd⟩
  flights f hf := by
    obtain ⟨f', hf', rfl⟩ := List.mem_map.mp hf
    obtain ⟨h1, h2⟩ := hb.flights f' hf'
    exact ⟨hg f' h1, by rw [hn]; exact h2⟩

/-- What is recorded for every flight is taken from everything in the air. -/
theorem airRows_mapFlights (hb : b.Ok) (p : Entry → Bool)
    (hs : ∀ f ∈ b.flights, ∀ e : Entry, e.digest ∈ f.paths →
      survives (some (g f)) e = (survives (some f) e && !p e)) :
    (b.mapFlights g).airRows = b.airRows.filter fun e => !p e := by
  have hone : ∀ (n : Nat) (f : Flight) (es : List Entry), b.flight? n = some f →
      (∀ e ∈ es, e.digest ∈ f.paths) →
      es.filter (survives ((b.mapFlights g).flight? n)) =
        (es.filter (survives (b.flight? n))).filter fun e => !p e := by
    intro n f es hf hd
    rw [List.filter_filter, flight?_mapFlights hn, hf]
    apply List.filter_congr
    intro e he
    rw [Option.map_some, hs f (List.mem_of_find?_eq_some hf) e (hd e he), Bool.and_comm]
  unfold airRows
  rw [List.filter_append, List.filter_flatMap, List.filter_flatMap]
  congr 1
  · refine List.flatMap_congr fun d hd => ?_
    cases d with
    | failed n rows =>
      obtain ⟨f, hf, hdig⟩ := hb.failed n rows hd
      exact hone n f _ hf hdig
    | built n l =>
      obtain ⟨-, -, f, hf, hdig⟩ := hb.landed n l hd
      exact hone n f _ hf hdig
  · refine List.flatMap_congr fun j hj => ?_
    obtain ⟨f, hf, hdig⟩ := hb.jobs j hj
    exact hone j.number f _ hf fun e he => hdig e ((List.mem_insertionSort _).mp he)

end Building

/-! ## Removals -/

namespace World

/-- What the pending removals leave. -/
theorem killHidden_spec {w : World} {hands : List Hand} (h : w.Ok hands) :
    w.killHidden.1.Ok hands ∧
      w.killHidden.1.liveRows = (w.inner.segments.flatMap fun l =>
        l.entries.filter fun e => !reached l.seg w.inner.sources w.inner.hiddenPrefixes e) ∧
      w.killHidden.1.building.airRows =
        w.building.airRows.filter (fun e => !scanned w.inner.hiddenPrefixes e) ∧
      w.killHidden.1.inner.staged =
        w.inner.staged.filter (fun e => !w.inner.hiddenPrefixes.covers e.path.bytes) := by
  unfold killHidden
  simp only
  split
  · rename_i hempty
    have hp := (PrefixSet.isEmpty_iff _).mp hempty
    refine ⟨h, ?_, ?_, ?_⟩
    · simp [liveRows, reached, hp]
    · simp [scanned, hp]
    · simp [PrefixSet.covers_of_isEmpty _ hempty]
  · have hb : (w.building.mapFlights (Flight.bury w.inner.hiddenPrefixes)).Ok :=
      Building.mapFlights_ok (fun _ => rfl) (fun _ => rfl)
        (fun f hf => ⟨hf.1, hf.2.extend h.clean.trimmed⟩) h.building
    refine ⟨⟨?_, ?_, ?_, hb, h.clean⟩, ?_, ?_, rfl⟩
    · intro l hl
      obtain ⟨p, hp, rfl⟩ := List.mem_map.mp hl
      obtain ⟨l', hl', rfl⟩ := List.mem_map.mp hp
      exact (Live.killHidden_later l' (h.segments l' hl') _ _).ok (h.segments l' hl')
    all_goals
      have hnum : ((w.inner.segments.map fun l =>
          l.killHidden w.inner.hiddenPrefixes w.inner.sources).map (·.1)).map (·.number) =
            w.inner.segments.map (·.number) := by
        rw [List.map_map, List.map_map]
        exact List.map_congr_left fun l hl => (Live.killHidden_later l (h.segments l hl) _ _).number
    · unfold numbers
      simp only [hnum]
      exact h.nodup
    · intro n hn
      unfold numbers at hn
      simp only [hnum] at hn
      exact h.fresh n hn
    · unfold liveRows
      simp only [List.flatMap_map]
      refine List.flatMap_congr fun l hl => ?_
      exact Live.entries_killHidden l (h.segments l hl) _ h.clean _
    · refine Building.airRows_mapFlights
        (g := Flight.bury w.inner.hiddenPrefixes)
        (fun _ => rfl) h.building (fun e => scanned w.inner.hiddenPrefixes e) fun f _ e _ => ?_
      have hext := scanned_extend f.gone w.inner.hiddenPrefixes.paths e
      have hsc : scanned w.inner.hiddenPrefixes e = true ↔
          ∃ p ∈ w.inner.hiddenPrefixes.paths, hits (trimEnd p) e = true := by
        simp only [scanned, List.any_eq_true]
        constructor
        · rintro ⟨q, hq, hh⟩
          exact ⟨q, hq, by rwa [w.inner.hiddenPrefixes.trimmed q hq]⟩
        · rintro ⟨q, hq, hh⟩
          exact ⟨q, hq, by rwa [w.inner.hiddenPrefixes.trimmed q hq] at hh⟩
      rw [← hsc, ← Bool.or_eq_true, ← Bool.eq_iff_iff] at hext
      simp only [survives, Flight.bury, Option.map_some, Option.getD_some, hext, Bool.not_or,
        Bool.and_assoc]

/-- What the removals leave is some of what was there. -/
theorem killHidden_sublist {w : World} {hands : List Hand} (h : w.Ok hands) :
    w.killHidden.1.rows.Sublist w.rows := by
  obtain ⟨hok, h1, h2, -⟩ := killHidden_spec h
  unfold rows
  rw [h1, h2]
  refine List.Sublist.append ?_ List.filter_sublist
  unfold liveRows
  induction w.inner.segments with
  | nil => exact List.Sublist.refl _
  | cons l segments ih =>
    rw [List.flatMap_cons, List.flatMap_cons]
    exact List.Sublist.append List.filter_sublist ih

/-- Nothing but the segments, the buffer and the flights moves. -/
theorem killHidden_frame (w : World) : w.killHidden.1 = { w with
    inner := { w.inner with
      segments := w.killHidden.1.inner.segments, staged := w.killHidden.1.inner.staged }
    building := w.killHidden.1.building } := by
  unfold killHidden
  simp only
  split <;> rfl

theorem killHidden_building (w : World) :
    w.killHidden.1.building.jobs = w.building.jobs ∧
      w.killHidden.1.building.landed = w.building.landed := by
  unfold killHidden
  simp only
  split <;> exact ⟨rfl, rfl⟩

/-! ## Replacements -/

theorem isWanted_wantedOf (staged : List Entry) (e : Entry) :
    Live.isWanted (wantedOf staged) e = true ↔ e.key ∈ staged.map Entry.key := by
  unfold wantedOf
  rw [isWanted_insertionSort]
  simp only [Live.isWanted, List.any_map, List.any_eq_true, Function.comp_apply, Bool.and_eq_true,
    beq_iff_eq, List.mem_map]
  constructor
  · rintro ⟨s, hs, h1, h2⟩
    refine ⟨s, hs, ?_⟩
    unfold Entry.key
    rw [h1]
    congr 1
    cases hp : s.path
    cases hp' : e.path
    simp only [hp, hp'] at h2
    subst h2
    rfl
  · rintro ⟨s, hs, hk⟩
    simp only [Entry.key, Prod.mk.injEq] at hk
    exact ⟨s, hs, hk.1, by rw [hk.2]⟩

theorem wantedOf_keyed (staged : List Entry) : Live.Keyed (wantedOf staged) := by
  refine keyed_insertionSort _ fun x hx => ?_
  obtain ⟨e, -, rfl⟩ := List.mem_map.mp hx
  exact ⟨rfl, e.path.ok⟩

/-- The rows at a staged path are gone, live and in the air. -/
theorem killReplaced_spec {w : World} {hands : List Hand} (h : w.Ok hands) :
    w.killReplaced.1.Ok hands ∧
      w.killReplaced.1.liveRows =
        w.liveRows.filter (fun e => !Live.isWanted (wantedOf w.inner.staged) e) ∧
      w.killReplaced.1.building.airRows =
        w.building.airRows.filter (fun e => !Live.isWanted (wantedOf w.inner.staged) e) := by
  have hkeyed := wantedOf_keyed w.inner.staged
  have hb : (w.building.mapFlights (Flight.condemn (wantedOf w.inner.staged))).Ok := by
    refine Building.mapFlights_ok (fun _ => rfl) (fun _ => rfl) (fun f hf => ⟨?_, hf.2⟩) h.building
    intro x hx
    rcases List.mem_append.mp hx with hx | hx
    · exact hf.1 x hx
    · exact hkeyed.2 x (List.mem_of_mem_filter hx)
  unfold killReplaced
  simp only
  refine ⟨⟨?_, ?_, ?_, hb, h.clean⟩, ?_, ?_⟩
  · intro l hl
    obtain ⟨p, hp, rfl⟩ := List.mem_map.mp hl
    obtain ⟨l', hl', rfl⟩ := List.mem_map.mp hp
    exact (Live.killPaths_later l' (h.segments l' hl') _).ok (h.segments l' hl')
  all_goals
    have hnum : ((w.inner.segments.map fun l => l.killPaths (wantedOf w.inner.staged)).map
        (·.1)).map (·.number) = w.inner.segments.map (·.number) := by
      rw [List.map_map, List.map_map]
      exact List.map_congr_left fun l hl => (Live.killPaths_later l (h.segments l hl) _).number
  · unfold numbers
    simp only [hnum]
    exact h.nodup
  · intro n hn
    unfold numbers at hn
    simp only [hnum] at hn
    exact h.fresh n hn
  · unfold liveRows
    simp only [List.flatMap_map]
    rw [List.filter_flatMap]
    refine List.flatMap_congr fun l hl => ?_
    exact Live.entries_killPaths l (h.segments l hl) _ hkeyed
  · refine Building.airRows_mapFlights
      (g := Flight.condemn (wantedOf w.inner.staged))
      (fun _ => rfl) h.building
      (fun e => Live.isWanted (wantedOf w.inner.staged) e) fun f _ e hdig => ?_
    -- the flight knows the digest, so every identity at this entry is recorded for it
    have happ : Live.isWanted (f.doomed ++ (wantedOf w.inner.staged).filter fun x =>
        f.paths.contains (pathDigest x.2.1 x.2.2)) e =
          (Live.isWanted f.doomed e || Live.isWanted (wantedOf w.inner.staged) e) := by
      unfold Live.isWanted
      rw [List.any_append, List.any_filter]
      congr 1
      rw [Bool.eq_iff_iff]
      simp only [List.any_eq_true, Bool.and_eq_true, beq_iff_eq, List.contains_iff_mem]
      constructor
      · rintro ⟨x, hx, -, h2⟩
        exact ⟨x, hx, h2⟩
      · rintro ⟨x, hx, h1, h2⟩
        refine ⟨x, hx, ?_, h1, h2⟩
        rw [h1, h2]
        exact hdig
    simp only [survives, Flight.condemn, Option.map_some, Option.getD_some, happ, Bool.not_or]
    cases Live.isWanted f.doomed e <;> cases Live.isWanted (wantedOf w.inner.staged) e <;>
      cases scanned f.gone e <;> rfl

theorem killReplaced_frame (w : World) : w.killReplaced.1 = { w with
    inner := { w.inner with segments := w.killReplaced.1.inner.segments }
    building := w.killReplaced.1.building } := rfl

theorem rows_killReplaced {w : World} {hands : List Hand} (h : w.Ok hands) :
    w.killReplaced.1.rows =
      w.rows.filter fun e => !Live.isWanted (wantedOf w.inner.staged) e := by
  obtain ⟨hok, h1, h2⟩ := killReplaced_spec h
  unfold rows
  rw [h1, h2, List.filter_append]

end World

/-! ## What is unchanged -/

namespace Inner

/-- What is spared leaves the buffer, whose slots are then made anew. -/
theorem spareUnchanged_cases (inner : Inner) :
    inner.spareUnchanged = inner ∨
      ∃ seen staged spared, staged.Sublist inner.staged ∧
        inner.spareUnchanged = { inner with seen, staged, stagedAt := slotsOf staged, spared } := by
  unfold spareUnchanged
  simp only
  split
  · exact Or.inl rfl
  · split
    · exact Or.inl rfl
    · refine Or.inr ⟨_, _, _, ?_, rfl⟩
      have h := (List.filter_sublist (l := inner.staged.zipIdx) (p := fun p =>
        !(inner.segments.foldl (spareIn inner.staged
          ((inner.staged.zipIdx.map fun q => (keyOf q.1.source q.1.path.bytes, q.2)).insertionSort
            idLe)) (List.replicate inner.staged.length false, [], [])).2.1.contains p.2)).map
              (·.1)
      rwa [List.zipIdx_map_fst] at h

theorem spareUnchanged_sublist (inner : Inner) :
    inner.spareUnchanged.staged.Sublist inner.staged := by
  rcases inner.spareUnchanged_cases with h | ⟨_, _, _, hs, h⟩
  · rw [h]
  · rw [h]
    exact hs

/-- Outside a generation nothing is spared. -/
theorem spareUnchanged_closed (inner : Inner) (h : inner.opened = none) :
    inner.spareUnchanged = inner := by
  unfold spareUnchanged
  simp [h]

theorem spareUnchanged_frame (inner : Inner) :
    inner.spareUnchanged = { inner with
      seen := inner.spareUnchanged.seen
      staged := inner.spareUnchanged.staged
      stagedAt := inner.spareUnchanged.stagedAt
      spared := inner.spareUnchanged.spared } := by
  rcases inner.spareUnchanged_cases with h | ⟨_, _, _, -, h⟩ <;> rw [h]

/-! ## What leaves with the flush -/

theorem rows_filter_empty (segments : List Live) :
    (segments.filter fun l => !(decide (0 < l.rows) && l.liveRows == 0)).flatMap Live.entries =
      segments.flatMap Live.entries := by
  induction segments with
  | nil => rfl
  | cons l segments ih =>
    rw [List.filter_cons]
    split
    · rw [List.flatMap_cons, List.flatMap_cons, ih]
    · rename_i h
      rw [List.flatMap_cons, ih]
      simp only [Bool.not_eq_true', Bool.not_eq_false, Bool.and_eq_true, beq_iff_eq] at h
      rw [Live.entries_eq_nil l h.2, List.nil_append]

/-- What `liftOut` leaves of the buffer, and what it lifts out. -/
theorem liftOut_staged (inner : Inner) (discretionary durable : Bool) (touched : List Nat) :
    let r := inner.liftOut discretionary durable touched
    (r.1.staged = inner.staged ∧ r.1.stagedAt = inner.stagedAt ∧ r.2.1.staged = none ∧
        r.1.nextSegment = inner.nextSegment ∧
        (inner.staged = [] ∨
          (discretionary = true ∧ inner.staged.length < MAX_STAGED))) ∨
      (r.1.staged = [] ∧
        r.2.1.staged = some (inner.nextSegment, inner.generation, inner.staged) ∧
        r.1.nextSegment = inner.nextSegment + 1 ∧ inner.staged ≠ []) := by
  unfold liftOut takeStaged takeDirtyAlive forgetEmpty
  simp only
  split
  · rename_i h
    simp only [Bool.and_eq_true, decide_eq_true_eq] at h
    exact Or.inl ⟨rfl, rfl, rfl, rfl, Or.inr h⟩
  · split
    · rename_i h
      rw [List.isEmpty_iff] at h
      exact Or.inl ⟨rfl, rfl, rfl, rfl, Or.inl h⟩
    · rename_i h
      rw [List.isEmpty_iff] at h
      exact Or.inr ⟨rfl, rfl, rfl, h⟩

theorem liftOut_rest (inner : Inner) (discretionary durable : Bool) (touched : List Nat) :
    let r := inner.liftOut discretionary durable touched
    r.1.segments = (inner.segments.filter fun l => !(decide (0 < l.rows) && l.liveRows == 0)) ∧
      r.1.hiddenPrefixes = .empty ∧ r.2.1.prefixes = inner.hiddenPrefixes ∧
      r.1.seen = inner.seen ∧ r.1.sources = inner.sources ∧ r.1.generation = inner.generation ∧
      r.1.opened = inner.opened := by
  unfold liftOut takeStaged takeDirtyAlive forgetEmpty
  simp only
  split
  · simp
  · split <;> simp

end Inner

/-- What a caller holds between lifting the rows out and giving them back. -/
def Pending.hand (p : Pending) : List Hand :=
  match p.staged with
  | none => []
  | some (number, _, rows) => [(number, rows)]

namespace World

variable {care : Care} {V : Set Entry}

/-- What is asked of the state before a batch is put back: no digest of it meets a path staged since,
and, of a run followed exactly, the removals that come back with it cover what is covered now. -/
structure Restores (care : Care) (w : World) (p : Pending) (hands : List Hand) : Prop where
  clean : p.prefixes.Clean
  distinct : care.once → ∀ n g rows, p.staged = some (n, g, rows) → Distinct (rows ++ w.inner.staged)
  agree : care.exactly → ∀ x, x ∈ w.inner.staged ∨ x ∈ w.rows ++ (p.hand ++ hands).flatMap (·.2) →
    (w.inner.restoredPrefixes p.prefixes).covers x.path.bytes =
      w.inner.hiddenPrefixes.covers x.path.bytes

theorem Restores.same {w w' : World} {p : Pending} {hands : List Hand}
    (h : Restores care w p hands) (hs : w.Same w') : Restores care w' p hands where
  clean := h.clean
  distinct := by rw [hs.staged]; exact h.distinct
  agree hx x hm := by
    unfold Inner.restoredPrefixes
    rw [hs.staged, hs.rows] at hm
    rw [hs.staged, hs.hidden]
    exact h.agree hx x hm

/-- Putting back what was lifted out. -/
theorem restore_sound {w : World} {p : Pending} {hands : List Hand}
    (h : w.Sound care V (p.hand ++ hands)) (hr : Restores care w p hands) :
    (w.restore p).Sound care V hands := by
  have hsub : (w.numbers hands).Sublist (w.numbers (p.hand ++ hands)) := by
    unfold numbers
    rw [List.map_append]
    exact List.Sublist.append_left (List.sublist_append_right _ _) _
  -- the batch is what the buffer gains
  have hback : care.once → Slots (w.inner.restore p).staged (w.inner.restore p).stagedAt ∧
      ∀ x, x ∈ (w.inner.restore p).staged ↔ x ∈ w.inner.staged ∨
        (x ∈ p.hand.flatMap (·.2) ∧ x.key ∉ w.inner.staged.map Entry.key) := fun ho => by
    cases hp : p.staged with
    | none =>
      obtain ⟨h1, h2⟩ := Inner.restore_staged_none w.inner p hp
      rw [h1, h2]
      exact ⟨h.slots ho, fun x => by simp [Pending.hand, hp]⟩
    | some s =>
      obtain ⟨n, g, rows⟩ := s
      have hrows := h.apart ho rows (by simp [batches, Pending.hand, hp])
      obtain ⟨h1, h2⟩ := Inner.restore_slots w.inner p n g rows hp hrows (h.slots ho)
        (hr.distinct ho n g rows hp)
      exact ⟨h1, fun x => by rw [h2]; simp [Pending.hand, hp]⟩
  unfold restore
  rw [Inner.restore_frame]
  refine ⟨⟨h.segments, ?_, ?_, h.building, ?_⟩, fun ho => ?_, fun ho => (hback ho).1, fun ho => ?_,
    h.closed, fun hx => ?_⟩
  · exact h.nodup.sublist hsub
  · exact fun n hn => h.fresh n (hsub.subset hn)
  · exact foldl_forget_clean _ _ (hr.clean.extend h.clean.trimmed)
  · have hu := h.unique ho
    rw [List.flatMap_append] at hu
    exact hu.sublist ((List.Sublist.append_left (List.sublist_append_right _ _) _).map _)
  · intro rows hrows
    refine h.apart ho rows ?_
    simp only [batches, List.mem_append, List.map_append] at hrows ⊢
    rcases hrows with hrows | hrows
    · exact Or.inl hrows
    · exact Or.inr (Or.inr hrows)
  · rw [← h.view hx]
    refine Search.Buffered.view_restore {e | e ∈ p.hand.flatMap (·.2)} (fun x => ?_) (fun x => ?_)
      (fun x hm => ?_) fun x hm s hs => ?_
    · simp only [buffer, Set.mem_ofPred_eq, List.flatMap_append, List.mem_append]
      show _ ↔ (x ∈ w.rows ∨ _) ∨ _
      tauto
    · simp only [buffer, Set.mem_ofPred_eq]
      rw [(hback (care.once_of_exactly hx)).2]
      simp only [List.mem_map, not_exists, not_and]
    · simp only [buffer, Set.mem_ofPred_eq]
      exact iff_of_eq (congrArg (· = true) (hr.agree hx x hm))
    · have hp : (w.rows ++ (p.hand ++ hands).flatMap (·.2)).Perm
          (p.hand.flatMap (·.2) ++ (w.rows ++ hands.flatMap (·.2))) := by
        rw [List.flatMap_append]
        exact List.perm_append_comm_assoc _ _ _
      have hnd := (hp.map Entry.key).nodup_iff.mp (h.unique (care.once_of_exactly hx))
      rw [List.map_append] at hnd
      exact fun heq => (List.nodup_append.mp hnd).2.2 _ (List.mem_map_of_mem hs) _
        (List.mem_map_of_mem hm) heq

/-- What is asked of a flush by the time the buffer is lifted out. -/
structure Lifts (care : Care) (V : Set Entry) (w : World) (discretionary : Bool)
    (hands : List Hand) : Prop extends w.Ok hands where
  unique : care.once → ((w.rows ++ hands.flatMap (·.2)).map Entry.key).Nodup
  fresh' : care.once → ∀ e ∈ w.inner.staged, e.key ∉ (w.rows ++ hands.flatMap (·.2)).map Entry.key
  digests : care.once → (w.inner.staged.map Entry.digest).Nodup
  slots : care.once → discretionary = true → w.inner.staged.length < MAX_STAGED →
    Slots w.inner.staged w.inner.stagedAt
  apart : care.once → ∀ rows ∈ w.batches hands, (rows.map Entry.digest).Nodup
  closed : care.exactly → w.inner.opened = none
  view : care.exactly → (w.buffer hands).view Entry.key = V
  clear : care.exactly → ∀ x, x ∈ w.inner.staged ∨ x ∈ w.rows ++ hands.flatMap (·.2) →
    w.inner.hiddenPrefixes.covers x.path.bytes = false

theorem covers_nil {s : PrefixSet} (h : s.paths = []) (x : Str) : s.covers x = false :=
  s.covers_of_isEmpty ((PrefixSet.isEmpty_iff s).mpr h) x

theorem covers_restored_of_clear {inner : Inner} {p s : PrefixSet} (hp : p = s)
    (hh : inner.hiddenPrefixes = .empty) {x : Entry} (h : s.covers x.path.bytes = false) :
    (inner.restoredPrefixes p).covers x.path.bytes = false := by
  rw [Bool.eq_false_iff] at h ⊢
  intro hc
  obtain ⟨m, hm, hu⟩ := (PrefixSet.covers_iff _ _).mp hc
  rcases mem_restoredPrefixes hm with hm | hm
  · exact h ((PrefixSet.covers_iff _ _).mpr ⟨m, hp ▸ hm, hu⟩)
  · rw [hh] at hm
    cases hm

/-- The batch is in the caller's hands. -/
theorem liftOut_sound {w : World} {hands : List Hand} {discretionary : Bool} (durable : Bool)
    (touched : List Nat) (h : Lifts care V w discretionary hands) :
    let r := w.inner.liftOut discretionary durable touched
    ({ w with inner := r.1 } : World).Sound care V (r.2.1.hand ++ hands) ∧
      Restores care { w with inner := r.1 } r.2.1 hands := by
  obtain ⟨hseg, hhid, hpre, -, -, -, hopen⟩ :=
    w.inner.liftOut_rest discretionary durable touched
  have hst := w.inner.liftOut_staged discretionary durable touched
  generalize w.inner.liftOut discretionary durable touched = lifted at hseg hhid hpre hopen hst
  obtain ⟨inner, pending, gone⟩ := lifted
  simp only at hseg hhid hpre hopen hst ⊢
  have hrows : ({ w with inner } : World).rows = w.rows := by
    unfold rows liveRows
    simp only [hseg, Inner.rows_filter_empty]
  have hsub : (inner.segments.map (·.number)).Sublist (w.inner.segments.map (·.number)) := by
    rw [hseg]
    exact List.filter_sublist.map _
  have hnums := List.Sublist.append_right (List.Sublist.append_right hsub w.building.numbers)
    (hands.map (·.1))
  have hsegs : ∀ l ∈ inner.segments, l.Ok := fun l hl => by
    rw [hseg] at hl
    exact h.segments l (List.mem_of_mem_filter hl)
  have hclean : inner.hiddenPrefixes.Clean := by
    rw [hhid]
    exact PrefixSet.clean_empty
  -- what is pending no longer covers anything
  have hpurged : care.exactly → (⟨(w.buffer hands).held, (w.buffer hands).staged, ∅⟩ :
      Search.Buffered Key Entry).view Entry.key = V := fun hx => by
    rw [← h.view hx]
    have hcov : ∀ x, x ∈ w.inner.staged ∨ x ∈ w.rows ++ hands.flatMap (·.2) →
        x.key ∉ (w.buffer hands).hidden := fun x hm => by
      simp only [buffer, Set.mem_ofPred_eq, Bool.not_eq_true]
      exact h.clear hx x hm
    exact Search.Buffered.view_purge (fun x => ⟨fun hm => ⟨hm, hcov x (Or.inr hm)⟩, And.left⟩)
      (fun x => ⟨fun hm => ⟨hm, hcov x (Or.inl hm)⟩, And.left⟩) fun x _ => Set.notMem_empty _
  have hhidden : {k : Key | inner.hiddenPrefixes.covers k.2.bytes = true} = ∅ := by
    ext k
    simp [hhid, covers_nil (s := .empty) rfl]
  rcases hst with ⟨h1, h2, h3, h4, h5⟩ | ⟨h1, h3, h4, h5⟩
  · have hh : pending.hand = [] := by simp [Pending.hand, h3]
    rw [hh, List.nil_append]
    refine ⟨⟨⟨hsegs, h.nodup.sublist hnums, fun n hn => ?_, h.building, hclean⟩, ?_, fun ho => ?_,
      h.apart, fun hx => hopen.trans (h.closed hx), fun hx => ?_⟩, ⟨hpre ▸ h.clean, fun _ => ?_,
        fun hx x hm => ?_⟩⟩
    · simp only [h4]
      exact h.fresh n (hnums.subset hn)
    · rw [hrows]
      exact h.unique
    · simp only [h1, h2]
      rcases h5 with h5 | ⟨h5, h6⟩
      · rw [h5]
        exact Slots.nil _
      · exact h.slots ho h5 h6
    · rw [← hpurged hx]
      congr 1
      unfold buffer
      simp only [hrows, h1, hhidden]
    · intro n g rows hp
      rw [h3] at hp
      cases hp
    · rw [hrows, hh, List.nil_append, h1] at hm
      rw [hhid, covers_nil (s := .empty) rfl]
      exact covers_restored_of_clear hpre hhid (h.clear hx x hm)
  · have hh : pending.hand = [(w.inner.nextSegment, w.inner.staged)] := by
      simp [Pending.hand, h3]
    rw [hh]
    refine ⟨⟨⟨hsegs, ?_, ?_, h.building, hclean⟩, fun ho => ?_, fun _ => ?_, fun ho => ?_,
      fun hx => hopen.trans (h.closed hx), fun hx => ?_⟩, ⟨hpre ▸ h.clean, fun ho => ?_,
        fun hx x hm => ?_⟩⟩
    · unfold numbers
      simp only [List.map_append, List.map_cons, List.map_nil]
      have hperm : ((inner.segments.map (·.number) ++ w.building.numbers) ++
          ([w.inner.nextSegment] ++ hands.map (·.1))).Perm
            (w.inner.nextSegment :: (inner.segments.map (·.number) ++ w.building.numbers ++
              hands.map (·.1))) := List.perm_middle
      refine hperm.nodup_iff.mpr (List.nodup_cons.mpr ⟨fun hm => ?_, h.nodup.sublist hnums⟩)
      have := h.fresh _ (hnums.subset hm)
      omega
    · intro n hn
      simp only [h4]
      simp only [numbers, List.map_append, List.map_cons, List.map_nil, List.mem_append,
        List.mem_singleton] at hn
      have hold : ∀ m ∈ w.numbers hands, m < w.inner.nextSegment + 1 := fun m hm =>
        Nat.lt_succ_of_lt (h.fresh m hm)
      rcases hn with (hn | hn) | (hn | hn)
      · exact hold n (List.mem_append_left _ (List.mem_append_left _ (hsub.subset hn)))
      · exact hold n (List.mem_append_left _ (List.mem_append_right _ hn))
      · omega
      · exact hold n (List.mem_append_right _ hn)
    · rw [hrows]
      simp only [List.flatMap_append, List.flatMap_cons, List.flatMap_nil, List.append_nil]
      refine ((List.perm_append_comm_assoc w.rows w.inner.staged _).map _).nodup_iff.mpr ?_
      rw [List.map_append]
      refine List.nodup_append.mpr ⟨?_, h.unique ho, ?_⟩
      · exact (slotsOf_slots _ (h.digests ho)).nodup_key
      · rintro k hk1 k' hk2 rfl
        obtain ⟨e, he, rfl⟩ := List.mem_map.mp hk1
        exact h.fresh' ho e he hk2
    · simp only [h1]
      exact Slots.nil _
    · intro rows hr
      simp only [batches, List.map_append, List.map_cons, List.map_nil, List.mem_append,
        List.mem_singleton] at hr
      have hold : ∀ rs, rs ∈ w.building.jobs.map (·.rows) ++ failedRows w.building.landed ∨
          rs ∈ hands.map (·.2) → (rs.map Entry.digest).Nodup := fun rs hm => h.apart ho rs (by
        simpa only [batches, List.mem_append] using hm)
      rcases hr with hr | hr | hr
      · exact hold rows (Or.inl (List.mem_append.mpr hr))
      · rw [hr]
        exact h.digests ho
      · exact hold rows (Or.inr hr)
    · rw [← hpurged hx]
      refine Search.Buffered.view_lift (fun x => ?_) ?_ ?_ fun x hm s hs heq => ?_
      · simp only [buffer, hrows, Set.mem_ofPred_eq, List.mem_append, List.flatMap_append,
          List.flatMap_cons, List.flatMap_nil, List.append_nil]
        tauto
      · simp [buffer, h1]
      · simp only [buffer, hhidden]
      · exact h.fresh' (care.once_of_exactly hx) s hs (heq ▸ List.mem_map_of_mem hm)
    · intro n g rows hp
      rw [h3] at hp
      cases hp
      rw [h1, List.append_nil]
      exact (slotsOf_slots _ (h.digests ho)).distinct
    · rw [hrows, hh, h1] at hm
      rw [hhid, covers_nil (s := .empty) rfl]
      refine covers_restored_of_clear hpre hhid (h.clear hx x ?_)
      simpa [or_comm, or_left_comm] using hm

/-- The end of a flush: the batch is in the caller's hands, or put back. -/
theorem flushTake_sound {w : World} {hands : List Hand} {discretionary durable : Bool}
    {touched : List Nat} (h : Lifts care V w discretionary hands) :
    (w.flushTake discretionary durable touched).Meets
      (fun w p => w.Sound care V (p.hand ++ hands) ∧ Restores care w p hands)
      fun w => w.Sound care V hands := by
  obtain ⟨hs, hr⟩ := liftOut_sound durable touched h
  unfold flushTake
  generalize w.inner.liftOut discretionary durable touched = lifted at hs hr ⊢
  obtain ⟨inner, pending, gone⟩ := lifted
  simp only at hs hr ⊢
  have hsame : ({ w with inner } : World).Same (if (durable && inner.metaDirty) = true then
      ({ w with inner } : World).saveMeta else Search.Outcome.ok { w with inner } ()).world := by
    split
    · exact saveMeta_same _
    · exact Same.refl _
  generalize (if (durable && inner.metaDirty) = true then ({ w with inner } : World).saveMeta
    else Search.Outcome.ok { w with inner } ()) = saved at hsame
  have hs' := hsame.sound hs
  have hr' := hr.same hsame
  cases hv : saved.val with
  | none => exact (Search.Outcome.meets_err _ _ _).mpr (restore_sound hs' hr')
  | some u => exact (Search.Outcome.meets_ok _ _ _ _).mpr ⟨hs', ⟨hr'.clean, hr'.distinct, hr'.agree⟩⟩

/-- What is asked of the state before a flush.  A full buffer that is kept loses nothing to the
removals, and nothing staged is at a path some caller holds a batch row of; of a run followed
exactly, every row the removals cover is one the flush finds. -/
structure Flushes (care : Care) (w : World) (discretionary : Bool) (hands : List Hand) :
    Prop where
  full : care.once → discretionary = true →
    (w.inner.staged.filter fun e => !w.inner.hiddenPrefixes.covers e.path.bytes).length < MAX_STAGED →
      ∀ e ∈ w.inner.staged, w.inner.hiddenPrefixes.covers e.path.bytes = false
  apart : care.once → ∀ e ∈ w.inner.staged, w.inner.hiddenPrefixes.covers e.path.bytes = false →
    e.key ∉ (hands.flatMap (·.2)).map Entry.key
  reached : care.exactly → ∀ l ∈ w.inner.segments, ∀ e ∈ l.entries,
    w.inner.hiddenPrefixes.covers e.path.bytes = true →
      reached l.seg w.inner.sources w.inner.hiddenPrefixes e = true
  scanned : care.exactly → ∀ e ∈ w.building.airRows,
    w.inner.hiddenPrefixes.covers e.path.bytes = true → scanned w.inner.hiddenPrefixes e = true
  hands : care.exactly → ∀ e ∈ hands.flatMap (·.2), w.inner.hiddenPrefixes.covers e.path.bytes = false

/-- After the removals, what is not covered is left. -/
theorem mem_rows_killHidden {w : World} {hands : List Hand} {discretionary : Bool} (h : w.Ok hands)
    (hf : Flushes .fully w discretionary hands) (x : Entry) :
    x ∈ w.killHidden.1.rows ↔
      x ∈ w.rows ∧ w.inner.hiddenPrefixes.covers x.path.bytes = false := by
  obtain ⟨-, h1, h2, -⟩ := killHidden_spec h
  unfold rows
  rw [h1, h2]
  simp only [List.mem_append, List.mem_flatMap, List.mem_filter, liveRows, Bool.not_eq_true']
  have hlive : ∀ l ∈ w.inner.segments, x ∈ l.entries →
      (Scour.reached l.seg w.inner.sources w.inner.hiddenPrefixes x = false ↔
        w.inner.hiddenPrefixes.covers x.path.bytes = false) := fun l hl hx => by
    rw [← Bool.not_eq_true, ← Bool.not_eq_true, not_iff_not]
    exact ⟨reached_covers, hf.reached trivial l hl x hx⟩
  have hair : x ∈ w.building.airRows → (Scour.scanned w.inner.hiddenPrefixes x = false ↔
      w.inner.hiddenPrefixes.covers x.path.bytes = false) := fun hx => by
    rw [← Bool.not_eq_true, ← Bool.not_eq_true, not_iff_not]
    exact ⟨scanned_covers, hf.scanned trivial x hx⟩
  constructor
  · rintro (⟨l, hl, hx, hr⟩ | ⟨hx, hs⟩)
    · exact ⟨Or.inl ⟨l, hl, hx⟩, (hlive l hl hx).mp hr⟩
    · exact ⟨Or.inr hx, (hair hx).mp hs⟩
  · rintro ⟨⟨l, hl, hx⟩ | hx, hc⟩
    · exact Or.inl ⟨l, hl, hx, (hlive l hl hx).mpr hc⟩
    · exact Or.inr ⟨hx, (hair hx).mpr hc⟩

theorem spareUnchanged_ok {w : World} {hands : List Hand} (h : w.Ok hands) :
    ({ w with inner := w.inner.spareUnchanged } : World).Ok hands := by
  rw [Inner.spareUnchanged_frame]
  exact ⟨h.segments, h.nodup, h.fresh, h.building, h.clean⟩

/-- Everything is ready to be lifted out once the removals and the replacements are done. -/
theorem lifts_of_flushes {w : World} {hands : List Hand} {discretionary : Bool}
    (h : w.Sound care V hands) (hf : Flushes care w discretionary hands) :
    Lifts care V ({ w.killHidden.1 with
      inner := w.killHidden.1.inner.spareUnchanged } : World).killReplaced.1 discretionary hands := by
  obtain ⟨hok, -, -, hstaged⟩ := killHidden_spec h.toOk
  have hsub := killHidden_sublist h.toOk
  have hframe := killHidden_frame w
  obtain ⟨hjobs, hlanded⟩ := killHidden_building w
  have hhid : w.killHidden.1.inner.hiddenPrefixes = w.inner.hiddenPrefixes := by rw [hframe]
  have hopen : w.killHidden.1.inner.opened = w.inner.opened := by rw [hframe]
  have hat : w.killHidden.1.inner.stagedAt = w.inner.stagedAt := by rw [hframe]
  have hmem : care.exactly → ∀ x, x ∈ w.killHidden.1.rows ↔
      x ∈ w.rows ∧ w.inner.hiddenPrefixes.covers x.path.bytes = false := fun hx =>
    mem_rows_killHidden h.toOk ⟨fun _ => hf.full (care.once_of_exactly hx),
      fun _ => hf.apart (care.once_of_exactly hx), fun _ => hf.reached hx, fun _ => hf.scanned hx,
      fun _ => hf.hands hx⟩
  generalize w.killHidden.1 = k at *
  have hcok := spareUnchanged_ok hok
  have hspare := k.inner.spareUnchanged_cases
  have hssub := k.inner.spareUnchanged_sublist
  have hshid : k.inner.spareUnchanged.hiddenPrefixes = w.inner.hiddenPrefixes := by
    rw [Inner.spareUnchanged_frame]
    exact hhid
  have hsopen : k.inner.spareUnchanged.opened = w.inner.opened := by
    rw [Inner.spareUnchanged_frame]
    exact hopen
  have hclosed : care.exactly → k.inner.spareUnchanged.staged = k.inner.staged := fun hx => by
    rw [k.inner.spareUnchanged_closed (hopen.trans (h.closed hx))]
  have hcrows : ({ k with inner := k.inner.spareUnchanged } : World).rows = k.rows := by
    unfold rows liveRows
    rw [Inner.spareUnchanged_frame]
  generalize k.inner.spareUnchanged = inner at *
  have hdig : care.once → (inner.staged.map Entry.digest).Nodup := fun ho => by
    refine (h.slots ho).nodup.sublist ((hssub.trans ?_).map _)
    rw [hstaged]
    exact List.filter_sublist
  have hcov : ∀ e ∈ inner.staged, w.inner.hiddenPrefixes.covers e.path.bytes = false ∧
      e ∈ w.inner.staged := fun e he => by
    have := hssub.subset he
    rw [hstaged, List.mem_filter] at this
    exact ⟨by simpa using this.2, this.1⟩
  obtain ⟨hrok, -, -⟩ := killReplaced_spec hcok
  have hrrows := rows_killReplaced hcok
  rw [hcrows] at hrrows
  have hwant : ∀ x, Live.isWanted (wantedOf inner.staged) x = false ↔
      ∀ s ∈ inner.staged, s.key ≠ x.key := fun x => by
    rw [← Bool.not_eq_true, isWanted_wantedOf]
    simp only [List.mem_map, not_exists, not_and]
  have hrmem : ∀ x, x ∈ ({ k with inner } : World).killReplaced.1.rows ↔
      x ∈ k.rows ∧ ∀ s ∈ inner.staged, s.key ≠ x.key := fun x => by
    rw [hrrows, List.mem_filter, Bool.not_eq_true', hwant]
  have hhands : care.once → ∀ x ∈ hands.flatMap (·.2), ∀ s ∈ inner.staged, s.key ≠ x.key :=
    fun ho x hx s hs heq => hf.apart ho s (hcov s hs).2 (hcov s hs).1 (heq ▸ List.mem_map_of_mem hx)
  refine ⟨hrok, fun ho => ?_, fun ho => ?_, hdig, fun ho hd hlen => ?_, fun ho => ?_,
    fun hx => hsopen.trans (h.closed hx), fun hx => ?_, fun hx x hm => ?_⟩
  · refine (h.unique ho).sublist (List.Sublist.map _ (List.Sublist.append_right ?_ _))
    rw [hrrows]
    exact List.filter_sublist.trans hsub
  · intro e he hm
    obtain ⟨x, hx, hk⟩ := List.mem_map.mp hm
    rcases List.mem_append.mp hx with hx | hx
    · exact ((hrmem x).mp hx).2 e he hk.symm
    · exact hhands ho x hx e he hk.symm
  · -- nothing was lost to the removals, or what was spared left its slots rebuilt
    rcases hspare with heq | ⟨seen, staged, spared, -, heq⟩
    · have hlen : k.inner.staged.length < MAX_STAGED := heq ▸ hlen
      have hall : k.inner.staged = w.inner.staged := by
        rw [hstaged] at hlen ⊢
        rw [List.filter_eq_self]
        exact fun e he => by simp [hf.full ho hd hlen e he]
      show Slots inner.staged inner.stagedAt
      rw [heq, hall, hat]
      exact h.slots ho
    · show Slots inner.staged inner.stagedAt
      have hs : inner.staged = staged := by rw [heq]
      have hsa : inner.stagedAt = Inner.slotsOf staged := by rw [heq]
      rw [hsa, ← hs]
      exact slotsOf_slots _ (hdig ho)
  · intro rows hr
    refine h.apart ho rows ?_
    unfold batches at hr ⊢
    rw [← hjobs, ← hlanded]
    exact hr
  · have hmem := hmem hx
    have hhands := hhands (care.once_of_exactly hx)
    have hst : inner.staged = _ := (hclosed hx).trans hstaged
    rw [← h.view hx]
    have hpurge : (⟨{x | x ∈ k.rows ++ hands.flatMap (·.2)}, {x | x ∈ inner.staged},
        (w.buffer hands).hidden⟩ : Search.Buffered Key Entry).view Entry.key =
          (w.buffer hands).view Entry.key := by
      refine Search.Buffered.view_purge (fun x => ?_) (fun x => ?_) fun x hm => ?_
      · simp only [buffer, Set.mem_ofPred_eq, List.mem_append, Bool.not_eq_true]
        constructor
        · rintro (hm | hm)
          · exact ⟨Or.inl ((hmem x).mp hm).1, ((hmem x).mp hm).2⟩
          · exact ⟨Or.inr hm, hf.hands hx x hm⟩
        · rintro ⟨hm | hm, hc⟩
          · exact Or.inl ((hmem x).mpr ⟨hm, hc⟩)
          · exact Or.inr hm
      · simp only [buffer, Set.mem_ofPred_eq, hst, List.mem_filter, Bool.not_eq_true',
          Bool.not_eq_true]
        exact Iff.rfl
      · simp only [buffer, Set.mem_ofPred_eq, Bool.not_eq_true]
        rcases hm with hm | hm
        · exact (hcov x hm).1
        · rcases List.mem_append.mp hm with hm | hm
          · exact ((hmem x).mp hm).2
          · exact hf.hands hx x hm
    rw [← hpurge]
    refine Search.Buffered.view_supersede (fun x => ?_) rfl ?_
    · simp only [buffer, Set.mem_ofPred_eq, List.mem_append]
      constructor
      · rintro (hm | hm)
        · exact ⟨Or.inl ((hrmem x).mp hm).1, ((hrmem x).mp hm).2⟩
        · exact ⟨Or.inr hm, hhands x hm⟩
      · rintro ⟨hm | hm, hk⟩
        · exact Or.inl ((hrmem x).mpr ⟨hm, hk⟩)
        · exact Or.inr hm
    · simp only [buffer]
      rw [killReplaced_frame]
      simp only [hshid]
  · show inner.hiddenPrefixes.covers _ = false
    rw [hshid]
    rcases hm with hm | hm
    · exact (hcov x hm).1
    · rcases List.mem_append.mp hm with hm | hm
      · exact ((hmem hx x).mp ((hrmem x).mp hm).1).2
      · exact hf.hands hx x hm

/-- A flush keeps one row a path, and what the index stands for. -/
theorem flushStaged_sound {w : World} {hands : List Hand} {discretionary durable : Bool}
    (h : w.Sound care V hands) (hf : Flushes care w discretionary hands) :
    (w.flushStaged discretionary durable).Meets
      (fun w p => w.Sound care V (p.hand ++ hands) ∧ Restores care w p hands)
      fun w => w.Sound care V hands := by
  unfold flushStaged
  split
  · rename_i hnone
    simp only [Bool.and_eq_true, List.isEmpty_iff, PrefixSet.isEmpty_iff] at hnone
    obtain ⟨⟨h1, h2⟩, -⟩ := hnone
    have hr : Restores care w .default hands :=
      ⟨PrefixSet.clean_empty, fun _ n g rows hp => (by cases hp), fun _ x _ =>
        covers_restoredPrefixes (by simp [h1]) _⟩
    split
    · refine Search.Outcome.Meets.bind (Search.Outcome.Meets.of_world
        (I := fun w => w.Sound care V hands ∧ Restores care w .default hands) ?_) ?_ |>.mono
          (fun _ _ hw => hw) fun _ hw => hw.1
      · exact ⟨(saveMeta_same w).sound h, hr.same (saveMeta_same w)⟩
      · exact fun w _ hw => (Search.Outcome.meets_ok _ _ _ _).mpr hw
    · exact (Search.Outcome.meets_ok _ _ _ _).mpr ⟨h, hr⟩
  · exact flushTake_sound (lifts_of_flushes h hf)

end World

end Scour
