import Scour.Faultless
import Scour.SegmentRule

/-!
# What the directory holds of an index

`Image.Opens` is what lets an index be opened from a directory: the manifest is of this format, names
each segment once and under a number it has behind it, and every segment it names is there whole.
`World.Filed` ties the index in memory to its directory.  Every image there has been opens; a segment
that has been written is under its number, with the live bits it has now unless they are owed; what
the manifest names is either in the list or waits to be erased; and a manifest that is not behind
names what has been written.
-/

namespace Scour

/-! ## Images that open -/

namespace Image

/-- The manifest, or what a missing one stands for. -/
def listed (img : Image) : Manifest := img.manifest.getD .default

/-- The files of this segment are under the number, with a bitmap of so many rows. -/
def Keeps (img : Image) (number : Nat) (seg : Segment) (rows : Nat) : Prop :=
  ∃ bits, bits.length = rows ∧ img.Holds number ⟨seg, bits⟩

/-- An index can be opened, and `Q` holds of its segments. -/
structure Opens (Q : Segment → Prop) (img : Image) : Prop where
  format : img.listed.format = FORMAT
  nodup : (img.listed.segments.map (·.1)).Nodup
  fresh : ∀ s ∈ img.listed.segments, s.1 < img.listed.nextSegment
  segments : ∀ s ∈ img.listed.segments, ∃ es : List Entry, Q (buildSorted es).seg ∧
    img.Keeps s.1 (buildSorted es).seg es.length

variable {Q : Segment → Prop} {img img' : Image}

/-- The files of one number are not the files of another. -/
theorem Holds.of_files {number : Nat} {b : SegmentBytes} (h : img.Holds number b)
    (hf : ∀ x, img'.file number x = img.file number x) : img'.Holds number b :=
  fun x => (hf x).trans (h x)

theorem Keeps.of_files {number : Nat} {seg : Segment} {rows : Nat} (h : img.Keeps number seg rows)
    (hf : ∀ x, img'.file number x = img.file number x) : img'.Keeps number seg rows := by
  obtain ⟨bits, hlen, hh⟩ := h
  exact ⟨bits, hlen, hh.of_files hf⟩

/-- An image with the same manifest opens when what the manifest names is untouched. -/
theorem Opens.of_files (h : img.Opens Q) (hm : img'.manifest = img.manifest)
    (hf : ∀ s ∈ img.listed.segments, ∀ x, img'.file s.1 x = img.file s.1 x) : img'.Opens Q := by
  have hlisted : img'.listed = img.listed := by
    unfold listed
    rw [hm]
  refine ⟨?_, ?_, ?_, fun s hs => ?_⟩
  · rw [hlisted]
    exact h.format
  · rw [hlisted]
    exact h.nodup
  · rw [hlisted]
    exact h.fresh
  · rw [hlisted] at hs
    obtain ⟨es, hq, hk⟩ := h.segments s hs
    exact ⟨es, hq, hk.of_files (hf s hs)⟩

/-- A bitmap put in the place of another. -/
theorem Keeps.setAlive {number : Nat} {seg : Segment} {rows : Nat} (h : img.Keeps number seg rows)
    (bits : List Bool) : (img.setFile number .alive (.bits bits)).Holds number ⟨seg, bits⟩ := by
  obtain ⟨old, -, hh⟩ := h
  intro x
  rw [Image.file_setFile]
  by_cases hx : x = .alive
  · rw [hx, if_pos rfl]
    rfl
  · rw [if_neg fun heq => hx (congrArg Prod.snd heq), hh x]
    cases x <;> first | rfl | exact absurd rfl hx

/-- A segment that is there whole is opened as it is. -/
theorem open?_of_holds {number : Nat} {es : List Entry} {bits : List Bool}
    (hlen : bits.length = es.length) (h : img.Holds number ⟨(buildSorted es).seg, bits⟩)
    (generation : Nat) : Live.open? img number generation =
      some ⟨number, generation, (buildSorted es).seg, bits, 0⟩ := by
  have hok : (⟨number, generation, (buildSorted es).seg, bits, 0⟩ : Live).Ok := ⟨es, rfl, hlen⟩
  rw [Scour.open?_of_holds h (Live.build_full es) generation]
  exact (Live.fromBytes_bytes hok number generation).2

end Image

/-! ## Operations of the directory -/

namespace Disk

variable {d d' : Disk}

/-- The image there is now is one there has been. -/
def Current (d : Disk) : Prop := d.image ∈ d.past

theorem current_step (d : Disk) (img : Image) : (d.step img).Current := List.mem_cons_self

theorem Current.fault (h : d.Current) : d.fault.2.Current := by
  unfold Current
  rw [fault_image, fault_past]
  exact h

theorem current_writeSynced (d : Disk) (number : Nat) (x : Ext) (c : Content) :
    (d.writeSynced number x c).1.Current := by
  unfold writeSynced
  simp only
  split
  · exact (current_step d _).fault
  · exact current_step _ _

theorem Current.writeAlive (h : d.Current) (number : Nat) (bits : List Bool) :
    (d.writeAlive number bits).1.Current := by
  unfold Disk.writeAlive
  simp only
  split
  · exact h.fault
  · exact current_step _ _

theorem Current.erase (h : d.Current) (number : Nat) : (d.erase number).Current := by
  unfold Disk.erase
  generalize PARTS ++ ORDERS ++ [Ext.alive] = exts
  induction exts generalizing d with
  | nil => exact h
  | cons x exts ih => exact ih (current_step d _)

theorem Current.writeAll (number : Nat) (files : List (Ext × Content)) : ∀ {d : Disk}, d.Current →
    (d.writeAll number files).1.Current := by
  induction files with
  | nil => exact id
  | cons f files ih =>
    obtain ⟨x, c⟩ := f
    intro d h
    have hw := current_writeSynced d number x c
    unfold Disk.writeAll
    simp only
    split
    · exact ih hw
    · exact hw

theorem Current.write (h : d.Current) (number generation : Nat) (b : SegmentBytes) :
    (Live.write d number generation b).1.Current := by
  unfold Live.write
  simp only
  have hall := Current.writeAll number ((PARTS ++ ORDERS ++ [Ext.alive]).filterMap fun x =>
    (b.content x).map fun c => (x, c)) (h.erase number)
  split <;> exact hall

end Disk

/-! ## What is filed -/

/-- Something is recorded against a flight. -/
def late (flight : Option Flight) : Bool := flight.any fun f => !f.doomed.isEmpty || !f.gone.isEmpty

namespace World

/-- Bitmaps to write: those of segments that have files. -/
def Bits (w : World) (alive : List (Nat × List Bool)) : Prop :=
  ∀ a ∈ alive, ∃ l ∈ w.inner.segments, l.number = a.1 ∧ l.alive = a.2 ∧
    l.number ∉ w.inner.unwritten

/-- What the directory holds of the index, `owed` being the segments whose live bits a call in
progress is about to write. -/
structure Filed (Q : Segment → Prop) (w : World) (held : Option Held) (owed : List Nat) : Prop where
  current : w.disk.Current
  past : ∀ img ∈ w.disk.past, img.Opens Q
  named : ∀ s ∈ w.disk.image.listed.segments, s.1 ∈ w.inner.pendingErase ∨
    ∃ l ∈ w.inner.segments, l.number = s.1 ∧ l.number ∉ w.inner.unwritten
  erased : ∀ n ∈ w.inner.pendingErase, n < w.inner.nextSegment ∧ n ∉ w.numbers (Held.hand held)
  unwritten : ∀ n ∈ w.inner.unwritten, ∃ l ∈ w.inner.segments, l.number = n
  files : ∀ l ∈ w.inner.segments, l.number ∉ w.inner.unwritten →
    w.disk.image.Keeps l.number l.seg l.alive.length ∧
      (w.disk.image.Holds l.number l.bytes ∨ l.number ∈ w.inner.dirtyAlive ∨ l.number ∈ owed)
  landed : ∀ n l, Landed.built n l ∈ w.building.landed →
    w.disk.image.Keeps n l.seg l.alive.length ∧
      (w.disk.image.Holds n l.bytes ∨ late (w.building.flight? n) = true)
  written : ∀ live, held = some (.written live) → w.disk.image.Holds live.number live.bytes
  batch : ∀ p, held = some (.batch p) → w.Bits p.alive
  manifest : w.inner.metaDirty = false →
    w.disk.image.listed.segments.Perm w.inner.manifest.segments

/-- Nothing that is filed moved. -/
structure Still (w w' : World) : Prop where
  disk : w'.disk = w.disk
  segments : w'.inner.segments = w.inner.segments
  unwritten : w'.inner.unwritten = w.inner.unwritten
  pendingErase : w'.inner.pendingErase = w.inner.pendingErase
  building : w'.building = w.building
  dirtyAlive : w.inner.dirtyAlive ⊆ w'.inner.dirtyAlive
  metaDirty : w'.inner.metaDirty = false → w.inner.metaDirty = false
  nextSegment : w.inner.nextSegment ≤ w'.inner.nextSegment

variable {Q : Segment → Prop} {w w' : World} {held : Option Held} {owed : List Nat}

theorem number_eq (h : (w.inner.segments.map (·.number)).Nodup) {l l' : Live}
    (hl : l ∈ w.inner.segments) (hl' : l' ∈ w.inner.segments) (heq : l.number = l'.number) : l = l' :=
  List.inj_on_of_nodup_map h hl hl' heq

theorem Ok.segments_nodup {hands : List Hand} (h : w.Ok hands) :
    (w.inner.segments.map (·.number)).Nodup := by
  have hnd := h.nodup
  unfold numbers at hnd
  exact (List.nodup_append.mp (List.nodup_append.mp hnd).1).1

namespace Filed

theorem still (h : w.Filed Q held owed) (hs : w.Still w') : w'.Filed Q held owed where
  current := by rw [hs.disk]; exact h.current
  past := by rw [hs.disk]; exact h.past
  named := by rw [hs.disk, hs.pendingErase, hs.segments, hs.unwritten]; exact h.named
  erased n hn := by
    rw [hs.pendingErase] at hn
    obtain ⟨h1, h2⟩ := h.erased n hn
    refine ⟨lt_of_lt_of_le h1 hs.nextSegment, ?_⟩
    unfold numbers at h2 ⊢
    rw [hs.segments, hs.building]
    exact h2
  unwritten := by rw [hs.unwritten, hs.segments]; exact h.unwritten
  files l hl hn := by
    rw [hs.segments] at hl
    rw [hs.unwritten] at hn
    rw [hs.disk]
    obtain ⟨h1, h2⟩ := h.files l hl hn
    exact ⟨h1, h2.imp_right (Or.imp_left fun hd => hs.dirtyAlive hd)⟩
  landed := by rw [hs.building, hs.disk]; exact h.landed
  written := by rw [hs.disk]; exact h.written
  batch := by unfold Bits; rw [hs.segments, hs.unwritten]; exact h.batch
  manifest hd := by
    rw [hs.disk]
    have hm := h.manifest (hs.metaDirty hd)
    unfold Inner.manifest at hm ⊢
    rw [hs.segments, hs.unwritten]
    exact hm

/-- The call in progress lets go of what it holds. -/
theorem drop (h : w.Filed Q held owed) : w.Filed Q none owed where
  current := h.current
  past := h.past
  named := h.named
  erased n hn := by
    obtain ⟨h1, h2⟩ := h.erased n hn
    refine ⟨h1, fun hm => h2 ?_⟩
    unfold numbers at hm ⊢
    exact List.mem_append_left _ (by simpa [Held.hand] using hm)
  unwritten := h.unwritten
  files := h.files
  landed := h.landed
  written _ hw := by cases hw
  batch _ hw := by cases hw
  manifest := h.manifest

theorem owe (h : w.Filed Q held owed) {owed' : List Nat}
    (hsub : ∀ l ∈ w.inner.segments, l.number ∈ owed → l.number ∈ owed') : w.Filed Q held owed' :=
  { h with
    files := fun l hl hn =>
      ⟨(h.files l hl hn).1, (h.files l hl hn).2.imp_right (Or.imp_right (hsub l hl))⟩ }

/-- The image there is now opens. -/
theorem opens (h : w.Filed Q held owed) : w.disk.image.Opens Q := h.past _ h.current

/-- The files of a number nothing is kept under may change. -/
theorem disk (h : w.Filed Q held owed) {n : Nat} {d : Disk} (ho : Disk.Only n w.disk d)
    (hc : d.Current) (hseg : ∀ l ∈ w.inner.segments, l.number = n → n ∈ w.inner.unwritten)
    (hlanded : ∀ l, Landed.built n l ∉ w.building.landed)
    (hheld : ∀ live, held = some (.written live) → live.number ≠ n)
    (herase : n ∉ w.inner.pendingErase) : ({ w with disk := d } : World).Filed Q held owed := by
  obtain ⟨hm, hf⟩ := ho.image
  have hlisted : d.image.listed = w.disk.image.listed := by
    unfold Image.listed
    rw [hm]
  have hne : ∀ s ∈ w.disk.image.listed.segments, s.1 ≠ n := by
    rintro s hs rfl
    rcases h.named s hs with he | ⟨l, hl, heq, hn⟩
    · exact herase he
    · exact hn (heq ▸ hseg l hl heq)
  have hwritten : ∀ l ∈ w.inner.segments, l.number ∉ w.inner.unwritten → l.number ≠ n :=
    fun l hl hn heq => hn (heq ▸ hseg l hl heq)
  refine ⟨hc, fun img himg => ?_, ?_, h.erased, h.unwritten, fun l hl hn => ?_, fun m l hl => ?_,
    fun live hw => ?_, h.batch, fun hd => ?_⟩
  · obtain ⟨new, hp, hi⟩ := ho.past
    change img ∈ d.past at himg
    rw [hp] at himg
    rcases List.mem_append.mp himg with himg | himg
    · obtain ⟨hm', hf'⟩ := hi img (List.mem_cons_of_mem _ himg)
      exact h.opens.of_files hm' fun s hs x => hf' s.1 (hne s hs) x
    · exact h.past img himg
  · rw [hlisted]
    exact h.named
  · obtain ⟨h1, h2⟩ := h.files l hl hn
    have hsame := hf l.number (hwritten l hl hn)
    exact ⟨h1.of_files hsame, h2.imp_left fun hh => hh.of_files hsame⟩
  · obtain ⟨h1, h2⟩ := h.landed m l hl
    have hsame := hf m fun heq => hlanded l (heq ▸ hl)
    exact ⟨h1.of_files hsame, h2.imp_left fun hh => hh.of_files hsame⟩
  · exact (h.written live hw).of_files (hf live.number (hheld live hw))
  · rw [hlisted]
    exact h.manifest hd

/-! ### Live bits -/

/-- A bitmap is written: the one its segment has. -/
theorem setAlive (h : w.Filed Q held owed) (hw : w.Ok (Held.hand held)) (hq : w.Holds Q held)
    {l : Live} (hl : l ∈ w.inner.segments) (hn : l.number ∉ w.inner.unwritten) {d : Disk}
    (hi : d.image = w.disk.image.setFile l.number .alive (.bits l.alive))
    (hp : d.past = d.image :: w.disk.past) :
    ({ w with disk := d } : World).Filed Q held (owed.filter fun n => !(n == l.number)) := by
  have hnd := hw.segments_nodup
  have hlisted : d.image.listed = w.disk.image.listed := by rw [hi]; rfl
  have hother : ∀ n, n ≠ l.number → ∀ x, d.image.file n x = w.disk.image.file n x := fun n hne x => by
    rw [hi, Image.file_setFile, if_neg fun heq => hne (congrArg Prod.fst heq)]
  have hself : d.image.Holds l.number l.bytes := by
    rw [hi]
    exact (h.files l hl hn).1.setAlive l.alive
  have hkeeps : d.image.Keeps l.number l.seg l.alive.length := ⟨l.alive, rfl, hself⟩
  have hair : ∀ m k, Landed.built m k ∈ w.building.landed → m ≠ l.number := by
    rintro m k hk rfl
    have hnd := hw.nodup
    unfold numbers at hnd
    refine (List.nodup_append.mp (List.nodup_append.mp hnd).1).2.2 l.number
      (List.mem_map_of_mem hl) l.number ?_ rfl
    exact List.mem_append_right _ (List.mem_map.mpr ⟨_, hk, rfl⟩)
  have hheld : ∀ live, held = some (.written live) → live.number ≠ l.number := by
    rintro live rfl heq
    have hnd := hw.nodup
    unfold numbers at hnd
    refine (List.nodup_append.mp hnd).2.2 l.number
      (List.mem_append_left _ (List.mem_map_of_mem hl)) l.number ?_ rfl
    rw [← heq]
    exact List.mem_map.mpr ⟨_, List.mem_singleton_self _, rfl⟩
  refine ⟨by rw [Disk.Current, hp]; exact List.mem_cons_self, fun img himg => ?_, ?_, h.erased,
    h.unwritten, fun k hk hkn => ?_, fun m k hk => ?_, fun live hlive => ?_, h.batch, fun hd => ?_⟩
  · change img ∈ d.past at himg
    rw [hp] at himg
    rcases List.mem_cons.mp himg with rfl | himg
    · refine ⟨?_, ?_, ?_, fun s hs => ?_⟩
      · rw [hlisted]
        exact h.opens.format
      · rw [hlisted]
        exact h.opens.nodup
      · rw [hlisted]
        exact h.opens.fresh
      · rw [hlisted] at hs
        by_cases heq : s.1 = l.number
        · obtain ⟨es, h1, h2⟩ := hw.segments l hl
          refine ⟨es, h1 ▸ hq.segments l hl, ?_⟩
          rw [heq, ← h1, ← h2]
          exact hkeeps
        · obtain ⟨es, h1, h2⟩ := h.opens.segments s hs
          exact ⟨es, h1, h2.of_files (hother s.1 heq)⟩
    · exact h.past img himg
  · rw [hlisted]
    exact h.named
  · by_cases heq : k.number = l.number
    · obtain rfl := number_eq hnd hk hl heq
      exact ⟨hkeeps, Or.inl hself⟩
    · obtain ⟨h1, h2⟩ := h.files k hk hkn
      refine ⟨h1.of_files (hother _ heq), h2.imp (fun hh => hh.of_files (hother _ heq)) ?_⟩
      exact Or.imp_right fun ho => List.mem_filter.mpr ⟨ho, by simpa using heq⟩
  · obtain ⟨h1, h2⟩ := h.landed m k hk
    have hsame := hother m (hair m k hk)
    exact ⟨h1.of_files hsame, h2.imp_left fun hh => hh.of_files hsame⟩
  · exact (h.written live hlive).of_files (hother _ (hheld live hlive))
  · rw [hlisted]
    exact h.manifest hd

/-- An operation that failed before it touched anything. -/
theorem untouched (h : w.Filed Q held owed) {d : Disk} (hi : d.image = w.disk.image)
    (hp : d.past = w.disk.past) : ({ w with disk := d } : World).Filed Q held owed := by
  obtain ⟨h1, h2, h3, h4, h5, h6, h7, h8, h9, h10⟩ := h
  unfold Disk.Current at h1
  refine ⟨?_, ?_, ?_, h4, h5, ?_, ?_, ?_, h9, ?_⟩
  · unfold Disk.Current
    rw [hi, hp]
    exact h1
  · rw [hp]
    exact h2
  all_goals
    rw [hi]
    assumption

/-- Bitmaps written one after the other, up to the first that cannot be. -/
theorem writeAlive (alive : List (Nat × List Bool)) : ∀ {w : World},
    w.Filed Q held (alive.map (·.1) ++ owed) → w.Ok (Held.hand held) → w.Holds Q held →
      w.Bits alive →
      ({ w with disk := (World.writeAlive w.disk alive).1 } : World).Filed Q held
          (alive.map (·.1) ++ owed) ∧
        ((World.writeAlive w.disk alive).2 = true →
          ({ w with disk := (World.writeAlive w.disk alive).1 } : World).Filed Q held owed) := by
  induction alive with
  | nil => exact fun h _ _ _ => ⟨h, fun _ => h⟩
  | cons a alive ih =>
    obtain ⟨number, bits⟩ := a
    intro w h hw hq hb
    obtain ⟨l, hl, rfl, rfl, hn⟩ := hb _ List.mem_cons_self
    unfold World.writeAlive Disk.writeAlive
    simp only
    cases hfault : w.disk.fault.1 with
    | true =>
      simp only [if_true, Bool.false_eq_true, if_false]
      exact ⟨h.untouched (Disk.fault_image _) (Disk.fault_past _), fun hf => by cases hf⟩
    | false =>
      simp only [Bool.false_eq_true, if_false, if_true]
      have hstep : ({ w with
          disk := w.disk.fault.2.step
            (w.disk.fault.2.image.setFile l.number .alive (.bits l.alive)) } : World).Filed Q held
              (alive.map (·.1) ++ owed) := by
        refine (h.setAlive hw hq hl hn ?_ ?_).owe fun _ _ hm => ?_
        · rw [Disk.fault_image]
          rfl
        · unfold Disk.step
          rw [Disk.fault_past]
        · obtain ⟨hm, hne⟩ := List.mem_filter.mp hm
          rw [List.map_cons, List.cons_append] at hm
          refine (List.mem_cons.mp hm).resolve_left fun heq => ?_
          simp [heq] at hne
      obtain ⟨h1, h2⟩ := ih hstep ⟨hw.segments, hw.nodup, hw.fresh, hw.building, hw.clean⟩
        ⟨hq.segments, hq.landed, hq.written⟩ fun a ha => hb a (List.mem_cons_of_mem _ ha)
      exact ⟨h1.owe fun _ _ ho => List.mem_cons_of_mem _ ho, h2⟩

/-! ### The manifest -/

/-- Files that nothing needs are erased. -/
theorem eraseAll (numbers : List Nat) : ∀ {w : World}, w.Filed Q held owed →
    (∀ n ∈ numbers, n ∉ w.numbers (Held.hand held)) → w.inner.pendingErase = [] →
      ({ w with disk := numbers.foldl Disk.erase w.disk } : World).Filed Q held owed := by
  induction numbers with
  | nil => exact fun h _ _ => h
  | cons n numbers ih =>
    intro w h hn hp
    have hfree := hn n List.mem_cons_self
    unfold World.numbers at hfree
    rw [List.mem_append, List.mem_append, not_or, not_or] at hfree
    obtain ⟨⟨hseg, hair⟩, hheld⟩ := hfree
    have herased : ({ w with disk := w.disk.erase n } : World).Filed Q held owed := by
      refine h.disk (Disk.erase_only _ _) (h.current.erase n)
        (fun l hl heq => absurd (List.mem_map.mpr ⟨l, hl, heq⟩) hseg)
        (fun l hl => hair (List.mem_append_right _ (List.mem_map.mpr ⟨_, hl, rfl⟩))) ?_ (by simp [hp])
      rintro live rfl heq
      exact hheld (List.mem_map.mpr ⟨_, List.mem_singleton_self _, heq⟩)
    exact ih herased (fun m hm => hn m (List.mem_cons_of_mem _ hm)) hp

/-- The manifest is written: what it stops naming is erased after it. -/
theorem saveMeta (h : w.Filed Q held owed) (hw : w.Ok (Held.hand held)) (hq : w.Holds Q held) :
    w.saveMeta.world.Filed Q held owed := by
  unfold World.saveMeta Disk.writeManifest
  simp only
  cases hfault : w.disk.fault.1 with
  | true =>
    simp only [if_true, Bool.not_false]
    have hkept := h.untouched (Disk.fault_image w.disk) (Disk.fault_past _)
    exact hkept.still ⟨rfl, rfl, rfl, rfl, rfl, List.Subset.refl _, (nomatch ·), le_refl _⟩
  | false =>
    simp only [Bool.false_eq_true, if_false, Bool.not_true]
    have hlisted : ∀ s ∈ w.inner.manifest.segments, ∃ l ∈ w.inner.segments, l.number = s.1 ∧
        l.number ∉ w.inner.unwritten := by
      intro s hs
      obtain ⟨l, hl, rfl⟩ := List.mem_map.mp hs
      obtain ⟨hl, hn⟩ := List.mem_filter.mp hl
      exact ⟨l, hl, rfl, by simpa using hn⟩
    have hsaved : ({ w with
        inner := { w.inner with metaDirty := false, pendingErase := [] }
        disk := w.disk.fault.2.step { w.disk.fault.2.image with
          manifest := some w.inner.manifest } } : World).Filed Q held owed := by
      have hfiles : ∀ m x, ({ w.disk.fault.2.image with manifest := some w.inner.manifest } :
          Image).file m x = w.disk.image.file m x := fun m x => by
        rw [Disk.fault_image]
        rfl
      refine ⟨Disk.current_step _ _, fun img himg => ?_, fun s hs => Or.inr (hlisted s hs),
        fun n hn => absurd hn List.not_mem_nil, h.unwritten, fun l hl hn => ?_, fun m l hl => ?_,
        fun live hlive => (h.written live hlive).of_files (hfiles _), h.batch,
        fun _ => List.Perm.refl _⟩
      · rcases List.mem_cons.mp himg with rfl | himg
        · refine ⟨rfl, ?_, fun s hs => ?_, fun s hs => ?_⟩
          · refine (hw.segments_nodup).sublist ?_
            show List.Sublist ((List.map _ (List.filter _ _)).map _) _
            rw [List.map_map]
            exact List.Sublist.map _ List.filter_sublist
          · obtain ⟨l, hl, heq, -⟩ := hlisted s hs
            show s.1 < w.inner.nextSegment
            rw [← heq]
            refine hw.fresh _ ?_
            unfold World.numbers
            exact List.mem_append_left _ (List.mem_append_left _ (List.mem_map_of_mem hl))
          · obtain ⟨l, hl, heq, hn⟩ := hlisted s hs
            obtain ⟨es, h1, h2⟩ := hw.segments l hl
            refine ⟨es, h1 ▸ hq.segments l hl, ?_⟩
            rw [← heq, ← h1, ← h2]
            exact (h.files l hl hn).1.of_files (hfiles _)
        · rw [Disk.fault_past] at himg
          exact h.past img himg
      · obtain ⟨h1, h2⟩ := h.files l hl hn
        exact ⟨h1.of_files (hfiles _), h2.imp_left fun hh => hh.of_files (hfiles _)⟩
      · obtain ⟨h1, h2⟩ := h.landed m l hl
        exact ⟨h1.of_files (hfiles _), h2.imp_left fun hh => hh.of_files (hfiles _)⟩
    exact hsaved.eraseAll w.inner.pendingErase (fun n hn => (h.erased n hn).2) rfl

end Filed

end World

end Scour
