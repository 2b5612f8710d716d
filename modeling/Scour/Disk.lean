import Scour.Live

/-!
# The directory the index lives in

An `Image` is the manifest and the segment files by name.  It changes by single file operations:
create (what is there is torn until all of it is written), write, replace, remove.  `Disk` carries
the image, every image there has been, and which of the coming operations fail.

Whatever is left under a number, `Live.write` leaves the files of the segment it was given and no
other (`write_holds`), and touches no other number (`write_only`).
-/

namespace Scour

/-- The file name extensions of a segment. -/
inductive Ext where
  | names | cols | dirs | ids
  | part (d : Derived)
  | alive
deriving DecidableEq

/-- The pieces a segment is made of. -/
def PARTS : List Ext :=
  [.names, .cols, .dirs, .ids, .part .tgrams, .part .tpost, .part .fnames]

/-- The pieces it may be without. -/
def ORDERS : List Ext := [.part .porder, .part .norder, .part .eorder]

/-- What a file holds, decoded.  A file that is not all there decodes to nothing. -/
inductive Content where
  | names (l : List Str)
  | cols (l : List Columns)
  | dirs (t : DirTable)
  | ids (l : List (UInt32 × Nat))
  | rows (l : List Entry)
  | bits (l : List Bool)
  | torn

def FORMAT : Nat := 9

/-- `native-index.json`. -/
structure Manifest where
  format : Nat
  generation : Nat
  nextSegment : Nat
  /-- Number and generation. -/
  segments : List (Nat × Nat)
deriving DecidableEq

def Manifest.default : Manifest := ⟨FORMAT, 0, 1, []⟩

/-- What is on disk. -/
structure Image where
  manifest : Option Manifest
  files : List ((Nat × Ext) × Content)

namespace Image

def empty : Image := ⟨none, []⟩

def file (img : Image) (number : Nat) (ext : Ext) : Option Content :=
  (img.files.find? fun f => f.1 = (number, ext)).map (·.2)

def setFile (img : Image) (number : Nat) (ext : Ext) (c : Content) : Image :=
  { img with files := ((number, ext), c) :: img.files.filter fun f => f.1 ≠ (number, ext) }

def removeFile (img : Image) (number : Nat) (ext : Ext) : Image :=
  { img with files := img.files.filter fun f => f.1 ≠ (number, ext) }

theorem find?_filter_ne (files : List ((Nat × Ext) × Content)) (k j : Nat × Ext) :
    (files.filter fun f => f.1 ≠ k).find? (fun f => f.1 = j) =
      if j = k then none else files.find? fun f => f.1 = j := by
  induction files with
  | nil => simp
  | cons f files ih =>
    rw [List.filter_cons]
    by_cases hf : f.1 = k
    · simp only [hf, ne_eq, not_true, decide_false, Bool.false_eq_true, if_false, ih,
        List.find?_cons]
      by_cases hj : j = k
      · simp [hj]
      · simp [hj, Ne.symm hj]
    · simp only [ne_eq, hf, not_false_eq_true, decide_true, if_true, List.find?_cons, ih]
      by_cases hfj : f.1 = j
      · have : j ≠ k := hfj ▸ hf
        simp [hfj, this]
      · simp [hfj]

@[simp] theorem file_setFile (img : Image) (n m : Nat) (x y : Ext) (c : Content) :
    (img.setFile n x c).file m y = if (m, y) = (n, x) then some c else img.file m y := by
  unfold setFile file
  simp only [List.find?_cons, find?_filter_ne]
  by_cases h : (m, y) = (n, x)
  · simp [h]
  · have h' : ¬ (n, x) = (m, y) := fun e => h e.symm
    simp [h, h']

@[simp] theorem file_removeFile (img : Image) (n m : Nat) (x y : Ext) :
    (img.removeFile n x).file m y = if (m, y) = (n, x) then none else img.file m y := by
  unfold removeFile file
  rw [find?_filter_ne]
  split <;> simp_all

@[simp] theorem manifest_setFile (img : Image) (n : Nat) (x : Ext) (c : Content) :
    (img.setFile n x c).manifest = img.manifest := rfl

@[simp] theorem manifest_removeFile (img : Image) (n : Nat) (x : Ext) :
    (img.removeFile n x).manifest = img.manifest := rfl

end Image

/-- The directory through time. -/
structure Disk where
  image : Image
  /-- Every image there has been, this one included. -/
  past : List Image
  /-- Which of the coming operations fail. -/
  faults : List Bool

namespace Disk

def of (img : Image) (faults : List Bool) : Disk := ⟨img, [img], faults⟩

/-- One file operation. -/
def step (d : Disk) (img : Image) : Disk := { d with image := img, past := img :: d.past }

/-- Does the next operation that can fail, fail? -/
def fault (d : Disk) : Bool × Disk :=
  match d.faults with
  | [] => (false, d)
  | b :: rest => (b, { d with faults := rest })

/-- `write_synced`: the file is torn from its creation until all of it is there. -/
def writeSynced (d : Disk) (number : Nat) (ext : Ext) (c : Content) : Disk × Bool :=
  let d := d.step (d.image.setFile number ext .torn)
  let (failed, d) := d.fault
  if failed then (d, false) else (d.step (d.image.setFile number ext c), true)

/-- `Live::write_alive`, by `replace_synced`: the old bitmap or the new one. -/
def writeAlive (d : Disk) (number : Nat) (bits : List Bool) : Disk × Bool :=
  let (failed, d) := d.fault
  if failed then (d, false) else (d.step (d.image.setFile number .alive (.bits bits)), true)

/-- `replace_synced` of the manifest. -/
def writeManifest (d : Disk) (m : Manifest) : Disk × Bool :=
  let (failed, d) := d.fault
  if failed then (d, false) else (d.step { d.image with manifest := some m }, true)

/-- `Live::erase`: a missing file is the desired state, so no failure is worth reporting. -/
def erase (d : Disk) (number : Nat) : Disk :=
  (PARTS ++ ORDERS ++ [Ext.alive]).foldl (fun d ext => d.step (d.image.removeFile number ext)) d

/-- Files one after the other, up to the first that cannot be written. -/
def writeAll (d : Disk) (number : Nat) : List (Ext × Content) → Disk × Bool
  | [] => (d, true)
  | (ext, c) :: rest =>
      let (d, ok) := d.writeSynced number ext c
      if ok then d.writeAll number rest else (d, false)

end Disk

/-- The files a segment is stored under: an order it does not have is no file. -/
def SegmentBytes.content (b : SegmentBytes) : Ext → Option Content
  | .names => some (.names b.seg.names)
  | .cols => some (.cols b.seg.cols)
  | .dirs => some (.dirs b.seg.dirs)
  | .ids => some (.ids b.seg.ids)
  | .part d => if d.isOrder then (b.seg.derived d).map .rows else some (.rows ((b.seg.derived d).getD []))
  | .alive => some (.bits b.alive)

namespace Live

def open? (img : Image) (number generation : Nat) : Option Live :=
  let file := img.file number
  -- missing is allowed for an order and nowhere else
  if (PARTS ++ [Ext.alive]).any fun x => (file x).isNone then none
  else
    match file .names with
    | some (.names names) =>
        let seg : Segment :=
          { names
            cols := match file .cols with | some (.cols l) => l | _ => []
            dirs := match file .dirs with | some (.dirs t) => t | _ => ⟨[]⟩
            ids := match file .ids with | some (.ids l) => l | _ => []
            derived := fun d => match file (.part d) with
              | some (.rows l) => some l
              | some _ => some []
              | none => none }
        assemble number generation seg (match file .alive with | some (.bits l) => l | _ => [])
    | _ => none

/-- Write a segment and open it.  A number is written once, so anything already under it was left
by a crash, and an order file this segment does not have would be read as its own. -/
def write (d : Disk) (number generation : Nat) (b : SegmentBytes) : Disk × Option Live :=
  let d := d.erase number
  let files := (PARTS ++ ORDERS ++ [Ext.alive]).filterMap fun x => (b.content x).map fun c => (x, c)
  let (d, ok) := d.writeAll number files
  if ok then (d, open? d.image number generation) else (d, none)

end Live

/-! ## What is under a number -/

/-- Exactly the files of this segment, with this bitmap. -/
def Image.Holds (img : Image) (number : Nat) (b : SegmentBytes) : Prop :=
  ∀ x, img.file number x = b.content x

/-- Every mandatory part is derived from something. -/
def SegmentBytes.Full (b : SegmentBytes) : Prop :=
  ∀ d, d.isOrder = false → b.seg.derived d ≠ none

theorem mem_exts (x : Ext) : x ∈ PARTS ++ ORDERS ++ [Ext.alive] := by
  cases x with
  | part d => cases d <;> decide
  | _ => decide

theorem open?_of_holds {img : Image} {number : Nat} {b : SegmentBytes} (h : img.Holds number b)
    (hf : b.Full) (generation : Nat) :
    Live.open? img number generation = Live.fromBytes number generation b := by
  have hparts : ((PARTS ++ [Ext.alive]).any fun x => (img.file number x).isNone) = false := by
    rw [Bool.eq_false_iff, ne_eq, List.any_eq_true]
    rintro ⟨x, hx, hn⟩
    rw [h x] at hn
    cases x with
    | part d =>
      cases d <;> first | (simp [SegmentBytes.content, Derived.isOrder] at hn; done) | skip
      all_goals exact absurd hx (by decide)
    | _ => simp [SegmentBytes.content] at hn
  unfold Live.open?
  simp only [hparts, Bool.false_eq_true, if_false]
  rw [h .names]
  simp only [SegmentBytes.content, h .cols, h .dirs, h .ids, h .alive]
  unfold Live.fromBytes
  congr 1
  have hd : (fun d => match img.file number (.part d) with
      | some (.rows l) => some l
      | some _ => some []
      | none => none) = b.seg.derived := by
    funext d
    rw [h (.part d)]
    simp only [SegmentBytes.content]
    cases hder : b.seg.derived d with
    | none =>
      cases ho : d.isOrder with
      | false => exact absurd hder (hf d ho)
      | true => simp
    | some l => cases ho : d.isOrder <;> simp
  rw [hd]

/-! ## What an operation leaves alone -/

/-- From `d` to `d'` only files of `number` changed, at every step in between. -/
structure Disk.Only (number : Nat) (d d' : Disk) : Prop where
  past : ∃ new, d'.past = new ++ d.past ∧ ∀ img ∈ d'.image :: new,
    img.manifest = d.image.manifest ∧
      ∀ m, m ≠ number → ∀ x, img.file m x = d.image.file m x

namespace Disk

theorem Only.refl (number : Nat) (d : Disk) : Only number d d :=
  ⟨⟨[], rfl, by simp⟩⟩

theorem Only.image {number : Nat} {d d' : Disk} (h : Only number d d') :
    d'.image.manifest = d.image.manifest ∧
      ∀ m, m ≠ number → ∀ x, d'.image.file m x = d.image.file m x := by
  obtain ⟨new, -, h⟩ := h.past
  exact h _ List.mem_cons_self

theorem Only.trans {number : Nat} {d₁ d₂ d₃ : Disk} (h : Only number d₁ d₂)
    (h' : Only number d₂ d₃) : Only number d₁ d₃ := by
  obtain ⟨new, hp, hi⟩ := h.past
  obtain ⟨new', hp', hi'⟩ := h'.past
  obtain ⟨hm, hf⟩ := h.image
  refine ⟨⟨new' ++ new, by rw [hp', hp, List.append_assoc], fun img himg => ?_⟩⟩
  have hlater : img ∈ d₃.image :: new' → img.manifest = d₁.image.manifest ∧
      ∀ m, m ≠ number → ∀ x, img.file m x = d₁.image.file m x := fun hh =>
    ⟨(hi' img hh).1.trans hm, fun m hne x => ((hi' img hh).2 m hne x).trans (hf m hne x)⟩
  rcases List.mem_cons.mp himg with rfl | himg
  · exact hlater List.mem_cons_self
  · rcases List.mem_append.mp himg with himg | himg
    · exact hlater (List.mem_cons_of_mem _ himg)
    · exact hi img (List.mem_cons_of_mem _ himg)

theorem only_step {number : Nat} (d : Disk) (img : Image)
    (hm : img.manifest = d.image.manifest)
    (hf : ∀ m, m ≠ number → ∀ x, img.file m x = d.image.file m x) : Only number d (d.step img) := by
  refine ⟨⟨[img], rfl, fun i hi => ?_⟩⟩
  have : i = img := by simpa [step] using hi
  rw [this]
  exact ⟨hm, hf⟩

theorem only_fault {number : Nat} (d : Disk) : Only number d d.fault.2 := by
  unfold fault
  split
  · exact Only.refl _ _
  · exact ⟨⟨[], rfl, by simp⟩⟩

@[simp] theorem fault_image (d : Disk) : d.fault.2.image = d.image := by
  unfold fault
  split <;> rfl

@[simp] theorem fault_past (d : Disk) : d.fault.2.past = d.past := by
  unfold fault
  split <;> rfl

theorem only_setFile (d : Disk) (number : Nat) (x : Ext) (c : Content) :
    Only number d (d.step (d.image.setFile number x c)) :=
  only_step d _ rfl fun m hne y => by
    rw [Image.file_setFile, if_neg fun h => hne (congrArg Prod.fst h)]

theorem only_removeFile (d : Disk) (number : Nat) (x : Ext) :
    Only number d (d.step (d.image.removeFile number x)) :=
  only_step d _ rfl fun m hne y => by
    rw [Image.file_removeFile, if_neg fun h => hne (congrArg Prod.fst h)]

theorem writeSynced_only (d : Disk) (number : Nat) (x : Ext) (c : Content) :
    Only number d (d.writeSynced number x c).1 := by
  unfold writeSynced
  have h := (only_setFile d number x .torn).trans (only_fault _)
  simp only
  split
  · exact h
  · exact h.trans (only_setFile _ number x c)

theorem writeAlive_only (d : Disk) (number : Nat) (bits : List Bool) :
    Only number d (d.writeAlive number bits).1 := by
  unfold writeAlive
  simp only
  split
  · exact only_fault d
  · exact (only_fault d).trans (only_setFile _ number .alive _)

theorem eraseFrom_only (number : Nat) (exts : List Ext) :
    ∀ d : Disk, Only number d
      (exts.foldl (fun d ext => d.step (d.image.removeFile number ext)) d) := by
  induction exts with
  | nil => exact Only.refl number
  | cons x exts ih => exact fun d => (only_removeFile d number x).trans (ih _)

theorem erase_only (d : Disk) (number : Nat) : Only number d (d.erase number) :=
  eraseFrom_only number _ d

theorem eraseFrom_file (number : Nat) (exts : List Ext) (y : Ext) :
    ∀ d : Disk, (exts.foldl (fun d ext => d.step (d.image.removeFile number ext)) d).image.file
      number y = if y ∈ exts then none else d.image.file number y := by
  induction exts with
  | nil => simp
  | cons x exts ih =>
    intro d
    rw [List.foldl_cons, ih]
    simp only [step, Image.file_removeFile, Prod.mk.injEq, true_and, List.mem_cons]
    by_cases h1 : y ∈ exts <;> by_cases h2 : y = x <;> simp [h1, h2]

theorem erase_file (d : Disk) (number : Nat) (x : Ext) : (d.erase number).image.file number x = none := by
  unfold erase
  rw [eraseFrom_file, if_pos (mem_exts x)]

theorem writeAll_only (number : Nat) (files : List (Ext × Content)) :
    ∀ d : Disk, Only number d (d.writeAll number files).1 := by
  induction files with
  | nil => exact Only.refl number
  | cons f files ih =>
    obtain ⟨x, c⟩ := f
    intro d
    have h := writeSynced_only d number x c
    unfold writeAll
    simp only
    split
    · exact h.trans (ih _)
    · exact h

/-- When every file could be written, each holds what was written last. -/
theorem writeAll_file (number : Nat) (files : List (Ext × Content)) (y : Ext) :
    ∀ d : Disk, (files.map (·.1)).Nodup → (d.writeAll number files).2 = true →
      (d.writeAll number files).1.image.file number y =
        match files.find? (fun f => f.1 = y) with
        | some f => some f.2
        | none => d.image.file number y := by
  induction files with
  | nil => simp [writeAll]
  | cons f files ih =>
    obtain ⟨x, c⟩ := f
    intro d hnd hok
    obtain ⟨hx, hnd⟩ := List.nodup_cons.mp hnd
    unfold writeAll at hok ⊢
    simp only at hok ⊢
    split at hok
    · rename_i hw
      rw [if_pos hw, ih _ hnd hok]
      have himg : (d.writeSynced number x c).1.image.file number y =
          if y = x then some c else d.image.file number y := by
        unfold writeSynced at hw ⊢
        simp only at hw ⊢
        split at hw
        · cases hw
        · rename_i hf
          rw [if_neg hf]
          simp only [step, fault_image, Image.file_setFile, Prod.mk.injEq, true_and]
          by_cases hy : y = x <;> simp [hy]
      rw [himg, List.find?_cons]
      by_cases hy : x = y
      · subst hy
        have : files.find? (fun f => f.1 = x) = none := by
          rw [List.find?_eq_none]
          intro f hf
          simp only [decide_eq_true_eq]
          rintro rfl
          exact hx (List.mem_map.mpr ⟨f, hf, rfl⟩)
        simp [this]
      · have hy' : ¬ y = x := fun h => hy h.symm
        simp [hy, hy']
    · cases hok

end Disk

namespace Live

theorem write_only (d : Disk) (number generation : Nat) (b : SegmentBytes) :
    Disk.Only number d (write d number generation b).1 := by
  unfold write
  simp only
  have h := (Disk.erase_only d number).trans (Disk.writeAll_only number
    ((PARTS ++ ORDERS ++ [Ext.alive]).filterMap fun x => (b.content x).map fun c => (x, c)) _)
  split <;> exact h

theorem find?_contents (b : SegmentBytes) (exts : List Ext) (y : Ext) (hnd : exts.Nodup) :
    ((exts.filterMap fun x => (b.content x).map fun c => (x, c)).find? fun f => f.1 = y) =
      if y ∈ exts then (b.content y).map fun c => (y, c) else none := by
  induction exts with
  | nil => simp
  | cons x exts ih =>
    obtain ⟨hx, hnd⟩ := List.nodup_cons.mp hnd
    rw [List.filterMap_cons]
    cases hc : b.content x with
    | none =>
      simp only [Option.map_none, ih hnd, List.mem_cons]
      by_cases hy : y = x
      · subst hy
        simp [hx, hc]
      · simp [hy]
    | some c =>
      simp only [Option.map_some, List.find?_cons, ih hnd, List.mem_cons]
      by_cases hy : x = y
      · subst hy
        simp [hc]
      · have hy' : ¬ y = x := fun h => hy h.symm
        simp [hy, hy']

/-- Once every file could be written, they are what is under the number, whatever was there. -/
theorem writeAll_holds (d : Disk) (number : Nat) (b : SegmentBytes)
    (hok : ((d.erase number).writeAll number ((PARTS ++ ORDERS ++ [Ext.alive]).filterMap fun x =>
      (b.content x).map fun c => (x, c))).2 = true) :
    ((d.erase number).writeAll number ((PARTS ++ ORDERS ++ [Ext.alive]).filterMap fun x =>
      (b.content x).map fun c => (x, c))).1.image.Holds number b := by
  intro y
  rw [Disk.writeAll_file number _ y _ ?_ hok, find?_contents b _ y (by decide), if_pos (mem_exts y)]
  · cases hc : b.content y with
    | none => simp [Disk.erase_file]
    | some c => simp
  · refine List.Nodup.sublist ?_ (show (PARTS ++ ORDERS ++ [Ext.alive]).Nodup by decide)
    rw [List.map_filterMap]
    have : ∀ exts : List Ext, (exts.filterMap fun x =>
        ((b.content x).map fun c => (x, c)).map (·.1)).Sublist exts := by
      intro exts
      induction exts with
      | nil => simp
      | cons x exts ih =>
        rw [List.filterMap_cons]
        cases b.content x with
        | none => exact ih.cons x
        | some c => exact ih.cons_cons x
    exact this _

/-- A write that succeeds leaves the segment's files under its number and nothing else, whatever
was there before. -/
theorem write_holds (d : Disk) (number generation : Nat) (b : SegmentBytes) (l : Live)
    (h : (write d number generation b).2 = some l) :
    (write d number generation b).1.image.Holds number b := by
  unfold write at h ⊢
  simp only at h ⊢
  split at h
  · rename_i hok
    rw [if_pos hok]
    exact writeAll_holds d number b hok
  · cases h

theorem open?_stamp {img : Image} {number generation : Nat} {l : Live}
    (h : open? img number generation = some l) : l.number = number ∧ l.generation = generation := by
  unfold open? at h
  simp only at h
  split at h
  · cases h
  · split at h
    · exact assemble_stamp h
    · cases h

/-- What is written has the number and the stamp it was written under. -/
theorem write_stamp {d : Disk} {number generation : Nat} {b : SegmentBytes} {l : Live}
    (h : (write d number generation b).2 = some l) :
    l.number = number ∧ l.generation = generation := by
  unfold write at h
  simp only at h
  split at h
  · exact open?_stamp h
  · cases h

theorem write_eq (d : Disk) (number generation : Nat) (b : SegmentBytes) (hf : b.Full) (l : Live)
    (h : (write d number generation b).2 = some l) : fromBytes number generation b = some l := by
  have hh := write_holds d number generation b l h
  rw [← open?_of_holds hh hf generation]
  unfold write at h ⊢
  simp only at h ⊢
  split at h
  · rename_i hok
    rw [if_pos hok]
    exact h
  · cases h

end Live

end Scour
