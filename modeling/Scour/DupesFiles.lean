import Scour.Dupes

/-!
# What the files of a duplicate search say

`tells`: comparing two paths tells whether both can be read to the end and have the same bytes.
`bucket` has the candidates of one size with the same ends, by one name for each file, and
`mem_pending` says what stage one hands on.
-/

namespace Scour.Dupes

open Search (entries Tells)

/-! ## What the files say -/

/-- Readable from end to end. -/
def File.Whole (f : File) : Prop := f.opens = true ∧ ∀ i < f.bytes.length, f.bad i = false

/-- A path of a file that can be read from end to end. -/
def Sure (d : Disk) (p : Str) : Prop := ∃ f, d.file p = some f ∧ f.Whole

/-- What the file a path names has in it. -/
def bytesOf (d : Disk) (p : Str) : Option Str := (d.file p).map File.bytes

theorem File.read_eq_some {f : File} {start n : Nat} {bs : Str} : f.read start n = some bs ↔
    bs = (f.bytes.drop start).take n ∧
      ∀ i, start ≤ i → i < start + n → i < f.bytes.length → f.bad i = false := by
  have hany : (List.range' start (min n (f.bytes.length - start))).any f.bad = false ↔
      ∀ i, start ≤ i → i < start + n → i < f.bytes.length → f.bad i = false := by
    rw [List.any_eq_false]
    constructor
    · intro h i h1 h2 h3
      exact Bool.eq_false_iff.mpr (h i (List.mem_range'_1.mpr ⟨h1, by omega⟩))
    · intro h i hi
      have := List.mem_range'_1.mp hi
      exact Bool.eq_false_iff.mp (h i this.1 (by omega) (by omega))
  unfold File.read
  split
  · rename_i h
    refine ⟨nofun, fun h' => ?_⟩
    rw [hany.mpr h'.2] at h
    cases h
  · rename_i h
    rw [← hany]
    simp only [Option.some.injEq]
    exact ⟨fun h' => ⟨h'.symm, Bool.eq_false_iff.mpr h⟩, fun h' => h'.1.symm⟩

theorem File.Whole.read {f : File} (h : f.Whole) (start n : Nat) :
    f.read start n = some ((f.bytes.drop start).take n) :=
  File.read_eq_some.mpr ⟨rfl, fun i _ _ hi => h.2 i hi⟩

/-- What is left in a file behind a chunk. -/
theorem drop_chunk (l : Str) (start : Nat) : l.drop start =
    (l.drop start).take CHUNK ++ l.drop (start + ((l.drop start).take CHUNK).length) := by
  conv_lhs => rw [← List.take_append_drop CHUNK (l.drop start)]
  congr 1
  rw [List.drop_drop, List.length_take, List.length_drop]
  by_cases h : CHUNK ≤ l.length - start
  · rw [Nat.min_eq_left h]
  · rw [Nat.min_eq_right (by omega), List.drop_eq_nil_of_le (by omega),
      List.drop_eq_nil_of_le (by omega)]

/-- Files found to be identical have been read to the end. -/
theorem identicalFrom_true {a b : File} {fuel start : Nat}
    (h : identicalFrom a b fuel start = some true) :
    a.bytes.drop start = b.bytes.drop start ∧
      (∀ i, start ≤ i → i < a.bytes.length → a.bad i = false) ∧
      ∀ i, start ≤ i → i < b.bytes.length → b.bad i = false := by
  induction fuel generalizing start with
  | zero => cases h
  | succ fuel ih =>
    unfold identicalFrom at h
    split at h
    · cases h
    rename_i ba hba
    split at h
    · cases h
    rename_i bb hbb
    obtain ⟨hba, hgooda⟩ := File.read_eq_some.mp hba
    obtain ⟨hbb, hgoodb⟩ := File.read_eq_some.mp hbb
    split at h
    · cases h
    rename_i hsame
    have hsame : ba = bb := not_not.mp hsame
    have ha := drop_chunk a.bytes start
    have hb := drop_chunk b.bytes start
    have hlen : ba.length ≤ CHUNK := by
      rw [hba]
      exact List.length_take_le _ _
    rw [← hba] at ha
    rw [← hbb, ← hsame] at hb
    split at h
    · rename_i hzero
      -- the end of both
      have hnil (l : Str) (h : l.drop start = ba ++ l.drop (start + ba.length))
          (htake : ba = (l.drop start).take CHUNK) : l.length ≤ start := by
        have hlen := congrArg List.length htake
        rw [hzero, List.length_take, List.length_drop] at hlen
        have : 0 < CHUNK := by decide
        omega
      have hla := hnil _ ha hba
      have hlb := hnil _ hb (hsame.trans hbb)
      refine ⟨?_, fun i _ _ => by omega, fun i _ _ => by omega⟩
      rw [List.drop_eq_nil_of_le hla, List.drop_eq_nil_of_le hlb]
    · obtain ⟨hdrop, hra, hrb⟩ := ih h
      refine ⟨by rw [ha, hb, hdrop], fun i h1 h2 => ?_, fun i h1 h2 => ?_⟩
      · by_cases hi : i < start + ba.length
        · exact hgooda i h1 (by omega) h2
        · exact hra i (by omega) h2
      · by_cases hi : i < start + ba.length
        · exact hgoodb i h1 (by omega) h2
        · exact hrb i (by omega) h2

theorem identicalFrom_whole {a b : File} (ha : a.Whole) (hb : b.Whole) {fuel start : Nat}
    (hstart : start ≤ a.bytes.length) (hfuel : a.bytes.length < start + fuel) :
    identicalFrom a b fuel start = some (decide (a.bytes.drop start = b.bytes.drop start)) := by
  induction fuel generalizing start with
  | zero => omega
  | succ fuel ih =>
    unfold identicalFrom
    rw [ha.read, hb.read]
    have hda := drop_chunk a.bytes start
    have hdb := drop_chunk b.bytes start
    by_cases hsame : (a.bytes.drop start).take CHUNK = (b.bytes.drop start).take CHUNK
    · rw [← hsame] at hdb ⊢
      generalize hn : (a.bytes.drop start).take CHUNK = chunk at hda hdb ⊢
      have hlen := congrArg List.length hn
      rw [List.length_take, List.length_drop] at hlen
      have hpos : 0 < CHUNK := by decide
      simp only [ne_eq, not_true_eq_false, if_false]
      by_cases hzero : chunk.length = 0
      · rw [if_pos hzero]
        have hnil : chunk = [] := List.length_eq_zero_iff.mp hzero
        have hdrop : a.bytes.drop start = [] := List.drop_eq_nil_of_le (by omega)
        rw [hdrop] at hn
        have hother : b.bytes.drop start = [] := by
          have := hsame.symm.trans ((congrArg (List.take CHUNK) hdrop).trans List.take_nil)
          rcases List.take_eq_nil_iff.mp this with h | h
          · omega
          · exact h
        rw [hdrop, hother, decide_eq_true rfl]
      · rw [if_neg hzero, ih (by omega) (by omega)]
        conv_rhs => rw [hda, hdb]
        simp only [List.append_cancel_left_eq]
    · have hne : a.bytes.drop start ≠ b.bytes.drop start := fun h => hsame (by rw [h])
      simp only [ne_eq, hsame, not_false_eq_true, if_true, decide_eq_false hne]

/-- Of a file that can be read whole, a comparison sees nothing but the bytes. -/
theorem identicalFrom_congr {a b c : File} (hb : b.Whole) (hc : c.Whole)
    (hbytes : b.bytes = c.bytes) (fuel start : Nat) :
    identicalFrom a b fuel start = identicalFrom a c fuel start := by
  induction fuel generalizing start with
  | zero => rfl
  | succ fuel ih =>
    unfold identicalFrom
    simp only [hb.read, hc.read, hbytes, ih]

section
variable {d : Disk} {p q r : Str}

theorem Disk.open_eq_some {f : File} : d.open_ p = some f ↔ d.file p = some f ∧ f.opens = true :=
  Option.filter_eq_some_iff

theorem Sure.open_eq (h : Sure d p) : ∃ f, d.file p = some f ∧ d.open_ p = some f ∧ f.Whole := by
  obtain ⟨f, hf, hw⟩ := h
  exact ⟨f, hf, Disk.open_eq_some.mpr ⟨hf, hw.1⟩, hw⟩

end

/-- `identical` tells the files that can be read whole. -/
theorem tells (d : Disk) : Tells (identical d) (Sure d) (bytesOf d) where
  same {p q} hne := by
    unfold identical
    rw [if_neg hne]
    constructor
    · intro h
      split at h
      · rename_i fa fb hfa hfb
        obtain ⟨hfa, hoa⟩ := Disk.open_eq_some.mp hfa
        obtain ⟨hfb, hob⟩ := Disk.open_eq_some.mp hfb
        obtain ⟨hbytes, hra, hrb⟩ := identicalFrom_true h
        refine ⟨⟨fa, hfa, hoa, fun i hi => hra i (by omega) hi⟩,
          ⟨fb, hfb, hob, fun i hi => hrb i (by omega) hi⟩, ?_⟩
        unfold bytesOf
        rw [hfa, hfb]
        exact congrArg some (by simpa using hbytes)
      · cases h
    · rintro ⟨hp, hq, hbytes⟩
      obtain ⟨f, hf, hof, hwf⟩ := hp.open_eq
      obtain ⟨g, hg, hog, hwg⟩ := hq.open_eq
      unfold bytesOf at hbytes
      rw [hf, hg] at hbytes
      have hbytes : f.bytes = g.bytes := Option.some.inj hbytes
      rw [hof, hog]
      dsimp only
      rw [identicalFrom_whole hwf hwg (Nat.zero_le _) (by omega), hbytes, decide_eq_true rfl]
  sure {p q} hne hp hq := by
    obtain ⟨f, -, hof, hwf⟩ := hp.open_eq
    obtain ⟨g, -, hog, hwg⟩ := hq.open_eq
    unfold identical
    rw [if_neg hne, hof, hog]
    dsimp only
    rw [identicalFrom_whole hwf hwg (Nat.zero_le _) (by omega)]
    exact Option.some_ne_none _
  congr {p q r} hpq hpr hq hr hbytes := by
    obtain ⟨f, hf, hof, hwf⟩ := hq.open_eq
    obtain ⟨g, hg, hog, hwg⟩ := hr.open_eq
    unfold bytesOf at hbytes
    rw [hf, hg] at hbytes
    unfold identical
    rw [if_neg hpq, if_neg hpr, hof, hog]
    cases d.open_ p with
    | none => rfl
    | some a => exact identicalFrom_congr hwf hwg (Option.some.inj hbytes) _ _

/-! ## The ends -/

/-- What the candidates say of the sizes is so. -/
def TrueSizes (d : Disk) (files : List Candidate) : Prop :=
  ∀ c ∈ files, ∀ f, d.file c.path = some f → c.size.toNat = f.bytes.length

section
variable {d : Disk} {p q : Str} {size : UInt64}

theorem edges_of_sure {f : File} (hf : d.file p = some f) (hw : f.Whole)
    (hsize : size.toNat = f.bytes.length) : edges d p size =
      let h := Fnv.write (Fnv.write Fnv.new (toLeBytes size)) (f.bytes.take EDGE)
      some (if EDGE * 2 < size.toNat then
        (Fnv.write h (f.bytes.drop (f.bytes.length - EDGE)), UInt64.ofNat EDGE + UInt64.ofNat EDGE)
      else (h, UInt64.ofNat (f.bytes.take EDGE).length)) := by
  unfold edges
  rw [Disk.open_eq_some.mpr ⟨hf, hw.1⟩]
  dsimp only
  rw [hw.read, List.drop_zero]
  dsimp only
  by_cases hlong : EDGE * 2 < size.toNat
  · rw [if_pos hlong, if_pos hlong, if_neg (by omega), hw.read]
    have htake : (f.bytes.drop (f.bytes.length - EDGE)).take EDGE =
        f.bytes.drop (f.bytes.length - EDGE) :=
      List.take_of_length_le (by rw [List.length_drop]; omega)
    dsimp only
    rw [htake, List.length_take, List.length_drop, Nat.min_eq_left (by omega),
      show f.bytes.length - (f.bytes.length - EDGE) = EDGE by omega]
  · rw [if_neg hlong, if_neg hlong]

/-- Files with the same bytes have the same ends. -/
theorem edges_congr (hp : Sure d p) (hq : Sure d q) (hbytes : bytesOf d p = bytesOf d q)
    (hsize : ∀ f, d.file p = some f → size.toNat = f.bytes.length) :
    edges d p size = edges d q size ∧ (edges d p size).isSome = true := by
  obtain ⟨f, hf, hwf⟩ := hp
  obtain ⟨g, hg, hwg⟩ := hq
  unfold bytesOf at hbytes
  rw [hf, hg] at hbytes
  have hbytes : f.bytes = g.bytes := Option.some.inj hbytes
  have hsf := hsize f hf
  rw [edges_of_sure hf hwf hsf, edges_of_sure hg hwg (hbytes ▸ hsf), hbytes]
  exact ⟨rfl, rfl⟩

end

/-! ## One name for each file -/

/-- Names that are not of one file. -/
def Apart (d : Disk) (p q : Str) : Prop := ∀ id, d.identity p = some id → d.identity q ≠ some id

/-- What stage two leaves of some paths: the first name of each file. -/
def oneName (d : Disk) (paths : List Str) : List Str := unlinked d [] (paths.map fun p => (p, 2))

section
variable {d : Disk}

theorem Apart.symm {p q : Str} (h : Apart d p q) : Apart d q p := fun id hq hp => h id hp hq

instance : Std.Symm (Apart d) := ⟨fun _ _ => Apart.symm⟩

theorem unlinked_sublist (files : List (UInt64 × UInt64)) (named : List (Str × UInt64)) :
    (unlinked d files named).Sublist (named.map (·.1)) := by
  induction named generalizing files with
  | nil => exact List.Sublist.refl _
  | cons head named ih =>
    obtain ⟨p, links⟩ := head
    unfold unlinked
    split
    · exact (ih files).cons_cons _
    split
    · exact (ih files).cons_cons _
    split
    · exact (ih files).cons _
    · exact (ih _).cons_cons _

/-- A file keeps a name. -/
theorem unlinked_covers {files : List (UInt64 × UInt64)} {named : List (Str × UInt64)} {p : Str}
    (hp : p ∈ named.map (·.1)) {id : UInt64 × UInt64} (hid : d.identity p = some id) :
    id ∈ files ∨ ∃ q ∈ unlinked d files named, d.identity q = some id := by
  induction named generalizing files with
  | nil => cases hp
  | cons head named ih =>
    obtain ⟨r, links⟩ := head
    unfold unlinked
    rcases List.mem_cons.mp hp with rfl | hp
    · split
      · exact Or.inr ⟨_, List.mem_cons_self, hid⟩
      rw [hid]
      dsimp only
      split
      · rename_i hmem
        exact Or.inl hmem
      · exact Or.inr ⟨_, List.mem_cons_self, hid⟩
    · have hcons (files : List (UInt64 × UInt64)) : id ∈ files ∨
          ∃ q ∈ r :: unlinked d files named, d.identity q = some id :=
        (ih hp).imp_right fun ⟨q, hq, hid⟩ => ⟨q, List.mem_cons_of_mem _ hq, hid⟩
      split
      · exact hcons files
      split
      · exact hcons files
      rename_i id' hid'
      split
      · exact ih hp
      · rcases hcons (id' :: files) with h | h
        · rcases List.mem_cons.mp h with rfl | h
          · exact Or.inr ⟨r, List.mem_cons_self, hid'⟩
          · exact Or.inl h
        · exact Or.inr h

theorem unlinked_none (files : List (UInt64 × UInt64)) {p : Str} (named : List (Str × UInt64))
    (hid : d.identity p = none) :
    unlinked d files ((p, 2) :: named) = p :: unlinked d files named := by
  rw [unlinked, if_neg (by decide), hid]

/-- A name that is asked for its file. -/
theorem unlinked_some (files : List (UInt64 × UInt64)) {p : Str} (named : List (Str × UInt64))
    {id : UInt64 × UInt64} (hid : d.identity p = some id) : unlinked d files ((p, 2) :: named) =
      if id ∈ files then unlinked d files named else p :: unlinked d (id :: files) named := by
  rw [unlinked, if_neg (by decide), hid]

theorem unlinked_apart (files : List (UInt64 × UInt64)) (paths : List Str) :
    (unlinked d files (paths.map fun p => (p, 2))).Pairwise (Apart d) ∧
      ∀ q ∈ unlinked d files (paths.map fun p => (p, 2)), ∀ id ∈ files,
        d.identity q ≠ some id := by
  induction paths generalizing files with
  | nil => exact ⟨List.Pairwise.nil, nofun⟩
  | cons p paths ih =>
    rw [List.map_cons]
    cases hid : d.identity p with
    | none =>
      rw [unlinked_none _ _ hid]
      obtain ⟨hpair, hnew⟩ := ih files
      refine ⟨List.pairwise_cons.mpr ⟨fun q _ id hid' => ?_, hpair⟩, fun q hq id hmem => ?_⟩
      · rw [hid] at hid'
        cases hid'
      · rcases List.mem_cons.mp hq with rfl | hq
        · rw [hid]
          exact nofun
        · exact hnew q hq id hmem
    | some id' =>
      rw [unlinked_some _ _ hid]
      split
      · exact ih files
      rename_i hnot
      obtain ⟨hpair, hnew⟩ := ih (id' :: files)
      refine ⟨List.pairwise_cons.mpr ⟨fun q hq id hid' => ?_, hpair⟩, fun q hq id hmem => ?_⟩
      · rw [hid] at hid'
        exact hnew q hq id (Option.some.inj hid' ▸ List.mem_cons_self)
      · rcases List.mem_cons.mp hq with rfl | hq
        · rw [hid]
          intro heq
          exact hnot (Option.some.inj heq ▸ hmem)
        · exact hnew q hq id (List.mem_cons_of_mem _ hmem)

theorem oneName_sublist (paths : List Str) : (oneName d paths).Sublist paths := by
  have h := unlinked_sublist (d := d) [] (paths.map fun p => (p, 2))
  have hid : (paths.map fun p => (p, (2 : UInt64))).map (·.1) = paths := by
    rw [List.map_map]
    exact List.map_id paths
  rw [hid] at h
  exact h

theorem oneName_apart (paths : List Str) : (oneName d paths).Pairwise (Apart d) :=
  (unlinked_apart [] paths).1

theorem Disk.identity_eq {p : Str} {f : File} (h : d.file p = some f) :
    d.identity p = some f.identity := by
  unfold Disk.identity
  rw [h]
  rfl

/-- The file of an identity that is known. -/
theorem Disk.file_of_identity {p q : Str} {f : File} (hp : d.file p = some f)
    (hq : d.identity q = some f.identity) : d.file q = some f := by
  obtain ⟨g, hg, hid⟩ := Option.map_eq_some_iff.mp hq
  rw [hg, d.one hg hp hid]

theorem oneName_covers {paths : List Str} {p : Str} (hp : p ∈ paths) {f : File}
    (hf : d.file p = some f) : ∃ q ∈ oneName d paths, d.file q = some f := by
  have hmem : p ∈ (paths.map fun p => (p, (2 : UInt64))).map (·.1) := by
    rw [List.map_map]
    exact List.mem_map.mpr ⟨p, hp, rfl⟩
  rcases unlinked_covers hmem (Disk.identity_eq hf) with h | ⟨q, hq, hid⟩
  · exact absurd h List.not_mem_nil
  · exact ⟨q, hq, Disk.file_of_identity hf hid⟩

/-- The mark of a path's ends, with the path. -/
def marked (d : Disk) (size : UInt64) (p : Str) : Option (UInt64 × Str) :=
  (edges d p size).map fun e => (e.1, p)

theorem Ends.look_spec (size : UInt64) (e : Ends) (p : Str) : (e.look d size p).files = e.files ∧
    (e.look d size p).marks = e.marks ++ (marked d size p).toList := by
  unfold Ends.look marked
  cases edges d p size with
  | none => exact ⟨rfl, (List.append_nil _).symm⟩
  | some x => exact ⟨rfl, rfl⟩

theorem Ends.foldl_marks (size : UInt64) (paths : List Str) (e : Ends) :
    (paths.foldl (Ends.next d size) e).marks =
      e.marks ++ (unlinked d e.files (paths.map fun p => (p, 2))).filterMap (marked d size) := by
  induction paths generalizing e with
  | nil => exact (List.append_nil _).symm
  | cons p paths ih =>
    have hcons (l : List Str) : (p :: l).filterMap (marked d size) =
        (marked d size p).toList ++ l.filterMap (marked d size) := by
      rw [List.filterMap_cons]
      cases marked d size p <;> rfl
    rw [List.foldl_cons, ih, List.map_cons]
    unfold Ends.next
    cases hid : d.identity p with
    | none =>
      rw [unlinked_none _ _ hid]
      obtain ⟨hfiles, hmarks⟩ := Ends.look_spec (d := d) size e p
      dsimp only
      rw [hfiles, hmarks, hcons, List.append_assoc]
    | some id =>
      rw [unlinked_some _ _ hid]
      dsimp only
      split
      · rfl
      · obtain ⟨hfiles, hmarks⟩ :=
          Ends.look_spec (d := d) size { e with files := id :: e.files } p
        rw [hfiles, hmarks, hcons]
        exact List.append_assoc _ _ _

end

/-! ## The candidates of one size -/

/-- The paths of one size, without those known to be another name of a file. -/
def sized (d : Disk) (files : List Candidate) (size : UInt64) : List Str :=
  unlinked d [] (((files.filter fun c => c.size = size).map
    fun c => (c.path, c.links)).insertionSort namedLe)

/-- The files of one size with the same ends, in order, by their first names. -/
def bucket (d : Disk) (files : List Candidate) (size mark : UInt64) : List Str :=
  (oneName d ((sized d files size).insertionSort (· ≤ ·))).filter
    fun p => (edges d p size).map (·.1) = some mark

section
variable {d : Disk} {h : Hasher} {files : List Candidate} {minSize size mark : UInt64}

theorem mem_sized {p : Str} (hp : p ∈ sized d files size) :
    ∃ c ∈ files, c.size = size ∧ c.path = p := by
  have hmem := (unlinked_sublist _ _).subset hp
  obtain ⟨⟨q, l⟩, hq, rfl⟩ := List.mem_map.mp hmem
  obtain ⟨c, hc, heq⟩ := List.mem_map.mp ((List.mem_insertionSort _).mp hq)
  obtain ⟨hc, hsize⟩ := List.mem_filter.mp hc
  exact ⟨c, hc, of_decide_eq_true hsize, congrArg Prod.fst heq⟩

theorem sized_covers {c : Candidate} (hc : c ∈ files) {f : File} (hf : d.file c.path = some f) :
    ∃ q ∈ sized d files c.size, d.file q = some f := by
  have hmem : c.path ∈ (((files.filter fun x => x.size = c.size).map
      fun c => (c.path, c.links)).insertionSort namedLe).map (·.1) := by
    refine List.mem_map.mpr ⟨(c.path, c.links), (List.mem_insertionSort _).mpr ?_, rfl⟩
    exact List.mem_map.mpr ⟨c, List.mem_filter.mpr ⟨hc, decide_eq_true rfl⟩, rfl⟩
  rcases unlinked_covers hmem (Disk.identity_eq hf) with h | ⟨q, hq, hid⟩
  · exact absurd h List.not_mem_nil
  · exact ⟨q, hq, Disk.file_of_identity hf hid⟩

theorem sized_nodup (hnodup : (files.map Candidate.path).Nodup) : (sized d files size).Nodup := by
  refine List.Nodup.sublist (unlinked_sublist _ _) ?_
  refine ((List.perm_insertionSort _ _).map _).nodup_iff.mpr ?_
  rw [List.map_map]
  exact hnodup.sublist (List.filter_sublist.map _)

/-- What stage one takes in of a size. -/
theorem mem_bySize (named : List (Str × UInt64)) :
    (size, named) ∈ entries ((files.filter fun c => ¬ c.size < minSize).map
        fun c => (c.size, (c.path, c.links))) ↔
      named = (files.filter fun c => c.size = size).map (fun c => (c.path, c.links)) ∧
        minSize ≤ size ∧ ∃ c ∈ files, c.size = size := by
  have hmap (l : List Candidate) : ((l.map fun c => (c.size, (c.path, c.links))).filter
      fun x => x.1 = size).map (·.2) =
        (l.filter fun c => c.size = size).map fun c => (c.path, c.links) := by
    rw [List.filter_map, List.map_map]
    rfl
  have hfilter (hle : minSize ≤ size) : ((files.filter fun c => ¬ c.size < minSize).filter
      fun c => c.size = size) = files.filter fun c => c.size = size := by
    rw [List.filter_filter]
    refine List.filter_congr fun c _ => ?_
    by_cases hc : c.size = size
    · simp [hc, UInt64.not_lt.mpr hle]
    · simp [hc]
  rw [Search.mem_entries, hmap]
  constructor
  · rintro ⟨rfl, x, hx, rfl⟩
    obtain ⟨c, hc, rfl⟩ := List.mem_map.mp hx
    obtain ⟨hc, hle⟩ := List.mem_filter.mp hc
    have hle : minSize ≤ c.size := UInt64.not_lt.mp (of_decide_eq_true hle)
    exact ⟨by rw [hfilter hle], hle, c, hc, rfl⟩
  · rintro ⟨rfl, hle, c, hc, rfl⟩
    refine ⟨by rw [hfilter hle], (c.size, (c.path, c.links)), List.mem_map.mpr ⟨c, ?_, rfl⟩, rfl⟩
    exact List.mem_filter.mpr ⟨hc, decide_eq_true (UInt64.not_lt.mpr hle)⟩

theorem mem_pending (e : UInt64 × List Str) : e ∈ pending d h files minSize ↔
    minSize ≤ e.1 ∧ e.2 = sized d files e.1 ∧ 1 < e.2.length := by
  obtain ⟨size, paths⟩ := e
  unfold pending
  rw [List.mem_insertionSort, List.mem_filter, List.mem_map]
  dsimp only
  constructor
  · rintro ⟨⟨⟨s, named⟩, hmem, heq⟩, hlen⟩
    obtain ⟨hmem, -⟩ := List.mem_filter.mp hmem
    obtain ⟨rfl, rfl⟩ := Prod.mk.inj heq
    obtain ⟨rfl, hle, -⟩ := (mem_bySize named).mp ((h.perm _).mem_iff.mp hmem)
    exact ⟨hle, rfl, of_decide_eq_true hlen⟩
  · rintro ⟨hle, rfl, hlen⟩
    refine ⟨⟨(size, (files.filter fun c => c.size = size).map fun c => (c.path, c.links)), ?_, rfl⟩,
      decide_eq_true hlen⟩
    obtain ⟨p, hp⟩ := List.exists_mem_of_length_pos (Nat.zero_lt_of_lt hlen)
    obtain ⟨c, hc, hsize, -⟩ := mem_sized hp
    have hmem := (mem_bySize _).mpr ⟨rfl, hle, c, hc, hsize⟩
    refine List.mem_filter.mpr ⟨(h.perm _).mem_iff.mpr hmem, decide_eq_true ?_⟩
    have hshort := (unlinked_sublist (d := d) [] (((files.filter fun c => c.size = size).map
      fun c => (c.path, c.links)).insertionSort namedLe)).length_le
    rw [List.length_map, List.length_insertionSort] at hshort
    exact Nat.lt_of_lt_of_le hlen hshort

theorem pending_nodup : ((pending d h files minSize).map (·.1)).Nodup := by
  unfold pending
  refine ((List.perm_insertionSort _ _).map _).nodup_iff.mpr ?_
  have hsub {α : Type} (l : List (UInt64 × α)) (f : UInt64 × α → Bool) (hl : (l.map (·.1)).Nodup) :
      ((l.filter f).map (·.1)).Nodup := hl.sublist (List.filter_sublist.map _)
  refine hsub _ _ ?_
  rw [List.map_map]
  refine hsub _ _ (((h.perm _).map _).nodup_iff.mpr ?_)
  exact Search.entries_nodup _

end

end Scour.Dupes
