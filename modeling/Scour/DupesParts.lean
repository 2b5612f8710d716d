import Scour.DupesFiles

/-!
# What becomes of the candidates of a duplicate search

A run puts its candidates into parts: those of one size that it could not afford to read, and those
of one bucket, sorted into classes as far as the budget went.  `Apportioned.together_iff`: files
with the same bytes are in one group exactly where no part loses two of them.
-/

namespace Scour.Dupes

open Search (Class Classed entries Clear)
open Sizes (saturatingSub)

/-! ## Classes -/

section
variable {d : Disk} {size budget : UInt64}

theorem place_classed {p : Str} {done : List Str} {before classes after : List (Class Str)}
    {m m' : Meter} (hc : Classed (identical d) done (before ++ classes))
    (hbefore : ∀ c ∈ before, identical d c.first p = some false)
    (h : place d size budget p classes m = (some after, m')) :
    Classed (identical d) (done ++ [p]) (before ++ after) := by
  induction classes generalizing before after m with
  | nil =>
    obtain ⟨h, -⟩ := Prod.mk.inj h
    rw [List.append_nil] at hc
    rw [← Option.some.inj h]
    exact hc.fresh hbefore
  | cons c rest ih =>
    unfold place at h
    split at h
    · cases (Prod.mk.inj h).1
    split at h
    · rename_i hsame
      obtain ⟨h, -⟩ := Prod.mk.inj h
      rw [← Option.some.inj h]
      exact hc.joined hbefore hsame
    · rename_i hother
      obtain ⟨h, hm⟩ := Prod.mk.inj h
      obtain ⟨rest', hrest, rfl⟩ := Option.map_eq_some_iff.mp h
      have hsplit : before ++ c :: rest = (before ++ [c]) ++ rest := by simp
      rw [hsplit] at hc
      have := ih hc (fun x hx => ?_) (Prod.ext hrest hm)
      · rw [List.append_assoc] at this
        exact this
      · rcases List.mem_append.mp hx with hx | hx
        · exact hbefore x hx
        · rw [List.mem_singleton.mp hx]
          exact hother
    · rename_i hnone
      obtain ⟨h, -⟩ := Prod.mk.inj h
      rw [← Option.some.inj h]
      exact hc.dropped hbefore hnone

/-- What is reached is classed, and the rest is left as it came. -/
theorem partitionFrom_classed {done paths left : List Str} {classes after : List (Class Str)}
    {m m' : Meter} (hc : Classed (identical d) done classes)
    (h : partitionFrom d size budget paths classes m = (after, left, m')) :
    ∃ reached, paths = reached ++ left ∧ Classed (identical d) (done ++ reached) after := by
  induction paths generalizing done classes m with
  | nil =>
    cases h
    exact ⟨[], rfl, by rwa [List.append_nil]⟩
  | cons p paths ih =>
    unfold partitionFrom at h
    split at h
    · cases h
      exact ⟨[], rfl, by rwa [List.append_nil]⟩
    · rename_i classes' m'' hplace
      have hplaced : Classed (identical d) (done ++ [p]) ([] ++ classes') :=
        place_classed hc nofun hplace
      obtain ⟨reached, rfl, hreached⟩ := ih hplaced h
      refine ⟨p :: reached, rfl, ?_⟩
      rwa [List.append_assoc] at hreached

end

/-! ## What becomes of the candidates -/

/-- The groups that a part gives. -/
def Part.groups : Part → List Group
  | .unread size paths => [⟨size, paths, .size⟩]
  | .parted size classes _ left =>
      ((classes.filter fun c => 1 < c.members.length).map fun c => ⟨size, c.members, .content⟩) ++
        if 1 < left.length then [⟨size, left, .edges⟩] else []

/-- A bucket of several files is sorted into classes as far as the budget goes. -/
inductive Parts (d : Disk) (size : UInt64) : List Str → Part → Prop
  | mk {same classes done left} : 1 < same.length → same = done ++ left →
      Classed (identical d) done classes → Parts d size same (.parted size classes done left)

/-- The buckets of one size, in the order they are taken. -/
def buckets (d : Disk) (h : Hasher) (e : UInt64 × List Str) : List (List Str) :=
  (h.order (entries ((oneName d (e.2.insertionSort (· ≤ ·))).filterMap (marked d e.1)))).map (·.2)

/-- What becomes of the files of one size. -/
def Shares (d : Disk) (h : Hasher) (e : UInt64 × List Str) (parts : List Part) : Prop :=
  parts = [.unread e.1 (e.2.insertionSort (· ≤ ·))] ∨
    List.Forall₂ (Parts d e.1) ((buckets d h e).filter fun same => 1 < same.length) parts

section
variable {d : Disk} {h : Hasher} {size budget : UInt64}

/-- What a step of the run adds. -/
structure Adds (r r' : Run) (ps : List Part) : Prop where
  parts : r'.parts = r.parts ++ ps
  out : r'.out = r.out ++ ps.flatMap Part.groups

theorem Adds.refl (r : Run) : Adds r r [] := ⟨(List.append_nil _).symm, (List.append_nil _).symm⟩

theorem Adds.trans {r r' r'' : Run} {ps qs : List Part} (h1 : Adds r r' ps) (h2 : Adds r' r'' qs) :
    Adds r r'' (ps ++ qs) where
  parts := by rw [h2.parts, h1.parts, List.append_assoc]
  out := by rw [h2.out, h1.out, List.flatMap_append, List.append_assoc]

theorem bucket_adds (r : Run) {same : List Str} (hsorted : same.Pairwise (· ≤ ·))
    (hlen : 1 < same.length) :
    ∃ p, Parts d size same p ∧ Adds r (r.bucket d budget size same) [p] := by
  unfold Run.bucket
  dsimp only
  rw [if_neg (by omega), hsorted.insertionSort_eq]
  cases hpart : partition d same size (saturatingSub budget r.meter.read) with
  | mk classes rest =>
    obtain ⟨left, m⟩ := rest
    obtain ⟨done, hsame, hclassed⟩ := partitionFrom_classed Classed.nil hpart
    refine ⟨.parted size classes done left, .mk hlen hsame hclassed, ?_⟩
    have hdone : same.take (same.length - left.length) = done := by
      rw [hsame, List.length_append, Nat.add_sub_cancel, List.take_left']
      rfl
    dsimp only
    rw [hdone]
    by_cases hleft : 1 < left.length
    · rw [if_pos hleft]
      refine ⟨rfl, ?_⟩
      simp [Part.groups, hleft]
    · rw [if_neg hleft]
      refine ⟨rfl, ?_⟩
      simp [Part.groups, hleft]

theorem buckets_adds (size budget : UInt64) (bs : List (List Str))
    (hsorted : ∀ b ∈ bs, b.Pairwise (· ≤ ·)) (r : Run) :
    ∃ ps, List.Forall₂ (Parts d size) (bs.filter fun same => 1 < same.length) ps ∧
      Adds r (bs.foldl (Run.bucket d budget size) r) ps := by
  induction bs generalizing r with
  | nil => exact ⟨[], .nil, .refl r⟩
  | cons b bs ih =>
    obtain ⟨ps, hps, hadds⟩ := ih (fun b hb => hsorted b (List.mem_cons_of_mem _ hb))
      (r.bucket d budget size b)
    by_cases hlen : 1 < b.length
    · obtain ⟨p, hp, hfirst⟩ := bucket_adds r (hsorted b List.mem_cons_self) hlen
      rw [List.filter_cons, if_pos (decide_eq_true hlen)]
      exact ⟨p :: ps, .cons hp hps, hfirst.trans hadds⟩
    · rw [List.filter_cons, if_neg (by simpa using hlen)]
      have hstay : r.bucket d budget size b = r := by
        unfold Run.bucket
        rw [if_pos (by omega)]
      rw [hstay] at hadds
      rw [List.foldl_cons, hstay]
      exact ⟨ps, hps, hadds⟩

theorem marked_filter (size mark : UInt64) (l : List Str) :
    ((l.filterMap (marked d size)).filter fun x => x.1 = mark).map (·.2) =
      l.filter fun p => (edges d p size).map (·.1) = some mark := by
  induction l with
  | nil => rfl
  | cons p l ih =>
    unfold marked at ih ⊢
    rw [List.filterMap_cons, List.filter_cons]
    cases hedges : edges d p size with
    | none => simpa using ih
    | some x =>
      by_cases hx : x.1 = mark
      · simp [hx, ih]
      · simp [hx, ih]

theorem mem_buckets {size : UInt64} {paths b : List Str} : b ∈ buckets d h (size, paths) ↔
    ∃ mark, b ≠ [] ∧ b = (oneName d (paths.insertionSort (· ≤ ·))).filter
      fun p => (edges d p size).map (·.1) = some mark := by
  unfold buckets
  rw [List.mem_map]
  constructor
  · rintro ⟨⟨mark, xs⟩, hmem, rfl⟩
    obtain ⟨hxs, y, hy, rfl⟩ := (Search.mem_entries _ _ _).mp ((h.perm _).mem_iff.mp hmem)
    rw [marked_filter] at hxs
    refine ⟨y.1, ?_, hxs⟩
    obtain ⟨p, hp, hmark⟩ := List.mem_filterMap.mp hy
    obtain ⟨x, hx, rfl⟩ := Option.map_eq_some_iff.mp hmark
    refine List.ne_nil_of_mem (a := p) ?_
    rw [hxs]
    exact List.mem_filter.mpr ⟨hp, decide_eq_true (by rw [hx]; rfl)⟩
  · rintro ⟨mark, hne, rfl⟩
    refine ⟨(mark, _), (h.perm _).mem_iff.mpr ((Search.mem_entries _ _ _).mpr
      ⟨(marked_filter _ _ _).symm, ?_⟩), rfl⟩
    obtain ⟨p, hp⟩ := List.exists_mem_of_ne_nil _ hne
    obtain ⟨hp, hmark⟩ := List.mem_filter.mp hp
    obtain ⟨x, hx, hmark⟩ := Option.map_eq_some_iff.mp (of_decide_eq_true hmark)
    exact ⟨(x.1, p), List.mem_filterMap.mpr ⟨p, hp, by unfold marked; rw [hx]; rfl⟩, hmark⟩

theorem buckets_sorted {e : UInt64 × List Str} {b : List Str} (hb : b ∈ buckets d h e) :
    b.Pairwise (· ≤ ·) := by
  obtain ⟨mark, -, rfl⟩ := mem_buckets.mp hb
  exact (List.pairwise_insertionSort (· ≤ ·) e.2).sublist
    (List.filter_sublist.trans (oneName_sublist _))

theorem group_adds (h : Hasher) (budget : UInt64) (r : Run) (e : UInt64 × List Str) :
    ∃ ps, Shares d h e ps ∧ Adds r (r.group d h budget e) ps := by
  unfold Run.group
  dsimp only
  split
  · exact ⟨_, Or.inl rfl, rfl, rfl⟩
  · rw [Ends.foldl_marks]
    obtain ⟨ps, hps, hadds⟩ := buckets_adds e.1 budget (buckets d h e)
      (fun b hb => buckets_sorted hb)
      { r with meter := ((e.2.insertionSort (· ≤ ·)).foldl (Ends.next d e.1)
        ⟨[], [], r.meter⟩).meter }
    exact ⟨ps, Or.inr hps, hadds.parts, hadds.out⟩

/-- What a whole run makes of the candidates. -/
theorem run_adds (h : Hasher) (budget : UInt64) (l : List (UInt64 × List Str)) (r : Run) : ∃ pss,
    List.Forall₂ (Shares d h) l pss ∧
      Adds r (l.foldl (Run.group d h budget) r) pss.flatten := by
  induction l generalizing r with
  | nil => exact ⟨[], .nil, .refl r⟩
  | cons e l ih =>
    obtain ⟨ps, hps, hfirst⟩ := group_adds h budget r e
    obtain ⟨pss, hpss, hrest⟩ := ih (r.group d h budget e)
    exact ⟨ps :: pss, .cons hps hpss, hfirst.trans hrest⟩

end

/-! ## The parts of a run -/

/-- The paths a part is about. -/
def Part.names : Part → List Str
  | .unread _ paths => paths
  | .parted _ _ done left => done ++ left

def Part.size : Part → UInt64
  | .unread size _ => size
  | .parted size _ _ _ => size

/-- Parts that have no file in common. -/
def Foreign (d : Disk) (a b : Part) : Prop := ∀ p ∈ a.names, ∀ q ∈ b.names, Apart d p q

instance (d : Disk) : Std.Symm (Foreign d) :=
  ⟨fun _ _ hab q hq p hp => (hab p hp q hq).symm⟩

/-- Where a part of a run comes from. -/
inductive Arises (d : Disk) (files : List Candidate) (minSize : UInt64) : Part → Prop
  | unread {size} : minSize ≤ size →
      Arises d files minSize (.unread size ((sized d files size).insertionSort (· ≤ ·)))
  | parted {size mark classes done left} : minSize ≤ size → 1 < (bucket d files size mark).length →
      bucket d files size mark = done ++ left → Classed (identical d) done classes →
      Arises d files minSize (.parted size classes done left)

section
variable {d : Disk} {h : Hasher} {files : List Candidate} {minSize size mark : UInt64}

theorem bucket_sublist : (bucket d files size mark).Sublist
    ((sized d files size).insertionSort (· ≤ ·)) :=
  List.filter_sublist.trans (oneName_sublist _)

theorem mem_bucket_sized {p : Str} (hp : p ∈ bucket d files size mark) : p ∈ sized d files size :=
  (List.mem_insertionSort _).mp (bucket_sublist.subset hp)

theorem bucket_apart : (bucket d files size mark).Pairwise (Apart d) :=
  (oneName_apart _).sublist List.filter_sublist

theorem bucket_nodup (hnodup : (files.map Candidate.path).Nodup) :
    (bucket d files size mark).Nodup :=
  ((List.perm_insertionSort _ _).nodup_iff.mpr (sized_nodup hnodup)).sublist bucket_sublist

theorem mem_buckets_sized {b : List Str} : b ∈ buckets d h (size, sized d files size) ↔
    ∃ mark, b ≠ [] ∧ b = bucket d files size mark := mem_buckets

theorem Arises.of_shares {e : UInt64 × List Str} (he : e ∈ pending d h files minSize)
    {ps : List Part} (hps : Shares d h e ps) : ∀ p ∈ ps, Arises d files minSize p := by
  obtain ⟨size, paths⟩ := e
  obtain ⟨hle, hpaths, hlen⟩ := (mem_pending _).mp he
  obtain rfl : paths = sized d files size := hpaths
  rcases hps with rfl | hps
  · intro p hp
    rw [List.mem_singleton.mp hp]
    exact .unread hle
  · intro p hp
    obtain ⟨b, hb, hpart⟩ := Search.forall₂_mem_right hps hp
    obtain ⟨hb, -⟩ := List.mem_filter.mp hb
    obtain ⟨mark, -, rfl⟩ := mem_buckets_sized.mp hb
    obtain ⟨hlen, hsame, hclassed⟩ := hpart
    exact .parted hle hlen hsame hclassed

/-- Files that may be the same are in one part. -/
theorem Shares.reaches (hlen : 1 < (bucket d files size mark).length)
    {ps : List Part} (hps : Shares d h (size, sized d files size) ps) :
    .unread size ((sized d files size).insertionSort (· ≤ ·)) ∈ ps ∨
      ∃ classes done left, .parted size classes done left ∈ ps ∧
        bucket d files size mark = done ++ left ∧ Classed (identical d) done classes := by
  rcases hps with rfl | hps
  · exact Or.inl List.mem_cons_self
  · have hmem : bucket d files size mark ∈ buckets d h (size, sized d files size) :=
      mem_buckets_sized.mpr ⟨mark, List.ne_nil_of_length_pos (by omega), rfl⟩
    obtain ⟨p, hp, hpart⟩ := Search.forall₂_mem_left hps
      (List.mem_filter.mpr ⟨hmem, decide_eq_true hlen⟩)
    cases hpart with
    | mk _ hsame hclassed => exact Or.inr ⟨_, _, _, hp, hsame, hclassed⟩

theorem buckets_apart (e : UInt64 × List Str) : (buckets d h e).Pairwise
    fun a b => ∀ p ∈ a, ∀ q ∈ b, Apart d p q := by
  have hsub : ((oneName d (e.2.insertionSort (· ≤ ·))).filterMap (marked d e.1)).map (·.2)
      |>.Sublist (oneName d (e.2.insertionSort (· ≤ ·))) := by
    generalize oneName d (e.2.insertionSort (· ≤ ·)) = l
    induction l with
    | nil => exact List.Sublist.refl _
    | cons p l ih =>
      rw [List.filterMap_cons]
      unfold marked
      cases edges d p e.1 with
      | none => exact ih.cons _
      | some x => exact ih.cons_cons _
  have hall : ((buckets d h e).flatten).Pairwise (Apart d) := by
    refine List.Perm.pairwise ?_ ((oneName_apart _).sublist hsub) Apart.symm
    unfold buckets
    rw [← List.flatMap_def]
    exact ((Search.entries_perm _).symm.trans ((h.perm _).symm.flatMap_right _))
  exact (List.pairwise_flatten.mp hall).2

theorem Arises.names_sized {part : Part} (ha : Arises d files minSize part) {p : Str}
    (hp : p ∈ part.names) : p ∈ sized d files part.size := by
  cases ha with
  | unread hle => exact (List.mem_insertionSort _).mp hp
  | @parted size mark _ _ _ _ _ hsame _ =>
    have hmem : p ∈ bucket d files size mark := by
      rw [hsame]
      exact hp
    exact mem_bucket_sized hmem

theorem Shares.size_eq {e : UInt64 × List Str} {ps : List Part} (hps : Shares d h e ps)
    {part : Part} (hpart : part ∈ ps) : part.size = e.1 := by
  rcases hps with rfl | hps
  · rw [List.mem_singleton.mp hpart]
    rfl
  · obtain ⟨_, -, hp⟩ := Search.forall₂_mem_right hps hpart
    cases hp
    rfl

/-- Candidates of different sizes are different files. -/
theorem sized_apart (hsizes : TrueSizes d files) {size' : UInt64} (hne : size ≠ size') {p q : Str}
    (hp : p ∈ sized d files size) (hq : q ∈ sized d files size') : Apart d p q := by
  intro id hidp hidq
  obtain ⟨c, hc, rfl, rfl⟩ := mem_sized hp
  obtain ⟨c', hc', rfl, rfl⟩ := mem_sized hq
  obtain ⟨f, hf, rfl⟩ := Option.map_eq_some_iff.mp hidp
  have hf' := Disk.file_of_identity hf hidq
  exact hne (UInt64.toNat_inj.mp ((hsizes c hc f hf).trans (hsizes c' hc' f hf').symm))

/-- Different parts are about different files. -/
theorem parts_apart (hsizes : TrueSizes d files) {pss : List (List Part)}
    (hshares : List.Forall₂ (Shares d h) (pending d h files minSize) pss) :
    pss.flatten.Pairwise (Foreign d) := by
  rw [List.pairwise_flatten]
  constructor
  · intro ps hps
    obtain ⟨e, -, hps⟩ := Search.forall₂_mem_right hshares hps
    rcases hps with rfl | hps
    · exact List.pairwise_singleton _ _
    · refine Search.forall₂_pairwise hps ((buckets_apart e).sublist List.filter_sublist) ?_
      rintro a b _ _ ⟨-, rfl, -⟩ ⟨-, rfl, -⟩ hab
      exact hab
  · have hnodup : (pending d h files minSize).Pairwise fun e e' => e.1 ≠ e'.1 :=
      List.pairwise_map.mp pending_nodup
    refine Search.forall₂_pairwise hshares (List.Pairwise.and_mem.mp hnodup) ?_
    intro e e' ps ps' hps hps' ⟨he, he', hne⟩ x hx y hy p hp q hq
    have hp := (Arises.of_shares he hps x hx).names_sized hp
    have hq := (Arises.of_shares he' hps' y hy).names_sized hq
    rw [hps.size_eq hx] at hp
    rw [hps'.size_eq hy] at hq
    exact sized_apart hsizes hne hp hq

end

/-! ## Files with the same bytes -/

/-- Some path of a file is a candidate. -/
def Named (d : Disk) (files : List Candidate) (minSize : UInt64) (f : File) : Prop :=
  ∃ c ∈ files, minSize ≤ c.size ∧ d.file c.path = some f

/-- Different candidates that can be read and have the same bytes. -/
structure Twins (d : Disk) (files : List Candidate) (minSize : UInt64) (f g : File) : Prop where
  left : Named d files minSize f
  right : Named d files minSize g
  different : f.identity ≠ g.identity
  leftWhole : f.Whole
  rightWhole : g.Whole
  same : f.bytes = g.bytes

/-- A group has a path of the file. -/
def Group.Holds (d : Disk) (g : Group) (f : File) : Prop := ∃ p ∈ g.paths, d.file p = some f

/-- In every pair of twins, the two are in one group. -/
def Together (d : Disk) (files : List Candidate) (minSize : UInt64) (gs : List Group) : Prop :=
  ∀ f g, Twins d files minSize f g → ∃ grp ∈ gs, grp.Holds d f ∧ grp.Holds d g

/-- The budget, or a file that cannot be told from others, comes between two with the same bytes. -/
def Part.Loses (d : Disk) : Part → Prop
  | .unread _ _ => False
  | .parted _ _ done left => ¬ Clear (identical d) (Sure d) (bytesOf d) done ∨
      ∃ p ∈ done, ∃ q ∈ left, Sure d p ∧ Sure d q ∧ bytesOf d p = bytesOf d q

section
variable {d : Disk} {h : Hasher} {files : List Candidate} {minSize size mark : UInt64}

theorem bytesOf_eq {p : Str} {f : File} (hf : d.file p = some f) : bytesOf d p = some f.bytes := by
  unfold bytesOf
  rw [hf]
  rfl

/-- Twins stand in one bucket. -/
theorem Twins.bucket (hsizes : TrueSizes d files) {f g : File} (ht : Twins d files minSize f g) :
    ∃ size mark, minSize ≤ size ∧ ∃ p ∈ bucket d files size mark, ∃ q ∈ bucket d files size mark,
      d.file p = some f ∧ d.file q = some g := by
  obtain ⟨c, hc, hle, hf⟩ := ht.left
  obtain ⟨c', hc', -, hg⟩ := ht.right
  have hsize : c.size = c'.size := by
    refine UInt64.toNat_inj.mp ?_
    rw [hsizes c hc f hf, hsizes c' hc' g hg, ht.same]
  obtain ⟨p, hp, hpf⟩ := sized_covers hc hf
  obtain ⟨q, hq, hqg⟩ := sized_covers hc' hg
  rw [← hsize] at hq
  obtain ⟨p, hp, hpf⟩ := oneName_covers
    ((List.mem_insertionSort (r := (· ≤ ·))).mpr hp) hpf
  obtain ⟨q, hq, hqg⟩ := oneName_covers
    ((List.mem_insertionSort (r := (· ≤ ·))).mpr hq) hqg
  have hbytes : bytesOf d p = bytesOf d q := by rw [bytesOf_eq hpf, bytesOf_eq hqg, ht.same]
  obtain ⟨hedges, hsome⟩ := edges_congr ⟨f, hpf, ht.leftWhole⟩ ⟨g, hqg, ht.rightWhole⟩ hbytes
    (fun x hx => Option.some.inj (hpf.symm.trans hx) ▸ hsizes c hc f hf)
  obtain ⟨e, he⟩ := Option.isSome_iff_exists.mp hsome
  refine ⟨c.size, e.1, hle, p, List.mem_filter.mpr ⟨hp, decide_eq_true ?_⟩, q,
    List.mem_filter.mpr ⟨hq, decide_eq_true ?_⟩, hpf, hqg⟩
  · rw [he]
    rfl
  · rw [← hedges, he]
    rfl

/-- Two paths of a bucket are twins where they can be read and have the same bytes. -/
theorem twins_of_bucket (hle : minSize ≤ size) {p q : Str} (hp : p ∈ bucket d files size mark)
    (hq : q ∈ bucket d files size mark) (hne : p ≠ q) (hsp : Sure d p) (hsq : Sure d q)
    (hbytes : bytesOf d p = bytesOf d q) :
    ∃ f g, d.file p = some f ∧ d.file q = some g ∧ Twins d files minSize f g := by
  obtain ⟨f, hf, hwf⟩ := hsp
  obtain ⟨g, hg, hwg⟩ := hsq
  rw [bytesOf_eq hf, bytesOf_eq hg] at hbytes
  have hnamed {r : Str} {x : File} (hr : r ∈ bucket d files size mark) (hx : d.file r = some x) :
      Named d files minSize x := by
    obtain ⟨c, hc, rfl, rfl⟩ := mem_sized (mem_bucket_sized hr)
    exact ⟨c, hc, hle, hx⟩
  have hapart : Apart d p q := bucket_apart.forall hp hq hne
  refine ⟨f, g, hf, hg, hnamed hp hf, hnamed hq hg, fun hid => ?_, hwf, hwg,
    Option.some.inj hbytes⟩
  exact hapart _ (Disk.identity_eq hf) (hid ▸ Disk.identity_eq hg)

/-- The groups of a part are of its paths. -/
theorem Arises.groups_names {part : Part} (ha : Arises d files minSize part) {grp : Group}
    (hgrp : grp ∈ part.groups) : grp.paths ⊆ part.names := by
  cases ha with
  | unread _ =>
    rw [List.mem_singleton.mp hgrp]
    exact List.Subset.refl _
  | parted _ _ _ hclassed =>
    rcases List.mem_append.mp hgrp with hgrp | hgrp
    · obtain ⟨c, hc, rfl⟩ := List.mem_map.mp hgrp
      have hc := (List.mem_filter.mp hc).1
      intro p hp
      exact List.mem_append_left _ (hclassed.members.subset (List.mem_flatMap.mpr ⟨c, hc, hp⟩))
    · split at hgrp
      · rw [List.mem_singleton.mp hgrp]
        exact List.subset_append_right _ _
      · cases hgrp

/-- Two paths in a group of a part that was read: in one class, or both left. -/
theorem mem_group_parted {classes : List (Class Str)} {done left : List Str} {grp : Group}
    (hgrp : grp ∈ (Part.parted size classes done left).groups) :
    (∃ c ∈ classes, grp.paths = c.members ∧ 1 < c.members.length ∧
      grp = ⟨size, c.members, .content⟩) ∨ grp = ⟨size, left, .edges⟩ ∧ 1 < left.length := by
  rcases List.mem_append.mp hgrp with hgrp | hgrp
  · obtain ⟨c, hc, rfl⟩ := List.mem_map.mp hgrp
    obtain ⟨hc, hlen⟩ := List.mem_filter.mp hc
    exact Or.inl ⟨c, hc, rfl, of_decide_eq_true hlen, rfl⟩
  · split at hgrp
    · rename_i hlen
      exact Or.inr ⟨List.mem_singleton.mp hgrp, hlen⟩
    · cases hgrp

/-- A list has two members that differ. -/
theorem one_lt_length {l : List Str} {p q : Str} (hp : p ∈ l) (hq : q ∈ l) (hne : p ≠ q) :
    1 < l.length := by
  match l, hp, hq with
  | [x], hp, hq =>
    exact absurd ((List.mem_singleton.mp hp).trans (List.mem_singleton.mp hq).symm) hne
  | _ :: _ :: _, _, _ => exact Nat.succ_lt_succ (Nat.succ_pos _)

/-- What the parts of a run are. -/
structure Apportioned (d : Disk) (files : List Candidate) (minSize : UInt64) (parts : List Part) :
    Prop where
  arises : ∀ part ∈ parts, Arises d files minSize part
  foreign : parts.Pairwise (Foreign d)
  reaches : ∀ size mark, minSize ≤ size → 1 < (bucket d files size mark).length →
    .unread size ((sized d files size).insertionSort (· ≤ ·)) ∈ parts ∨
      ∃ classes done left, .parted size classes done left ∈ parts ∧
        bucket d files size mark = done ++ left ∧ Classed (identical d) done classes

theorem apportioned (hsizes : TrueSizes d files) {pss : List (List Part)}
    (hshares : List.Forall₂ (Shares d h) (pending d h files minSize) pss) :
    Apportioned d files minSize pss.flatten where
  arises part hpart := by
    obtain ⟨ps, hps, hpart⟩ := List.mem_flatten.mp hpart
    obtain ⟨e, he, hps⟩ := Search.forall₂_mem_right hshares hps
    exact Arises.of_shares he hps part hpart
  foreign := parts_apart hsizes hshares
  reaches size mark hle hlen := by
    have hlong : 1 < (sized d files size).length := by
      have hsub : (bucket d files size mark).Sublist _ := bucket_sublist
      have hle := hsub.length_le
      rw [List.length_insertionSort] at hle
      omega
    obtain ⟨ps, hps, hshare⟩ := Search.forall₂_mem_left hshares
      ((mem_pending (size, sized d files size)).mpr ⟨hle, rfl, hlong⟩)
    rcases hshare.reaches hlen with hun | ⟨classes, done, left, hpart, hsame, hclassed⟩
    · exact Or.inl (List.mem_flatten.mpr ⟨ps, hps, hun⟩)
    · exact Or.inr ⟨classes, done, left, List.mem_flatten.mpr ⟨ps, hps, hpart⟩, hsame, hclassed⟩

section
variable {parts : List Part} (hparts : Apportioned d files minSize parts)
include hparts

/-- A file is in one part only. -/
theorem Apportioned.unique {a b : Part} (ha : a ∈ parts) (hb : b ∈ parts) {p q : Str}
    (hp : p ∈ a.names) (hq : q ∈ b.names) {f : File} (hpf : d.file p = some f)
    (hqf : d.file q = some f) : a = b := by
  by_contra hne
  exact hparts.foreign.forall ha hb hne p hp q hq _ (Disk.identity_eq hpf) (Disk.identity_eq hqf)

/-- Where a pair is lost, no group of its part has both. -/
theorem Apportioned.lost (hnodup : (files.map Candidate.path).Nodup)
    {classes : List (Class Str)} {done left : List Str}
    (hpart : .parted size classes done left ∈ parts)
    (hloses : (Part.parted size classes done left).Loses d) :
    ∃ mark, minSize ≤ size ∧ bucket d files size mark = done ++ left ∧
      ∃ p ∈ done ++ left, ∃ q ∈ done ++ left, p ≠ q ∧ Sure d p ∧ Sure d q ∧
        bytesOf d p = bytesOf d q ∧
        ∀ grp ∈ (Part.parted size classes done left).groups, p ∈ grp.paths → q ∉ grp.paths := by
  cases hparts.arises _ hpart with
  | @parted _ mark _ _ _ hle _ hsame hclassed =>
    refine ⟨mark, hle, hsame, ?_⟩
    have hbucket : (done ++ left).Nodup := hsame ▸ bucket_nodup hnodup
    obtain ⟨hdone, -, hdisj⟩ := List.nodup_append.mp hbucket
    have hinside {c : Class Str} (hc : c ∈ classes) {x : Str} (hx : x ∈ c.members) : x ∈ done :=
      hclassed.members.subset (List.mem_flatMap.mpr ⟨c, hc, hx⟩)
    rcases hloses with hclear | ⟨p, hp, q, hq, hsp, hsq, hbytes⟩
    · have hparted := mt (Search.together_iff (tells d) hclassed hdone).mp hclear
      push Not at hparted
      obtain ⟨p, hp, q, hq, hne, hsp, hsq, hbytes, hno⟩ := hparted
      refine ⟨p, List.mem_append_left _ hp, q, List.mem_append_left _ hq, hne, hsp, hsq, hbytes, ?_⟩
      intro grp hgrp hpg hqg
      rcases mem_group_parted hgrp with ⟨c, hc, hpaths, -⟩ | ⟨rfl, -⟩
      · rw [hpaths] at hpg hqg
        exact hno c hc hpg hqg
      · exact hdisj p hp p hpg rfl
    · have hne : p ≠ q := hdisj p hp q hq
      refine ⟨p, List.mem_append_left _ hp, q, List.mem_append_right _ hq, hne, hsp, hsq, hbytes,
        ?_⟩
      intro grp hgrp hpg hqg
      rcases mem_group_parted hgrp with ⟨c, hc, hpaths, -⟩ | ⟨rfl, -⟩
      · rw [hpaths] at hqg
        exact hdisj q (hinside hc hqg) q hq rfl
      · exact hdisj p hp p hpg rfl

/-- **Twins are together exactly where no part loses two files.** -/
theorem Apportioned.together_iff (hnodup : (files.map Candidate.path).Nodup)
    (hsizes : TrueSizes d files) :
    Together d files minSize (parts.flatMap Part.groups) ↔ ∀ part ∈ parts, ¬ part.Loses d := by
  constructor
  · intro htogether part hpart hloses
    cases part with
    | unread _ _ => exact hloses
    | parted size classes done left =>
      obtain ⟨mark, hle, hsame, p, hp, q, hq, hne, hsp, hsq, hbytes, hno⟩ :=
        hparts.lost hnodup hpart hloses
      rw [← hsame] at hp hq
      obtain ⟨f, g, hf, hg, htwins⟩ := twins_of_bucket hle hp hq hne hsp hsq hbytes
      obtain ⟨grp, hgrp, ⟨p', hp', hpf⟩, ⟨q', hq', hqg⟩⟩ := htogether f g htwins
      obtain ⟨part', hpart', hgrp⟩ := List.mem_flatMap.mp hgrp
      have hsub := (hparts.arises _ hpart').groups_names hgrp
      obtain rfl : .parted size classes done left = part' :=
        hparts.unique hpart hpart' (show p ∈ done ++ left from hsame ▸ hp) (hsub hp') hf hpf
      -- a file has one name in a bucket
      have hname {x y : Str} {k : File} (hx : x ∈ bucket d files size mark)
          (hy : y ∈ done ++ left) (hxk : d.file x = some k) (hyk : d.file y = some k) : x = y := by
        by_contra hxy
        rw [← hsame] at hy
        exact bucket_apart.forall hx hy hxy _ (Disk.identity_eq hxk) (Disk.identity_eq hyk)
      obtain rfl := hname hp (hsub hp') hf hpf
      obtain rfl := hname hq (hsub hq') hg hqg
      exact hno grp hgrp hp' hq'
  · intro hkeeps f g htwins
    obtain ⟨size, mark, hle, p, hp, q, hq, hf, hg⟩ := htwins.bucket hsizes
    have hne : p ≠ q := by
      rintro rfl
      exact htwins.different (congrArg File.identity (Option.some.inj (hf.symm.trans hg)))
    have hbytes : bytesOf d p = bytesOf d q := by
      rw [bytesOf_eq hf, bytesOf_eq hg, htwins.same]
    have hsp : Sure d p := ⟨f, hf, htwins.leftWhole⟩
    have hsq : Sure d q := ⟨g, hg, htwins.rightWhole⟩
    have hgroup {part : Part} (hpart : part ∈ parts) (grp : Group) (hgrp : grp ∈ part.groups)
        (hpg : p ∈ grp.paths) (hqg : q ∈ grp.paths) :
        ∃ grp ∈ parts.flatMap Part.groups, grp.Holds d f ∧ grp.Holds d g :=
      ⟨grp, List.mem_flatMap.mpr ⟨part, hpart, hgrp⟩, ⟨p, hpg, hf⟩, ⟨q, hqg, hg⟩⟩
    rcases hparts.reaches size mark hle (one_lt_length hp hq hne) with
      hpart | ⟨classes, done, left, hpart, hsame, hclassed⟩
    · exact hgroup hpart _ List.mem_cons_self (bucket_sublist.subset hp) (bucket_sublist.subset hq)
    · have hkeep := hkeeps _ hpart
      unfold Part.Loses at hkeep
      rw [not_or, not_not] at hkeep
      have hbucket : (done ++ left).Nodup := hsame ▸ bucket_nodup hnodup
      obtain ⟨hdone, -, -⟩ := List.nodup_append.mp hbucket
      rw [hsame] at hp hq
      rcases List.mem_append.mp hp with hp | hp <;> rcases List.mem_append.mp hq with hq | hq
      · obtain ⟨c, hc, hpc, hqc⟩ := (Search.together_iff (tells d) hclassed hdone).mpr hkeep.1
          p hp q hq hne hsp hsq hbytes
        refine hgroup hpart ⟨size, c.members, .content⟩ ?_ hpc hqc
        refine List.mem_append_left _ (List.mem_map.mpr ⟨c, List.mem_filter.mpr ⟨hc, ?_⟩, rfl⟩)
        exact decide_eq_true (one_lt_length hpc hqc hne)
      · exact absurd ⟨p, hp, q, hq, hsp, hsq, hbytes⟩ hkeep.2
      · exact absurd ⟨q, hq, p, hp, hsq, hsp, hbytes.symm⟩ hkeep.2
      · refine hgroup hpart ⟨size, left, .edges⟩ ?_ hp hq
        refine List.mem_append_right _ ?_
        rw [if_pos (one_lt_length hp hq hne)]
        exact List.mem_cons_self

end

end

end Scour.Dupes
