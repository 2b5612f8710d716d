import Scour.DirStory

/-!
# A disk of directories that grows

`DirDisk` is the directories of a machine, in the order they were made: each has a key and is in
another, by a name.  `stat` finds a directory by its path, and `grow` makes one more.  The disk as a
tree is `hung`, and where a directory is there, a `stat` of its path finds it (`stat_of_at`).

`Kernel` is what the kernel says of filesystems: the tag of a device, and the tag of an event on it.
-/

namespace Scour

open Search

structure Made where
  key : DirKey
  parent : DirKey
  name : Text
deriving DecidableEq

/-- Every directory there is, the topmost apart in the order they were made. -/
structure DirDisk where
  top : DirKey
  made : List Made
deriving DecidableEq

/-- The tag of a device's filesystem, and of the events on it. -/
structure Kernel where
  tag : Nat → FsTag
  event : Nat → FsTag
  told : ∀ d e, (tag d).holds (event e) = true ↔ d = e

/-- `a` is at or above `k`. -/
inductive Hung.Under (x : Hung) (a : DirKey) : DirKey → Prop where
  | self : x.Under a a
  | step {k p : DirKey} {n : Text} : x.Under a p → x.up k = some (p, n) → x.Under a k

namespace DirDisk

def child (x : DirDisk) (p : DirKey) (n : Text) : Option DirKey :=
  (x.made.find? fun e => e.parent == p && e.name == n).map Made.key

def up (x : DirDisk) (k : DirKey) : Option (DirKey × Text) :=
  (x.made.find? (·.key == k)).map fun e => (e.parent, e.name)

/-- The directory at a path. -/
def stat (x : DirDisk) (path : Text) : Option DirKey :=
  ((split '/' path).filter (!·.isEmpty)).foldlM x.child x.top

def grow (x : DirDisk) (e : Made) : DirDisk := { x with made := x.made ++ [e] }

/-- The tag of the filesystem a path is on. -/
def tagOf (x : DirDisk) (K : Kernel) (path : Text) : Option FsTag :=
  (x.stat path).map fun k => K.tag k.dev

def hung (x : DirDisk) : Hung := ⟨x.top, ['/'], x.up⟩

/-- This directory is there, at this path. -/
def At (x : DirDisk) (k : DirKey) (path : Text) : Prop := ∃ d, x.hung.At k path d

/-- A directory can be made there: its key is new, and the name is free. -/
structure Free (x : DirDisk) (e : Made) : Prop where
  parent : ∃ path, x.At e.parent path
  key : e.key ≠ x.top ∧ ∀ f ∈ x.made, f.key ≠ e.key
  name : IsDirName e.name ∧ e.name ≠ ['.']
  apart : ∀ f ∈ x.made, ¬ (f.parent = e.parent ∧ f.name = e.name)

/-- Made one after another. -/
inductive Ok : DirDisk → Prop where
  | top (k : DirKey) : Ok ⟨k, []⟩
  | grow {x : DirDisk} {e : Made} : Ok x → x.Free e → Ok (x.grow e)

variable {x : DirDisk} {e : Made} {k p : DirKey} {n path : Text}

theorem mem_grow {f : Made} : f ∈ (x.grow e).made ↔ f ∈ x.made ∨ f = e := by
  unfold grow
  rw [List.mem_append, List.mem_singleton]

theorem Ok.ne_top (h : x.Ok) : ∀ e ∈ x.made, e.key ≠ x.top := by
  induction h with
  | top => exact fun e he => by cases he
  | grow hx hfree ih =>
    intro f hf
    rcases mem_grow.mp hf with hf | rfl
    · exact ih f hf
    · exact hfree.key.1

/-- A key is of one directory, and so is a name in a directory. -/
theorem Ok.only (h : x.Ok) : ∀ e ∈ x.made, ∀ f ∈ x.made,
    e.key = f.key ∨ (e.parent = f.parent ∧ e.name = f.name) → e = f := by
  induction h with
  | top => exact fun e he => by cases he
  | grow hx hfree ih =>
    intro f hf g hg hfg
    rcases mem_grow.mp hf with hf' | rfl
    · rcases mem_grow.mp hg with hg' | rfl
      · exact ih f hf' g hg' hfg
      · rcases hfg with hkey | hname
        · exact absurd hkey (hfree.key.2 f hf')
        · exact absurd hname (hfree.apart f hf')
    · rcases mem_grow.mp hg with hg' | rfl
      · rcases hfg with hkey | ⟨hparent, hname⟩
        · exact absurd hkey.symm (hfree.key.2 g hg')
        · exact absurd ⟨hparent.symm, hname.symm⟩ (hfree.apart g hg')
      · rfl

theorem Ok.named (h : x.Ok) : ∀ e ∈ x.made, IsDirName e.name ∧ e.name ≠ ['.'] := by
  induction h with
  | top => exact fun e he => by cases he
  | grow hx hfree ih =>
    intro f hf
    rcases mem_grow.mp hf with hf | rfl
    · exact ih f hf
    · exact hfree.name

/-- The one that a test finds, where no two pass it. -/
theorem find?_eq_of_mem {α : Type} {l : List α} {t : α → Bool} {a : α} (ha : a ∈ l)
    (ht : t a = true) (honly : ∀ b ∈ l, t b = true → b = a) : l.find? t = some a := by
  cases hfind : l.find? t with
  | none => exact absurd ht (List.find?_eq_none.mp hfind a ha)
  | some b =>
    rw [honly b (List.mem_of_find?_eq_some hfind) (List.find?_some hfind)]

theorem Ok.up_eq (h : x.Ok) : x.up k = some (p, n) ↔ (⟨k, p, n⟩ : Made) ∈ x.made := by
  unfold up
  constructor
  · intro hup
    obtain ⟨e, he, hpn⟩ := Option.map_eq_some_iff.mp hup
    obtain ⟨rfl, rfl⟩ := Prod.mk.inj hpn
    obtain rfl : e.key = k := by simpa using List.find?_some he
    exact List.mem_of_find?_eq_some he
  · intro hmem
    rw [find?_eq_of_mem hmem (beq_self_eq_true k), Option.map_some]
    intro f hf hkey
    exact h.only f hf _ hmem (Or.inl (eq_of_beq hkey))

theorem Ok.child_eq (h : x.Ok) : x.child p n = some k ↔ (⟨k, p, n⟩ : Made) ∈ x.made := by
  unfold child
  constructor
  · intro hchild
    obtain ⟨e, he, rfl⟩ := Option.map_eq_some_iff.mp hchild
    obtain ⟨rfl, rfl⟩ : e.parent = p ∧ e.name = n := by simpa using List.find?_some he
    exact List.mem_of_find?_eq_some he
  · intro hmem
    rw [find?_eq_of_mem hmem (by simp), Option.map_some]
    intro f hf hboth
    obtain ⟨hparent, hname⟩ := Bool.and_eq_true_iff.mp hboth
    exact h.only f hf _ hmem (Or.inr ⟨eq_of_beq hparent, eq_of_beq hname⟩)

theorem Ok.hung (h : x.Ok) : x.hung.Ok where
  abs := ⟨rfl, List.IsChain.singleton _, Or.inl rfl⟩
  topmost := by
    cases hup : x.up x.top with
    | none => exact hup
    | some pn => exact absurd rfl (h.ne_top _ (h.up_eq.mp hup))
  names := fun k p n hup => (h.named _ (h.up_eq.mp hup)).1

theorem up_grow (hfree : x.Free e) :
    (x.grow e).up k = if k = e.key then some (e.parent, e.name) else x.up k := by
  unfold grow up
  dsimp only
  rw [List.find?_append]
  split
  · rename_i hk
    rw [hk, List.find?_eq_none.mpr fun f hf => by simpa using hfree.key.2 f hf, Option.none_or,
      List.find?_singleton, if_pos (beq_self_eq_true e.key)]
    rfl
  · rename_i hk
    rw [List.find?_singleton, if_neg (by simpa using Ne.symm hk), Option.or_none]

theorem up_of_free (hfree : x.Free e) : x.up e.key = none := by
  unfold up
  rw [List.find?_eq_none.mpr fun f hf => by simpa using hfree.key.2 f hf, Option.map_none]

theorem up_grow_of (hfree : x.Free e) (hup : x.up k = some (p, n)) :
    (x.grow e).up k = some (p, n) := by
  rw [up_grow hfree, if_neg, hup]
  rintro rfl
  rw [up_of_free hfree] at hup
  cases hup

/-- What is there stays there. -/
theorem grow_hung_at (hfree : x.Free e) {d : Nat} (h : x.hung.At k path d) :
    (x.grow e).hung.At k path d := by
  induction h with
  | top => exact Hung.At.top (x := (x.grow e).hung)
  | step hp hup ih => exact .step ih (up_grow_of hfree hup)

theorem At.grow (hfree : x.Free e) (h : x.At k path) : (x.grow e).At k path := by
  obtain ⟨d, h⟩ := h
  exact ⟨d, grow_hung_at hfree h⟩

theorem At.ne_free (hfree : x.Free e) (h : x.At k path) : k ≠ e.key := by
  rintro rfl
  obtain ⟨d, h⟩ := h
  rcases h.up_isSome with htop | ⟨p, n, hup⟩
  · exact hfree.key.1 htop
  · cases (up_of_free hfree).symm.trans hup

theorem under_grow (hfree : x.Free e) {a : DirKey} (h : x.hung.Under a k) :
    (x.grow e).hung.Under a k := by
  induction h with
  | self => exact .self
  | step _ hup ih => exact .step ih (up_grow_of hfree hup)

/-- What is there is still under the same directories. -/
theorem under_of_grow (hx : x.Ok) (hfree : x.Free e) {a : DirKey} (h : (x.grow e).hung.Under a k) :
    ∀ {path : Text}, x.At k path → x.hung.Under a k := by
  induction h with
  | self => exact fun _ => .self
  | step _ hup ih =>
    intro path hat
    have hup' : (x.grow e).up _ = _ := hup
    rw [up_grow hfree, if_neg (hat.ne_free hfree)] at hup'
    obtain ⟨d, hat⟩ := hat
    cases hat with
    | top => cases hx.hung.topmost.symm.trans hup'
    | step hp hup₀ =>
      cases (show x.up _ = _ from hup₀).symm.trans hup'
      exact .step (ih ⟨_, hp⟩) hup'

/-! ## Paths -/

theorem At.child (h : x.At p path) (hx : x.Ok) (hmem : (⟨k, p, n⟩ : Made) ∈ x.made) :
    x.At k (joinText path n) := by
  obtain ⟨d, h⟩ := h
  exact ⟨d + 1, .step h (hx.up_eq.mpr hmem)⟩

/-- A directory there is the topmost, or was made in another. -/
theorem At.cases (h : x.At k path) (hx : x.Ok) : (k = x.top ∧ path = ['/']) ∨
    ∃ p ppath n, x.At p ppath ∧ (⟨k, p, n⟩ : Made) ∈ x.made ∧ path = joinText ppath n := by
  obtain ⟨d, h⟩ := h
  cases h with
  | top => exact Or.inl ⟨rfl, rfl⟩
  | step hp hup => exact Or.inr ⟨_, _, _, ⟨_, hp⟩, hx.up_eq.mp hup, rfl⟩

theorem At.unique (h : x.At k path) (hx : x.Ok) {path' : Text} (h' : x.At k path') :
    path' = path := by
  obtain ⟨d, h⟩ := h
  obtain ⟨d', h'⟩ := h'
  exact (h.unique hx.hung h').1

/-- A `stat` of its path finds a directory. -/
theorem stat_of_at (hx : x.Ok) (h : x.At k path) : x.stat path = some k := by
  obtain ⟨d, h⟩ := h
  induction h with
  | top => rfl
  | step hp hup ih =>
    have hmem := hx.up_eq.mp hup
    have hname := (hx.named _ hmem).1
    unfold stat at ih ⊢
    rw [names_join hname, List.foldlM_append, ih]
    show (x.child _ _).bind some = some _
    rw [hx.child_eq.mpr hmem]
    rfl

theorem At.isAbs (h : x.At k path) (hx : x.Ok) : IsAbs path := by
  obtain ⟨d, h⟩ := h
  exact h.isAbs hx.hung

/-- Every directory that was made is in one that is there. -/
theorem Ok.at_of_mem (hx : x.Ok) : ∀ e ∈ x.made, ∃ path, x.At e.parent path := by
  induction hx with
  | top => exact fun e he => by cases he
  | grow hx hfree ih =>
    intro f hf
    rcases mem_grow.mp hf with hf | rfl
    · obtain ⟨path, hat⟩ := ih f hf
      exact ⟨path, hat.grow hfree⟩
    · obtain ⟨path, hat⟩ := hfree.parent
      exact ⟨path, hat.grow hfree⟩

/-- Below a directory is below one that is in it. -/
theorem under_cases {y : Hung} {a : DirKey} (h : y.Under a k) :
    k = a ∨ ∃ c n, y.up c = some (a, n) ∧ y.Under c k := by
  induction h with
  | self => exact Or.inl rfl
  | step hp hup ih =>
    right
    rcases ih with rfl | ⟨c, n, hc, hunder⟩
    · exact ⟨_, _, hup, .self⟩
    · exact ⟨c, n, hc, .step hunder hup⟩

/-- The key and the parent's key of what is at a path, as a `stat` of each finds them. -/
def callAt (x : DirDisk) (k : DirKey) (path : Text) : InsertCall :=
  ⟨k, (splitName path).bind fun at_ => x.stat at_.1, path⟩

theorem callAt_given (hx : x.Ok) (h : x.At k path) :
    DirMap.Given x.hung k (x.callAt k path).parent path := by
  unfold callAt
  rcases h.cases hx with ⟨rfl, rfl⟩ | ⟨p, ppath, n, hp, hmem, rfl⟩
  · exact Or.inl ⟨hx.hung.topmost, Or.inr rfl⟩
  · refine Or.inr ⟨p, n, hx.up_eq.mpr hmem, ?_⟩
    dsimp only
    rw [splitName_join (hp.isAbs hx) (hx.named _ hmem).1, Option.bind_some, stat_of_at hx hp]

theorem tagOf_told (hx : x.Ok) (K : Kernel) (h : x.At k path) :
    ∃ mine, x.tagOf K path = some mine ∧ ∀ dev, mine.holds (K.event dev) = true ↔ dev = k.dev := by
  refine ⟨K.tag k.dev, ?_, fun dev => ?_⟩
  · unfold tagOf
    rw [stat_of_at hx h, Option.map_some]
  · rw [K.told]
    exact eq_comm

end DirDisk

end Scour
