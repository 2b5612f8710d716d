import Scour.DirNames

/-!
# The directory map through inserts and moves

A `DirTree` is a tree of directories under a root, whose parent may be known or not.  A `Story`
inserts every directory once, in any order, and then moves some, each move followed by an insert of
the directory that moved.  After every insert the map names each directory it was told of by the
path it has now, and no other (`story_named`).

What the map cannot hold panics: a name longer than 65,535 bytes (`not_story_named`), more names
than fit into 65,536 chunks, and more nodes than 32 bits can number.  These are the terms of
`Roomy`.  A directory in an event is an inode and the tag of a filesystem, so the tags have to tell
the devices apart (`Told`).
-/

namespace Scour

open Search

/-- A tree of directories under a root, whose parent may be known. -/
structure DirTree where
  root : DirKey
  outer : Option DirKey
  rootPath : Text
  /-- What a directory is in, and its name there. -/
  up : DirKey → Option (DirKey × Text)

namespace DirTree

/-- This directory is in the tree, at this path. -/
inductive At (t : DirTree) : DirKey → Text → Prop where
  | root : t.At t.root t.rootPath
  | step {k p : DirKey} {n path : Text} : t.At p path → t.up k = some (p, n) →
      t.At k (joinText path n)

def Has (t : DirTree) (k : DirKey) : Prop := ∃ path, t.At k path

structure Ok (t : DirTree) : Prop where
  abs : IsAbs t.rootPath
  topmost : t.up t.root = none
  names : ∀ k p n, t.up k = some (p, n) → IsDirName n
  reached : ∀ k, t.up k ≠ none → t.Has k
  outer : ∀ o, t.outer = some o → ¬ t.Has o

/-- The key of what a directory is in. -/
def parentKey (t : DirTree) (k : DirKey) : Option DirKey :=
  if k = t.root then t.outer else (t.up k).map Prod.fst

/-- A directory is moved into another, under a name there. -/
def move (t : DirTree) (d q : DirKey) (n : Text) : DirTree :=
  { t with up := Function.update t.up d (some (q, n)) }

/-- The tree with the root's parent over it, when the root has a name there. -/
def hung (t : DirTree) : Hung :=
  match t.outer, splitName t.rootPath with
  | some o, some (p, n) => ⟨o, p, Function.update t.up t.root (some (o, n))⟩
  | _, _ => ⟨t.root, t.rootPath, t.up⟩

variable {t : DirTree} {k d q : DirKey} {n path : Text}

theorem hung_cases (t : DirTree) :
    (t.hung = ⟨t.root, t.rootPath, t.up⟩ ∧ (t.outer = none ∨ splitName t.rootPath = none)) ∨
      ∃ o p n, t.outer = some o ∧ splitName t.rootPath = some (p, n) ∧
        t.hung = ⟨o, p, Function.update t.up t.root (some (o, n))⟩ := by
  unfold hung
  cases ho : t.outer with
  | none => exact Or.inl ⟨rfl, Or.inl rfl⟩
  | some o =>
    cases hs : splitName t.rootPath with
    | none => exact Or.inl ⟨rfl, Or.inr rfl⟩
    | some pn => exact Or.inr ⟨o, pn.1, pn.2, rfl, rfl, rfl⟩

theorem hung_up (hk : k ≠ t.root) : t.hung.up k = t.up k := by
  rcases t.hung_cases with ⟨h, -⟩ | ⟨o, p, n, -, -, h⟩
  · rw [h]
  · rw [h]
    exact Function.update_of_ne hk _ _

theorem Ok.ne_root (ht : t.Ok) {p : DirKey} (hup : t.up k = some (p, n)) : k ≠ t.root := by
  rintro rfl
  rw [ht.topmost] at hup
  cases hup

theorem Ok.hung (ht : t.Ok) : t.hung.Ok := by
  rcases t.hung_cases with ⟨h, -⟩ | ⟨o, p, n, ho, hs, h⟩
  · rw [h]
    exact ⟨ht.abs, ht.topmost, ht.names⟩
  · obtain ⟨habs, hname, -⟩ := splitName_some ht.abs hs
    rw [h]
    refine ⟨habs, ?_, fun k p' n' hup => ?_⟩
    · have hne : o ≠ t.root := by
        rintro rfl
        exact ht.outer _ ho ⟨_, .root⟩
      show Function.update t.up t.root _ o = none
      rw [Function.update_of_ne hne]
      by_contra hup
      exact ht.outer o ho (ht.reached o hup)
    · replace hup : Function.update t.up t.root (some (o, n)) k = some (p', n') := hup
      rw [Function.update_apply] at hup
      split at hup
      · cases hup
        exact hname
      · exact ht.names k p' n' hup

/-- A directory of the tree. -/
theorem At.hung (h : t.At k path) (ht : t.Ok) : ∃ d, t.hung.At k path d := by
  induction h with
  | root =>
    rcases t.hung_cases with ⟨h, -⟩ | ⟨o, p, n, -, hs, h⟩
    · refine ⟨0, ?_⟩
      rw [h]
      exact Hung.At.top
    · obtain ⟨-, -, hpath⟩ := splitName_some ht.abs hs
      refine ⟨1, ?_⟩
      rw [hpath, h]
      exact Hung.At.step .top (Function.update_self _ _ _)
  | step hp hup ih =>
    obtain ⟨d, hd⟩ := ih
    refine ⟨d + 1, .step hd ?_⟩
    rw [hung_up (ht.ne_root hup), hup]

/-- What hangs there is in the tree, the topmost apart. -/
theorem has_of_hung (ht : t.Ok) {d : Nat} (h : t.hung.At k path d) : k = t.hung.top ∨ t.Has k := by
  rcases h.up_isSome with htop | ⟨p, n, hup⟩
  · exact Or.inl htop
  · right
    by_cases hk : k = t.root
    · exact ⟨t.rootPath, hk ▸ .root⟩
    · rw [hung_up hk] at hup
      exact ht.reached k (by rw [hup]; exact Option.some_ne_none _)

/-- The key an insert is given is that of what the directory hangs off. -/
theorem At.given (h : t.At k path) (ht : t.Ok) : DirMap.Given t.hung k (t.parentKey k) path := by
  cases h with
  | root =>
    unfold parentKey
    rw [if_pos rfl]
    rcases t.hung_cases with ⟨h, hnone⟩ | ⟨o, p, n, ho, -, h⟩
    · left
      rw [h]
      exact ⟨ht.topmost, hnone⟩
    · right
      rw [h]
      exact ⟨o, n, Function.update_self _ _ _, ho⟩
  | step hp hup =>
    right
    have hne := ht.ne_root hup
    refine ⟨_, _, (hung_up hne).trans hup, ?_⟩
    unfold parentKey
    rw [if_neg hne, hup, Option.map_some]

/-! ## A move -/

theorem move_hung (t : DirTree) (d q : DirKey) (n : Text) :
    (t.move d q n).hung.top = t.hung.top ∧ (t.move d q n).hung.topPath = t.hung.topPath := by
  unfold hung move
  dsimp only
  split <;> exact ⟨rfl, rfl⟩

theorem move_up (t : DirTree) (d q : DirKey) (n : Text) (k : DirKey) :
    (t.move d q n).up k = if k = d then some (q, n) else t.up k := Function.update_apply _ _ _ _

theorem move_hung_up (hk : k ≠ d) : (t.move d q n).hung.up k = t.hung.up k := by
  rcases t.hung_cases with ⟨h, hnone⟩ | ⟨o, p, n', ho, hs, h⟩
  · by_cases hroot : k = t.root
    · rcases (t.move d q n).hung_cases with ⟨h', -⟩ | ⟨o, p, n', ho, hs, -⟩
      · rw [h, h']
        show (t.move d q n).up k = _
        rw [move_up, if_neg hk]
      · rcases hnone with hnone | hnone
        · cases hnone.symm.trans ho
        · cases hnone.symm.trans hs
    · rw [hung_up (t := t.move d q n) hroot, hung_up hroot, move_up, if_neg hk]
  · by_cases hroot : k = t.root
    · rcases (t.move d q n).hung_cases with ⟨-, hnone⟩ | ⟨o', p', n'', ho', hs', h'⟩
      · rcases hnone with hnone | hnone
        · cases hnone.symm.trans ho
        · cases hnone.symm.trans hs
      · cases ho.symm.trans ho'
        cases hs.symm.trans hs'
        rw [h, h', hroot]
        show Function.update _ t.root _ t.root = Function.update _ t.root _ t.root
        rw [Function.update_self, Function.update_self]
    · rw [hung_up (t := t.move d q n) hroot, hung_up hroot, move_up, if_neg hk]

/-- The directories are the ones they were. -/
theorem has_move (hd : t.Has d) (hat : (t.move d q n).At d path) (k : DirKey) :
    (t.move d q n).Has k ↔ t.Has k := by
  constructor
  · rintro ⟨path', h⟩
    induction h with
    | root => exact ⟨_, .root⟩
    | step hp hup ih =>
      rw [move_up] at hup
      split at hup
      · rename_i hk
        exact hk ▸ hd
      · obtain ⟨p, hp⟩ := ih
        exact ⟨_, .step hp hup⟩
  · rintro ⟨path', h⟩
    induction h with
    | root => exact ⟨_, At.root (t := t.move d q n)⟩
    | step hp hup ih =>
      rename_i k' p n' path''
      by_cases hk : k' = d
      · exact ⟨path, hk ▸ hat⟩
      · obtain ⟨p', hp'⟩ := ih
        have hup' : (t.move d q n).up k' = some (p, n') := by
          rw [move_up, if_neg hk]
          exact hup
        exact ⟨_, .step hp' hup'⟩

theorem Ok.move (ht : t.Ok) (hd : t.Has d) (hroot : d ≠ t.root) (hn : IsDirName n)
    (hat : (t.move d q n).At d path) : (t.move d q n).Ok := by
  refine ⟨ht.abs, ?_, fun k p n' hup => ?_, fun k hup => ?_, fun o ho => ?_⟩
  · show (t.move d q n).up t.root = none
    rw [move_up, if_neg (Ne.symm hroot)]
    exact ht.topmost
  · rw [move_up] at hup
    split at hup
    · cases hup
      exact hn
    · exact ht.names k p n' hup
  · rw [has_move hd hat]
    rw [move_up] at hup
    split at hup
    · rename_i hk
      exact hk ▸ hd
    · exact ht.reached k hup
  · rw [has_move hd hat]
    exact ht.outer o ho

end DirTree

/-! ## A story of inserts and moves -/

/-- One call of `insert_key`. -/
structure InsertCall where
  key : DirKey
  parent : Option DirKey
  path : Text
deriving DecidableEq

/-- Every directory is inserted once, in any order; then some are moved, and inserted again.  A
directory is not moved into itself: it is still reached from the root. -/
inductive Story (t₀ : DirTree) : List InsertCall → DirTree → List DirKey → Prop where
  | start : Story t₀ [] t₀ []
  | insert {calls : List InsertCall} {ins : List DirKey} {k : DirKey} {path : Text} :
      Story t₀ calls t₀ ins → k ∉ ins → t₀.At k path →
        Story t₀ (calls ++ [⟨k, t₀.parentKey k, path⟩]) t₀ (k :: ins)
  | move {calls : List InsertCall} {t : DirTree} {ins : List DirKey} {d q : DirKey}
      {n path : Text} : Story t₀ calls t ins → (∀ k, t₀.Has k → k ∈ ins) → d ≠ t.root → t.Has d →
        t.Has q → IsDirName n → (t.move d q n).At d path →
          Story t₀ (calls ++ [⟨d, some q, path⟩]) (t.move d q n) ins

/-- The map after these calls, from an empty one. -/
def insertAll (tagOf : Text → Option FsTag) (calls : List InsertCall) : Option DirMap :=
  calls.foldlM (fun m c => m.insertKey tagOf c.key c.parent c.path) DirMap.empty

/-- Every directory's filesystem has a tag that events on its device match, and no others. -/
def Told (tagOf : Text → Option FsTag) (event : Nat → FsTag) (t : DirTree) : Prop :=
  ∀ k path, t.At k path → ∃ mine, tagOf path = some mine ∧
    ∀ dev, mine.holds (event dev) = true ↔ dev = k.dev

/-- There is room for every path and for two nodes an insert. -/
structure Roomy (calls : List InsertCall) : Prop where
  path : ∀ c ∈ calls, (utf8 c.path).length ≤ DirMap.NAME_MAX
  names : (calls.map fun c => (utf8 c.path).length).sum ≤ DirMap.NAME_ROOM
  nodes : 2 * calls.length < NO_PARENT

namespace DirMap

/-- The map names what was inserted as the tree does, and nothing else. -/
def NamesTruly (m : DirMap) (event : Nat → FsTag) (t : DirTree) (ins : List DirKey) : Prop :=
  (∀ k ∈ ins, t.Has k ∧ ∀ path, t.At k path → NoDoubled path ∧
    (pathDepth path < MAX_DEPTH → m.pathOf k.ino (event k.dev) = some path)) ∧
  ∀ k, k ∉ ins → m.pathOf k.ino (event k.dev) = none

/-! ### Which device an event is about -/

structure Devices (m : DirMap) (event : Nat → FsTag) (ins : List DirKey) : Prop where
  beside : m.devices.length = m.tags.length
  told : ∀ d ∈ m.devices.zip m.tags, ∃ mine, d.2 = some mine ∧
    ∀ dev, mine.holds (event dev) = true ↔ dev = d.1
  known : ∀ k ∈ ins, k.dev ∈ m.devices

variable {m m' : DirMap} {event : Nat → FsTag} {tagOf : Text → Option FsTag} {ins : List DirKey}
  {k : DirKey} {path : Text}

theorem devices_empty (event : Nat → FsTag) : empty.Devices event [] where
  beside := rfl
  told := fun _ h => by cases h
  known := fun _ h => by cases h

theorem Devices.meet (h : m.Devices event ins) {mine : FsTag} (htag : tagOf path = some mine)
    (hmine : ∀ dev, mine.holds (event dev) = true ↔ dev = k.dev)
    (hdev : m'.devices = (m.meetDevice tagOf k path).devices)
    (htags : m'.tags = (m.meetDevice tagOf k path).tags) : m'.Devices event (k :: ins) := by
  unfold meetDevice at hdev htags
  by_cases hin : m.devices.contains k.dev = true
  · rw [if_pos hin] at hdev htags
    refine ⟨by rw [hdev, htags, h.beside], by rw [hdev, htags]; exact h.told, fun l hl => ?_⟩
    rw [hdev]
    rcases List.mem_cons.mp hl with rfl | hl
    · exact List.contains_iff_mem.mp hin
    · exact h.known l hl
  · rw [if_neg hin] at hdev htags
    dsimp only at hdev htags
    refine ⟨?_, fun d hd => ?_, fun l hl => ?_⟩
    · rw [hdev, htags, List.length_append, List.length_append, h.beside]
      rfl
    · rw [hdev, htags, List.zip_append h.beside] at hd
      rcases List.mem_append.mp hd with hd | hd
      · exact h.told d hd
      · obtain rfl : d = (k.dev, tagOf path) := List.mem_singleton.mp hd
        exact ⟨mine, htag, hmine⟩
    · rw [hdev]
      rcases List.mem_cons.mp hl with rfl | hl
      · exact List.mem_append_right _ List.mem_cons_self
      · exact List.mem_append_left _ (h.known l hl)

/-- A device that was met before. -/
theorem Devices.stay (h : m.Devices event ins) (hk : k ∈ ins)
    (hdev : m'.devices = (m.meetDevice tagOf k path).devices)
    (htags : m'.tags = (m.meetDevice tagOf k path).tags) : m'.Devices event ins := by
  unfold meetDevice at hdev htags
  rw [if_pos (List.contains_iff_mem.mpr (h.known k hk))] at hdev htags
  exact ⟨by rw [hdev, htags, h.beside], by rw [hdev, htags]; exact h.told,
    by rw [hdev]; exact h.known⟩

/-- An event about a directory is matched with its device only. -/
theorem Devices.nodeOf (h : m.Devices event ins) (k : DirKey) (hk : m.byKey k = none ∨ k ∈ ins) :
    m.nodeOf k.ino (event k.dev) = m.byKey k := by
  unfold DirMap.nodeOf
  have honly : ∀ d ∈ (m.devices.zip m.tags).filter fun d => d.2.all (·.holds (event k.dev)),
      d.1 = k.dev := by
    intro d hd
    obtain ⟨hmem, hholds⟩ := List.mem_filter.mp hd
    obtain ⟨mine, hmine, htold⟩ := h.told d hmem
    rw [hmine] at hholds
    exact ((htold k.dev).mp hholds).symm
  cases hb : m.byKey k with
  | none =>
    rw [List.findSome?_eq_none_iff]
    intro d hd
    rw [honly d hd]
    exact hb
  | some id =>
    have hin : k ∈ ins := by
      rcases hk with hnone | hin
      · rw [hb] at hnone
        cases hnone
      · exact hin
    have hmem := h.known k hin
    rw [← List.map_fst_zip (le_of_eq h.beside), List.mem_map] at hmem
    obtain ⟨d, hd, hdev⟩ := hmem
    obtain ⟨mine, hmine, htold⟩ := h.told d hd
    have hfilter : d ∈ (m.devices.zip m.tags).filter fun d => d.2.all (·.holds (event k.dev)) := by
      rw [List.mem_filter, hmine]
      exact ⟨hd, (htold k.dev).mpr hdev.symm⟩
    cases hfind : List.findSome? (fun d : Nat × Option FsTag => m.byKey ⟨d.1, k.ino⟩)
        ((m.devices.zip m.tags).filter fun d => d.2.all (·.holds (event k.dev))) with
    | none =>
      have hnone := List.findSome?_eq_none_iff.mp hfind d hfilter
      rw [hdev] at hnone
      cases hb.symm.trans hnone
    | some j =>
      obtain ⟨e, he, hj⟩ := List.exists_of_findSome?_eq_some hfind
      rw [honly e he] at hj
      exact hj.symm.trans hb

/-! ### What holds through a story -/

structure Kept (m : DirMap) (event : Nat → FsTag) (calls : List InsertCall) (t : DirTree)
    (ins : List DirKey) : Prop where
  sound : m.Sound
  spells : m.Spells t.hung ins
  devices : m.Devices event ins
  used : m.names.used ≤ (calls.map fun c => (utf8 c.path).length).sum
  nodes : m.nodes.length ≤ 2 * calls.length

/-- A directory that is only a parent is the root's. -/
theorem Spells.unmet_top {t : DirTree} (h : m.Spells t.hung ins) (ht : t.Ok)
    (hall : ∀ k, t.Has k → k ∈ ins) {id : Nat} (ho : m.outside k = some id) : k = t.hung.top := by
  obtain ⟨path, d, hat, -⟩ := h.unmet k id ho
  rcases DirTree.has_of_hung ht hat with htop | hhas
  · exact htop
  · exact absurd (hall k hhas) (h.unknown k (by rw [ho]; rfl))

/-- An event about a directory that was inserted. -/
theorem Spells.pathOf {x : Hung} {d : Nat} (h : m.Spells x ins) (hdev : m.Devices event ins)
    (hx : x.Ok) (hk : k ∈ ins) (hat : x.At k path d) (hdepth : pathDepth path < MAX_DEPTH) :
    m.pathOf k.ino (event k.dev) = some path := by
  have hle := hat.depth_le hx
  obtain ⟨id, hid⟩ := Option.isSome_iff_exists.mp ((h.known k).mpr hk)
  obtain ⟨hspells, hends⟩ := h.climb hx hat (idOf_of_byKey hid) MAX_DEPTH
  obtain ⟨slots, hslots⟩ := Option.isSome_iff_exists.mp (hends (by omega))
  unfold DirMap.pathOf
  rw [hdev.nodeOf k (Or.inr hk), hid, Option.bind_some, writePath_eq, hslots, Option.map_some,
    hspells slots hslots]

/-- An event about any other. -/
theorem Devices.pathOf_none (h : m.Devices event ins) (hk : m.byKey k = none) :
    m.pathOf k.ino (event k.dev) = none := by
  unfold DirMap.pathOf
  rw [h.nodeOf k (Or.inl hk), hk, Option.bind_none]

theorem Kept.names {t : DirTree} {calls : List InsertCall} (h : m.Kept event calls t ins)
    (ht : t.Ok) (hhas : ∀ k ∈ ins, t.Has k) : m.NamesTruly event t ins := by
  refine ⟨fun k hk => ⟨hhas k hk, fun path hat => ?_⟩, fun k hk => ?_⟩
  · obtain ⟨d, hd⟩ := hat.hung ht
    exact ⟨(hd.isAbs ht.hung).single, h.spells.pathOf h.devices ht.hung hk hd⟩
  · apply h.devices.pathOf_none
    rw [← Option.not_isSome_iff_eq_none, h.spells.known]
    exact hk

end DirMap

theorem Roomy.init {calls : List InsertCall} {c : InsertCall} (h : Roomy (calls ++ [c])) :
    Roomy calls ∧ (utf8 c.path).length ≤ DirMap.NAME_MAX ∧
      (calls.map fun c => (utf8 c.path).length).sum + (utf8 c.path).length ≤ DirMap.NAME_ROOM ∧
      2 * calls.length + 2 < NO_PARENT := by
  have hnames := h.names
  have hnodes := h.nodes
  rw [List.map_append, List.sum_append, List.map_singleton, List.sum_singleton] at hnames
  rw [List.length_append, List.length_singleton] at hnodes
  exact ⟨⟨fun c hc => h.path c (List.mem_append_left _ hc), by omega, by omega⟩,
    h.path c (List.mem_append_right _ (List.mem_singleton_self c)), hnames, by omega⟩

theorem insertAll_append (tagOf : Text → Option FsTag) (calls : List InsertCall) (c : InsertCall) :
    insertAll tagOf (calls ++ [c]) =
      (insertAll tagOf calls).bind fun m => m.insertKey tagOf c.key c.parent c.path := by
  unfold insertAll
  rw [List.foldlM_append]
  apply congrArg
  funext m
  exact bind_pure _

/-- The directories of a story are the ones it began with. -/
theorem Story.dirs {t₀ t : DirTree} {calls : List InsertCall} {ins : List DirKey}
    (h : Story t₀ calls t ins) (h₀ : t₀.Ok) :
    t.Ok ∧ (∀ k, t.Has k ↔ t₀.Has k) ∧ ∀ k ∈ ins, t₀.Has k := by
  induction h with
  | start => exact ⟨h₀, fun _ => Iff.rfl, fun _ hk => by cases hk⟩
  | insert _ _ hat ih =>
    obtain ⟨hok, hhas, hins⟩ := ih
    refine ⟨hok, hhas, fun l hl => ?_⟩
    rcases List.mem_cons.mp hl with rfl | hl
    · exact ⟨_, hat⟩
    · exact hins l hl
  | move _ _ hroot hd _ hn hat ih =>
    obtain ⟨hok, hhas, hins⟩ := ih
    exact ⟨hok.move hd hroot hn hat, fun k => (DirTree.has_move hd hat k).trans (hhas k), hins⟩

theorem Story.kept {tagOf : Text → Option FsTag} {event : Nat → FsTag} {t₀ t : DirTree}
    {calls : List InsertCall} {ins : List DirKey} (h : Story t₀ calls t ins) (h₀ : t₀.Ok)
    (htold : Told tagOf event t₀) (hroom : Roomy calls) :
    ∃ m, insertAll tagOf calls = some m ∧ m.Kept event calls t ins := by
  induction h with
  | start =>
    exact ⟨DirMap.empty, rfl, DirMap.sound_empty, DirMap.spells_empty _, DirMap.devices_empty _,
      Nat.le_refl 0, Nat.le_refl 0⟩
  | insert hstory hk hat ih =>
    obtain ⟨hroom, hlen, hnames, hnodes⟩ := hroom.init
    obtain ⟨m, hm, hkept⟩ := ih hroom
    obtain ⟨d, hd⟩ := hat.hung h₀
    have hused := hkept.used
    have hnodes' := hkept.nodes
    dsimp only at hlen hnames
    obtain ⟨m', hm', hspells, hins⟩ := DirMap.insertKey_new tagOf hkept.spells hkept.sound
      h₀.hung hk hd (hat.given h₀) hlen (by omega) (by omega)
    obtain ⟨mine, htag, hmine⟩ := htold _ _ hat
    refine ⟨m', ?_, hins.sound, hspells, hkept.devices.meet htag hmine hins.devices hins.tags,
      ?_, ?_⟩
    · rw [insertAll_append, hm]
      exact hm'
    · have := hins.used
      rw [List.map_append, List.sum_append, List.map_singleton, List.sum_singleton]
      dsimp only
      omega
    · have := hins.nodes
      rw [List.length_append, List.length_singleton]
      omega
  | move hstory hall hroot hd hq hn hat ih =>
    obtain ⟨hroom, hlen, hnames, hnodes⟩ := hroom.init
    obtain ⟨m, hm, hkept⟩ := ih hroom
    obtain ⟨hok, hhas, -⟩ := hstory.dirs h₀
    have hok' := hok.move hd hroot hn hat
    have hused := hkept.used
    have hnodes' := hkept.nodes
    dsimp only at hlen hnames
    obtain ⟨path₀, hat₀⟩ := hd
    obtain ⟨e, he⟩ := hat₀.hung hok
    obtain ⟨e', he'⟩ := hat.hung hok'
    have hall' : ∀ k, DirTree.Has _ k → k ∈ _ := fun k hk => hall k ((hhas k).mp hk)
    obtain ⟨htop, htopPath⟩ := DirTree.move_hung _ _ _ _
    obtain ⟨m', hm', hspells, hins⟩ := DirMap.insertKey_moved tagOf hkept.spells hkept.sound
      hok.hung hok'.hung htop htopPath (fun l hl => DirTree.move_hung_up hl)
      ((DirTree.hung_up (by exact hroot)).trans (by rw [DirTree.move_up, if_pos rfl]))
      (hall' _ ⟨_, hat₀⟩) (hall' _ hq) (fun l id ho => hkept.spells.unmet_top hok hall' ho) he he'
      hlen (by omega) (by omega)
    refine ⟨m', ?_, hins.sound, hspells,
      hkept.devices.stay (hall' _ ⟨_, hat₀⟩) hins.devices hins.tags, ?_, ?_⟩
    · rw [insertAll_append, hm]
      exact hm'
    · have := hins.used
      rw [List.map_append, List.sum_append, List.map_singleton, List.sum_singleton]
      dsimp only
      omega
    · have := hins.nodes
      rw [List.length_append, List.length_singleton]
      omega

/-- **The map names every directory by the path it has now.** -/
theorem story_named (tagOf : Text → Option FsTag) (event : Nat → FsTag) {t₀ t : DirTree}
    {calls : List InsertCall} {ins : List DirKey} (h₀ : t₀.Ok) (htold : Told tagOf event t₀)
    (hstory : Story t₀ calls t ins) (hroom : Roomy calls) :
    ∃ m, insertAll tagOf calls = some m ∧ m.NamesTruly event t ins := by
  obtain ⟨m, hm, hkept⟩ := hstory.kept h₀ htold hroom
  obtain ⟨hok, hhas, hins⟩ := hstory.dirs h₀
  exact ⟨m, hm, hkept.names hok fun k hk => (hhas k).mpr (hins k hk)⟩

/-! ### A tree of three, moved -/

/-- One device, and its tag. -/
def oneTag (_ : Text) : Option FsTag := some ⟨(7, 7), none⟩

def oneEvent (dev : Nat) : FsTag := if dev = 1 then ⟨(7, 7), none⟩ else ⟨(8, 8), none⟩

theorem told_one {t : DirTree} (h : ∀ k path, t.At k path → k.dev = 1) :
    Told oneTag oneEvent t := by
  intro k path hat
  refine ⟨_, rfl, fun dev => ?_⟩
  rw [h k path hat]
  unfold oneEvent
  by_cases hdev : dev = 1
  · rw [if_pos hdev]
    exact ⟨fun _ => hdev, fun _ => rfl⟩
  · rw [if_neg hdev]
    exact ⟨fun hholds => absurd hholds (by decide), fun hd => absurd hd hdev⟩

/-- `/m/a/b` under `/m`, which is in a directory that is not walked. -/
def threeDirs : DirTree where
  root := ⟨1, 1⟩
  outer := some ⟨1, 9⟩
  rootPath := ['/', 'm']
  up := fun k => if k = ⟨1, 2⟩ then some (⟨1, 1⟩, ['a'])
    else if k = ⟨1, 3⟩ then some (⟨1, 2⟩, ['b']) else none

theorem threeDirs_at :
    threeDirs.At ⟨1, 1⟩ ['/', 'm'] ∧ threeDirs.At ⟨1, 2⟩ ['/', 'm', '/', 'a'] ∧
      threeDirs.At ⟨1, 3⟩ ['/', 'm', '/', 'a', '/', 'b'] := by
  have h₁ : threeDirs.At ⟨1, 1⟩ ['/', 'm'] := .root
  have h₂ : threeDirs.At ⟨1, 2⟩ ['/', 'm', '/', 'a'] := .step (n := ['a']) h₁ rfl
  exact ⟨h₁, h₂, .step (n := ['b']) h₂ rfl⟩

theorem threeDirs_up {k p : DirKey} {n : Text} (h : threeDirs.up k = some (p, n)) :
    (k = ⟨1, 2⟩ ∧ n = ['a']) ∨ (k = ⟨1, 3⟩ ∧ n = ['b']) := by
  unfold threeDirs at h
  dsimp only at h
  split at h
  · rename_i hk
    cases h
    exact Or.inl ⟨hk, rfl⟩
  · split at h
    · rename_i hk
      cases h
      exact Or.inr ⟨hk, rfl⟩
    · cases h

theorem threeDirs_has {k : DirKey} : threeDirs.Has k ↔ k ∈ [⟨1, 1⟩, ⟨1, 2⟩, (⟨1, 3⟩ : DirKey)] := by
  obtain ⟨h₁, h₂, h₃⟩ := threeDirs_at
  constructor
  · rintro ⟨path, hat⟩
    cases hat with
    | root => decide
    | step _ hup => rcases threeDirs_up hup with ⟨rfl, -⟩ | ⟨rfl, -⟩ <;> decide
  · intro hk
    simp only [List.mem_cons, List.not_mem_nil, or_false] at hk
    rcases hk with rfl | rfl | rfl
    · exact ⟨_, h₁⟩
    · exact ⟨_, h₂⟩
    · exact ⟨_, h₃⟩

theorem threeDirs_ok : threeDirs.Ok where
  abs := ⟨rfl, by unfold NoDoubled; decide, Or.inr (by decide)⟩
  topmost := rfl
  names := fun k p n hup => by
    rcases threeDirs_up hup with ⟨-, rfl⟩ | ⟨-, rfl⟩
    · exact ⟨by decide, by decide⟩
    · exact ⟨by decide, by decide⟩
  reached := fun k hup => by
    obtain ⟨⟨p, n⟩, hup⟩ := Option.ne_none_iff_exists'.mp hup
    rw [threeDirs_has]
    rcases threeDirs_up hup with ⟨rfl, -⟩ | ⟨rfl, -⟩ <;> decide
  outer := fun o ho => by
    obtain rfl := Option.some.inj ho
    rw [threeDirs_has]
    decide

/-- Deepest first, and then the deepest is moved up. -/
def threeCalls : List InsertCall :=
  [⟨⟨1, 3⟩, some ⟨1, 2⟩, ['/', 'm', '/', 'a', '/', 'b']⟩,
    ⟨⟨1, 2⟩, some ⟨1, 1⟩, ['/', 'm', '/', 'a']⟩, ⟨⟨1, 1⟩, some ⟨1, 9⟩, ['/', 'm']⟩,
    ⟨⟨1, 3⟩, some ⟨1, 1⟩, ['/', 'm', '/', 'c']⟩]

theorem threeDirs_story : Story threeDirs threeCalls (threeDirs.move ⟨1, 3⟩ ⟨1, 1⟩ ['c'])
    [⟨1, 1⟩, ⟨1, 2⟩, ⟨1, 3⟩] := by
  obtain ⟨h₁, h₂, h₃⟩ := threeDirs_at
  have s₁ := Story.insert .start (by decide) h₃
  have s₂ := Story.insert s₁ (by decide) h₂
  have s₃ := Story.insert s₂ (by decide) h₁
  exact Story.move s₃ (fun k hk => threeDirs_has.mp hk) (by decide) ⟨_, h₃⟩ ⟨_, h₁⟩
    ⟨by decide, by decide⟩ (.step (n := ['c']) .root rfl)

theorem story_named_three : ∃ m, insertAll oneTag threeCalls = some m ∧
    m.NamesTruly oneEvent (threeDirs.move ⟨1, 3⟩ ⟨1, 1⟩ ['c']) [⟨1, 1⟩, ⟨1, 2⟩, ⟨1, 3⟩] := by
  apply story_named oneTag oneEvent threeDirs_ok _ threeDirs_story
  · exact ⟨by decide, by decide, by decide⟩
  · apply told_one
    intro k path hat
    have hk := threeDirs_has.mp ⟨path, hat⟩
    simp only [List.mem_cons, List.not_mem_nil, or_false] at hk
    rcases hk with rfl | rfl | rfl <;> rfl

/-- A root whose path is one byte too long. -/
def longRoot : DirTree where
  root := ⟨1, 1⟩
  outer := none
  rootPath := '/' :: List.replicate (2 ^ 16 - 1) 'a'
  up := fun _ => none

/-- A name that a slot cannot name. -/
theorem pushName_none (names : Arena UInt8) {name : Text} (h : 2 ^ 16 ≤ (utf8 name).length) :
    pushName names name = none := by
  obtain ⟨init, chunk, -, hslot, -⟩ := Arena.push_cases CHUNK names (utf8 name)
  unfold pushName
  dsimp only
  rw [hslot, if_neg]
  rintro ⟨-, -, hlen⟩
  exact absurd hlen (by dsimp only; omega)

theorem longRoot_long : 2 ^ 16 ≤ (utf8 longRoot.rootPath).length := by
  apply le_trans _ (length_le_utf8 _)
  unfold longRoot
  rw [List.length_cons, List.length_replicate]
  decide

/-- Such a path cannot be inserted where no parent is known. -/
theorem insertAll_long {path : Text} (h : 2 ^ 16 ≤ (utf8 path).length) (k : DirKey) :
    insertAll oneTag [⟨k, none, path⟩] = none := by
  have hnode : ∀ m : DirMap, m.addNode NO_PARENT path = none := by
    intro m
    unfold DirMap.addNode
    rw [pushName_none _ h, Option.bind_none]
  have hcall : DirMap.empty.insertKey oneTag k none path = none := by
    show (DirMap.addNode _ NO_PARENT path).map _ = none
    rw [hnode, Option.map_none]
  show (DirMap.empty.insertKey oneTag k none path).bind _ = none
  rw [hcall, Option.bind_none]

theorem longRoot_has {k : DirKey} {path : Text} (h : longRoot.At k path) : k = ⟨1, 1⟩ := by
  cases h with
  | root => rfl
  | step _ hup => cases hup

theorem longRoot_ok : longRoot.Ok where
  abs := by
    have hname : '/' ∉ List.replicate (2 ^ 16 - 1) 'a' := by
      rw [List.mem_replicate]
      rintro ⟨-, h⟩
      exact absurd h (by decide)
    refine ⟨rfl, noDoubled_name hname, Or.inr fun hlast => ?_⟩
    have hne : List.replicate (2 ^ 16 - 1) 'a' ≠ [] := by
      rw [Ne, List.replicate_eq_nil_iff]
      decide
    unfold longRoot at hlast
    rw [List.getLast?_cons_of_ne_nil hne] at hlast
    exact hname (List.mem_of_getLast? hlast)
  topmost := rfl
  names := fun _ _ _ h => by cases h
  reached := fun _ h => absurd rfl h
  outer := fun _ h => by cases h

theorem not_story_named : ¬ ∀ (tagOf : Text → Option FsTag) (event : Nat → FsTag) (t₀ t : DirTree)
    (calls : List InsertCall) (ins : List DirKey), t₀.Ok → Told tagOf event t₀ →
      Story t₀ calls t ins → ∃ m, insertAll tagOf calls = some m ∧ m.NamesTruly event t ins := by
  intro h
  have htold : Told oneTag oneEvent longRoot :=
    told_one fun k path hat => by rw [longRoot_has hat]
  have hstory := Story.insert .start List.not_mem_nil (DirTree.At.root (t := longRoot))
  obtain ⟨m, hm, -⟩ := h oneTag oneEvent longRoot longRoot _ _ longRoot_ok htold hstory
  exact absurd ((insertAll_long longRoot_long _).symm.trans hm) (Option.some_ne_none m).symm

end Scour
