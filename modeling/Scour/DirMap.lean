import Scour.Lib.Arena
import Scour.Query

/-!
# The map from a directory to its path

An event names a directory by its inode, and `DirMap` says what its path is.  No path is kept: a
node has a name and the node it hangs off, and a directory that is known only as somebody's parent
has its whole path for a name until it is met (`outside`).  The names lie in an arena of chunks, and
what the counters cannot hold panics, which is `none`.

What a node is called and hangs off is its `link`, and what writing one node does to the links is
`addNode_some` and `setNode_some`.
-/

namespace Scour

open Search

/-! ## The map -/

/-- What identifies a directory across a rename. -/
structure DirKey where
  dev : Nat
  ino : Nat
deriving DecidableEq

/-- Which filesystem a directory is on and, on btrfs, which subvolume. -/
structure FsTag where
  fsid : Nat × Nat
  root : Option Nat
deriving DecidableEq

/-- Can an event with this tag be about a directory on this filesystem? -/
def FsTag.holds (mine event : FsTag) : Bool :=
  if event.fsid = (0, 0) then true
  else
    match mine.root, event.root with
    | some m, some t => m == t && mine.fsid.1 == event.fsid.1
    | none, none => mine.fsid == event.fsid
    | _, _ => false

/-- `NameArena::CHUNK`. -/
def CHUNK : Nat := 1024 * 1024

/-- `NameArena::push`. -/
def pushName (names : Arena UInt8) (name : Text) : Option (Arena UInt8 × Slot) :=
  let (names, slot) := names.push CHUNK (utf8 name)
  if slot.start < 2 ^ 32 ∧ slot.chunk < 2 ^ 16 ∧ slot.len < 2 ^ 16 then some (names, slot) else none

/-- `NameArena::get`. -/
def nameText (names : Arena UInt8) (slot : Slot) : Text := ((names.get slot).bind fromUtf8).getD []

/-- A path's parent and its last component, `/`-separated. -/
def splitName (path : Text) : Option (Text × Text) :=
  let before := path.rdropWhile (· ≠ '/')
  let name := path.rtakeWhile (· ≠ '/')
  if before = [] ∨ name = [] then none
  else some (if before.length = 1 then ['/'] else before.dropLast, name)

/-- One directory: what it is called, and the node it is called that in. -/
structure Node where
  parent : Nat
  name : Slot

/-- The parent of a node that is nobody's child; it holds its whole path as its name. -/
def NO_PARENT : Nat := 2 ^ 32 - 1

def INLINE_DEPTH : Nat := 64

/-- How far a climb follows parent links. -/
def MAX_DEPTH : Nat := 4096

structure DirMap where
  byKey : DirKey → Option Nat
  nodes : List Node
  names : Arena UInt8
  /-- Directories that are only somebody's parent. -/
  outside : DirKey → Option Nat
  devices : List Nat
  /-- Beside the devices, one each. -/
  tags : List (Option FsTag)

namespace DirMap

def empty : DirMap := ⟨fun _ => none, [], .empty, fun _ => none, [], []⟩

/-! ### Reading it -/

/-- The names up from a node, its own first. -/
def climb (nodes : List Node) : Nat → Nat → Option (List Slot)
  | 0, _ => none
  | fuel + 1, id =>
      match nodes[id]? with
      | none => none
      | some node =>
          if node.parent = NO_PARENT then some [node.name]
          else (climb nodes fuel node.parent).map (node.name :: ·)

/-- Every component of a node's path, root first: the deepest of them are kept on the stack, and the
others spill. -/
def components (m : DirMap) (id : Nat) : Option (List Text) :=
  (climb m.nodes MAX_DEPTH id).map fun slots =>
    let stack := slots.take INLINE_DEPTH
    let spill := slots.drop INLINE_DEPTH
    (spill.reverse ++ stack.reverse).map (nameText m.names)

/-- A component goes to the end of a path; the only path that ends in a separator is `/`. -/
def writeName (out name : Text) : Text :=
  if out ≠ [] ∧ out.getLast? ≠ some '/' then out ++ '/' :: name else out ++ name

def writePath (m : DirMap) (id : Nat) : Option Text :=
  (m.components id).map fun names => names.foldl writeName []

/-- The path, if it still matches, cut where the components so far end. -/
def matchName (at_ : Option (Text × Text)) (name : Text) : Option (Text × Text) :=
  at_.bind fun (seen, rest) =>
    let cut :=
      if seen ≠ [] ∧ seen.getLast? ≠ some '/' then
        if rest.head? = some '/' then some (seen ++ ['/'], rest.tail) else none
      else some (seen, rest)
    cut.bind fun (seen, rest) =>
      if name.isPrefixOf rest then some (seen ++ name, rest.drop name.length) else none

/-- Does this node already spell exactly this path? -/
def pathMatches (m : DirMap) (id : Nat) (path : Text) : Bool :=
  (m.components id).any fun names =>
    (names.foldl matchName (some ([], path))).any fun at_ => at_.2.isEmpty

def nodeOf (m : DirMap) (ino : Nat) (tag : FsTag) : Option Nat :=
  ((m.devices.zip m.tags).filter fun d => d.2.all (·.holds tag)).findSome? fun d =>
    m.byKey ⟨d.1, ino⟩

/-- The path of the directory this inode names. -/
def pathOf (m : DirMap) (ino : Nat) (tag : FsTag) : Option Text :=
  (m.nodeOf ino tag).bind m.writePath

/-! ### Writing it -/

def addNode (m : DirMap) (parent : Nat) (name : Text) : Option (DirMap × Nat) :=
  (pushName m.names name).bind fun (names, slot) =>
    if m.nodes.length < 2 ^ 32 then
      some ({ m with names := names, nodes := m.nodes ++ [⟨parent, slot⟩] }, m.nodes.length)
    else none

/-- The node a path hangs off, and the name it is known by there. -/
def placeUnder (m : DirMap) (parent : Option DirKey) (path : Text) : Option (DirMap × Nat × Text) :=
  match parent, splitName path with
  | some parent, some (parentPath, name) =>
      match m.byKey parent with
      | some id => some (m, id, name)
      | none =>
          match m.outside parent with
          | some id => some (m, id, name)
          | none =>
              (m.addNode NO_PARENT parentPath).map fun (m, id) =>
                ({ m with outside := Function.update m.outside parent (some id) }, id, name)
  | _, _ => some (m, NO_PARENT, path)

/-- What a node is from now on. -/
def setNode (m : DirMap) (id parent : Nat) (name : Text) : Option DirMap :=
  (pushName m.names name).map fun (names, slot) =>
    { m with names := names, nodes := m.nodes.set id ⟨parent, slot⟩ }

/-- The first directory of a device says what filesystem it is. -/
def meetDevice (tagOf : Text → Option FsTag) (m : DirMap) (key : DirKey) (path : Text) : DirMap :=
  if m.devices.contains key.dev then m
  else { m with devices := m.devices ++ [key.dev], tags := m.tags ++ [tagOf path] }

/-- The directory is called this, and hangs off that node. -/
def place (m : DirMap) (key : DirKey) (path : Text) (parent : Nat) (name : Text) : Option DirMap :=
  match m.byKey key with
  | some id =>
      if (m.nodes[id]?).any (·.parent == parent) && m.pathMatches id path then some m
      else m.setNode id parent name
  | none =>
      -- met as somebody's parent before: the node is taken over
      match m.outside key with
      | some id =>
          (m.setNode id parent name).map fun m =>
            { m with
              outside := Function.update m.outside key none
              byKey := Function.update m.byKey key (some id) }
      | none =>
          (m.addNode parent name).map fun (m, id) =>
            { m with byKey := Function.update m.byKey key (some id) }

/-- Record what a directory is called and where it hangs. -/
def insertKey (tagOf : Text → Option FsTag) (m : DirMap) (key : DirKey) (parent : Option DirKey)
    (path : Text) : Option DirMap :=
  ((m.meetDevice tagOf key path).placeUnder (parent.filter (· ≠ key)) path).bind
    fun (m, parent, name) => m.place key path parent name

/-! ## What a node is called, and what it hangs off -/

def parentOf (parent : Nat) : Option Nat := if parent = NO_PARENT then none else some parent

/-- The node a node hangs off, and its name. -/
def link (m : DirMap) (id : Nat) : Option (Option Nat × Text) :=
  (m.nodes[id]?).map fun node => (parentOf node.parent, nameText m.names node.name)

/-- The node a directory has, met or not. -/
def idOf (m : DirMap) (key : DirKey) : Option Nat := (m.byKey key).or (m.outside key)

/-- The longest name a slot can name. -/
def NAME_MAX : Nat := 2 ^ 16 - 1

/-- What the arena has room for, whatever the names are. -/
def NAME_ROOM : Nat := (2 ^ 16 - 1) * (CHUNK - NAME_MAX)

/-- Every name is there, in an arena no larger than it has to be. -/
structure Sound (m : DirMap) : Prop where
  slots : ∀ node ∈ m.nodes, ∃ name, m.names.get node.name = some (utf8 name)
  packed : m.names.Packed CHUNK NAME_MAX

theorem sound_empty : empty.Sound where
  slots := fun _ h => by cases h
  packed := Arena.packed_empty CHUNK NAME_MAX

theorem nameText_of_get {names : Arena UInt8} {slot : Slot} {name : Text}
    (h : names.get slot = some (utf8 name)) : nameText names slot = name := by
  unfold nameText
  rw [h, Option.bind_some, fromUtf8_utf8, Option.getD_some]

/-- A name that fits is put into the arena, and the others stay. -/
theorem pushName_some {names : Arena UInt8} {name : Text} (h : names.Packed CHUNK NAME_MAX)
    (hlen : (utf8 name).length ≤ NAME_MAX) (hroom : names.used + (utf8 name).length ≤ NAME_ROOM) :
    ∃ names' slot, pushName names name = some (names', slot) ∧ names'.Packed CHUNK NAME_MAX ∧
      names'.used = names.used + (utf8 name).length ∧ names'.get slot = some (utf8 name) ∧
      ∀ s run, names.get s = some run → names'.get s = some run := by
  have hpacked := Arena.packed_push CHUNK h hlen
  have hused := Arena.used_push CHUNK names (utf8 name)
  have hfits : (names.push CHUNK (utf8 name)).2.start < 2 ^ 32 ∧
      (names.push CHUNK (utf8 name)).2.chunk < 2 ^ 16 ∧
        (names.push CHUNK (utf8 name)).2.len < 2 ^ 16 := by
    obtain ⟨init, chunk, hchunks, hslot, hcases⟩ := Arena.push_cases CHUNK names (utf8 name)
    rw [hslot]
    refine ⟨?_, ?_, ?_⟩
    · show chunk.data.length < 2 ^ 32
      rcases hcases with ⟨hinit, -⟩ | ⟨-, hnew, -⟩
      · have := h.fits chunk (by rw [hinit]; exact List.mem_append_right _ List.mem_cons_self)
        have hmax : max CHUNK NAME_MAX < 2 ^ 32 := by decide
        omega
      · rw [hnew]
        exact Nat.two_pow_pos 32
    · show init.length < 2 ^ 16
      have hmul := Arena.chunks_mul_le CHUNK hpacked
      rw [hchunks, List.length_append, List.length_singleton, Nat.add_sub_cancel, hused] at hmul
      have hle : init.length * (CHUNK - NAME_MAX) ≤ (2 ^ 16 - 1) * (CHUNK - NAME_MAX) :=
        le_trans hmul hroom
      have := Nat.le_of_mul_le_mul_right hle (by decide)
      omega
    · show (utf8 name).length < 2 ^ 16
      have : NAME_MAX < 2 ^ 16 := by decide
      omega
  exact ⟨_, _, if_pos hfits, hpacked, hused, Arena.get_push CHUNK names _,
    fun s run hs => Arena.get_push_of_get CHUNK _ hs⟩

/-- A node is written: the others, and what the keys name, stay. -/
structure Wrote (m m' : DirMap) (id parent : Nat) (name : Text) : Prop where
  sound : m'.Sound
  used : m'.names.used = m.names.used + (utf8 name).length
  nodes : m'.nodes.length = max m.nodes.length (id + 1)
  link : m'.link id = some (parentOf parent, name)
  others : ∀ i, i ≠ id → m'.link i = m.link i
  byKey : m'.byKey = m.byKey
  outside : m'.outside = m.outside
  devices : m'.devices = m.devices
  tags : m'.tags = m.tags

/-- What a node is called does not change when names are put into the arena. -/
theorem link_names {m : DirMap} {names : Arena UInt8} {nodes : List Node} {i : Nat} (h : m.Sound)
    (hnames : ∀ s run, m.names.get s = some run → names.get s = some run)
    (hi : nodes[i]? = m.nodes[i]?) :
    link { m with names := names, nodes := nodes } i = m.link i := by
  unfold link
  show (nodes[i]?).map _ = _
  rw [hi]
  cases hnode : m.nodes[i]? with
  | none => rfl
  | some node =>
    obtain ⟨name, hname⟩ := h.slots node (List.mem_of_getElem? hnode)
    show some (parentOf node.parent, nameText names node.name) =
      some (parentOf node.parent, nameText m.names node.name)
    rw [nameText_of_get hname, nameText_of_get (hnames _ _ hname)]

variable {m m' : DirMap} {name : Text} {parent id : Nat}

theorem addNode_some (parent : Nat) (name : Text) (h : m.Sound) (hlen : (utf8 name).length ≤ NAME_MAX)
    (hroom : m.names.used + (utf8 name).length ≤ NAME_ROOM) (hnodes : m.nodes.length < NO_PARENT) :
    ∃ m', m.addNode parent name = some (m', m.nodes.length) ∧
      Wrote m m' m.nodes.length parent name := by
  obtain ⟨names, slot, hpush, hpacked, hused, hget, hstay⟩ := pushName_some h.packed hlen hroom
  refine ⟨{ m with names := names, nodes := m.nodes ++ [⟨parent, slot⟩] }, ?_, ?_⟩
  · unfold addNode
    rw [hpush, Option.bind_some]
    exact if_pos (lt_trans hnodes (by decide))
  · refine ⟨⟨fun node hnode => ?_, hpacked⟩, hused, ?_, ?_, fun i hi => ?_, rfl, rfl, rfl, rfl⟩
    · rcases List.mem_append.mp hnode with hnode | hnode
      · obtain ⟨name', hname'⟩ := h.slots node hnode
        exact ⟨name', hstay _ _ hname'⟩
      · rw [List.mem_singleton.mp hnode]
        exact ⟨name, hget⟩
    · show (m.nodes ++ [_]).length = _
      rw [List.length_append, List.length_singleton]
      omega
    · show ((m.nodes ++ [(⟨parent, slot⟩ : Node)])[m.nodes.length]?).map _ = _
      rw [List.getElem?_concat_length]
      show some (parentOf parent, nameText names slot) = _
      rw [nameText_of_get hget]
    · apply link_names h hstay
      by_cases hlt : i < m.nodes.length
      · exact List.getElem?_append_left hlt
      · rw [List.getElem?_eq_none (by rw [List.length_append, List.length_singleton]; omega),
          List.getElem?_eq_none (by omega)]

theorem setNode_some (parent : Nat) (name : Text) (h : m.Sound) (hlen : (utf8 name).length ≤ NAME_MAX)
    (hroom : m.names.used + (utf8 name).length ≤ NAME_ROOM) (hid : id < m.nodes.length) :
    ∃ m', m.setNode id parent name = some m' ∧ Wrote m m' id parent name := by
  obtain ⟨names, slot, hpush, hpacked, hused, hget, hstay⟩ := pushName_some h.packed hlen hroom
  refine ⟨{ m with names := names, nodes := m.nodes.set id ⟨parent, slot⟩ }, ?_, ?_⟩
  · unfold setNode
    rw [hpush]
    rfl
  · refine ⟨⟨fun node hnode => ?_, hpacked⟩, hused, ?_, ?_, fun i hi => ?_, rfl, rfl, rfl, rfl⟩
    · rcases List.mem_or_eq_of_mem_set hnode with hnode | rfl
      · obtain ⟨name', hname'⟩ := h.slots node hnode
        exact ⟨name', hstay _ _ hname'⟩
      · exact ⟨name, hget⟩
    · show (m.nodes.set id _).length = _
      rw [List.length_set]
      omega
    · show ((m.nodes.set id (⟨parent, slot⟩ : Node))[id]?).map _ = _
      rw [List.getElem?_set_self hid]
      show some (parentOf parent, nameText names slot) = _
      rw [nameText_of_get hget]
    · exact link_names h hstay (List.getElem?_set_ne fun h => hi h.symm)

theorem lt_of_link {l : Option Nat × Text} (h : m.link id = some l) : id < m.nodes.length := by
  obtain ⟨node, hnode, -⟩ := Option.map_eq_some_iff.mp h
  exact (List.getElem?_eq_some_iff.mp hnode).1

/-! ## Reading a path back -/

/-- The names a climb found, root first. -/
def spelled (m : DirMap) (slots : List Slot) : Text :=
  (slots.reverse.map (nameText m.names)).foldl writeName []

theorem components_eq (m : DirMap) (id : Nat) : m.components id =
    (climb m.nodes MAX_DEPTH id).map fun slots => slots.reverse.map (nameText m.names) := by
  unfold components
  congr 1
  funext slots
  dsimp only
  rw [← List.reverse_append, List.take_append_drop]

theorem writePath_eq (m : DirMap) (id : Nat) :
    m.writePath id = (climb m.nodes MAX_DEPTH id).map m.spelled := by
  unfold writePath
  rw [components_eq, Option.map_map]
  rfl

/-- One step of a climb. -/
theorem climb_succ (fuel : Nat) {l : Option Nat × Text} (h : m.link id = some l) :
    ∃ slot, nameText m.names slot = l.2 ∧ climb m.nodes (fuel + 1) id =
      match l.1 with
      | none => some [slot]
      | some parent => (climb m.nodes fuel parent).map (slot :: ·) := by
  obtain ⟨node, hnode, rfl⟩ := Option.map_eq_some_iff.mp h
  refine ⟨node.name, rfl, ?_⟩
  unfold parentOf
  rw [climb, hnode]
  dsimp only
  by_cases hparent : node.parent = NO_PARENT
  · rw [if_pos hparent, if_pos hparent]
  · rw [if_neg hparent, if_neg hparent]

theorem isPrefixOf_cut {name rest : Text} (h : name.isPrefixOf rest = true) :
    name ++ rest.drop name.length = rest := by
  obtain ⟨tail, htail⟩ := List.isPrefixOf_iff_prefix.mp h
  rw [← htail, List.drop_left]

/-- What one component does to both. -/
theorem matchName_some {seen rest name : Text} {at_ : Text × Text}
    (h : matchName (some (seen, rest)) name = some at_) :
    at_.1 ++ at_.2 = seen ++ rest ∧ at_.1 = writeName seen name := by
  unfold matchName at h
  rw [Option.bind_some] at h
  unfold writeName
  dsimp only at h
  split at h
  · rename_i hsep
    rw [if_pos hsep]
    split at h
    · rename_i hhead
      rw [Option.bind_some] at h
      split at h
      · rename_i hpre
        cases h
        have hrest : rest = '/' :: rest.tail := by
          cases rest with
          | nil => cases hhead
          | cons c r =>
            rw [List.head?_cons, Option.some.injEq] at hhead
            rw [hhead, List.tail_cons]
        refine ⟨?_, by simp⟩
        show seen ++ ['/'] ++ name ++ rest.tail.drop name.length = seen ++ rest
        rw [List.append_assoc, isPrefixOf_cut hpre]
        conv_rhs => rw [hrest]
        simp
      · cases h
    · cases h
  · rename_i hsep
    rw [if_neg hsep]
    rw [Option.bind_some] at h
    dsimp only at h
    split at h
    · rename_i hpre
      cases h
      refine ⟨?_, rfl⟩
      rw [List.append_assoc, isPrefixOf_cut hpre]
    · cases h

theorem matchName_foldl {names : List Text} : ∀ {seen rest seen' rest' : Text},
    names.foldl matchName (some (seen, rest)) = some (seen', rest') →
      seen' ++ rest' = seen ++ rest ∧ seen' = names.foldl writeName seen := by
  induction names with
  | nil =>
    intro seen rest seen' rest' h
    cases h
    exact ⟨rfl, rfl⟩
  | cons name names ih =>
    intro seen rest seen' rest' h
    have hnone : ∀ names : List Text, names.foldl matchName none = none := by
      intro names
      induction names with
      | nil => rfl
      | cons name names ih => exact ih
    rw [List.foldl_cons] at h ⊢
    cases hm : matchName (some (seen, rest)) name with
    | none =>
      rw [hm, hnone] at h
      cases h
    | some at_ =>
      rw [hm] at h
      obtain ⟨hcut, hwrite⟩ := matchName_some hm
      obtain ⟨heq, hseen⟩ := ih h
      exact ⟨heq.trans hcut, by rw [hseen, hwrite]⟩

/-- A node that matches a path spells it. -/
theorem pathMatches_spelled {path : Text} (h : m.pathMatches id path = true) :
    ∃ slots, climb m.nodes MAX_DEPTH id = some slots ∧ m.spelled slots = path := by
  unfold pathMatches at h
  rw [components_eq] at h
  obtain ⟨names, hnames, h⟩ := (Option.any_eq_true _ _).mp h
  obtain ⟨slots, hslots, rfl⟩ := Option.map_eq_some_iff.mp hnames
  obtain ⟨at_, hat, hempty⟩ := (Option.any_eq_true _ _).mp h
  refine ⟨slots, hslots, ?_⟩
  obtain ⟨seen, rest⟩ := at_
  obtain ⟨heq, hseen⟩ := matchName_foldl hat
  rw [List.isEmpty_iff.mp (show rest.isEmpty = true from hempty), List.append_nil,
    List.nil_append] at heq
  show (slots.reverse.map (nameText m.names)).foldl writeName [] = path
  rw [← hseen, heq]

end DirMap

end Scour
