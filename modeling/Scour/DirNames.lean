import Scour.DirTree

/-!
# What the nodes of a directory map spell

`Spells` says that every node hangs off the node of the directory it is in, under its name there, so
that a climb from a node finds the path of its directory (`Spells.climb`).  Inserting keeps it,
whether the directory is met for the first time (`insertKey_new`) or was moved
(`insertKey_moved`), because both write one node, and all that are below it point at that
(`Spells.write`).
-/

namespace Scour

open Search

namespace DirMap

/-! ## What the nodes spell -/

/-- The node hangs where the directory does, under its name. -/
def Hangs (m : DirMap) (x : Hung) (k : DirKey) (id : Nat) : Prop :=
  (x.up k = none → m.link id = some (none, x.topPath)) ∧
    ∀ p n, x.up k = some (p, n) → ∃ pid, m.idOf p = some pid ∧ m.link id = some (some pid, n)

/-- A node that is only somebody's parent, with the whole path of the directory. -/
def Awaits (m : DirMap) (x : Hung) (k : DirKey) (id : Nat) : Prop :=
  ∃ path d, x.At k path d ∧ m.link id = some (none, path)

structure Spells (m : DirMap) (x : Hung) (ins : List DirKey) : Prop where
  known : ∀ k, (m.byKey k).isSome = true ↔ k ∈ ins
  unknown : ∀ k, (m.outside k).isSome = true → k ∉ ins
  met : ∀ k id, m.byKey k = some id → m.Hangs x k id
  unmet : ∀ k id, m.outside k = some id → m.Awaits x k id
  apart : ∀ k l id, m.idOf k = some id → m.idOf l = some id → k = l

theorem spells_empty (x : Hung) : Spells empty x [] where
  known := fun _ => ⟨nofun, nofun⟩
  unknown := fun _ h => by cases h
  met := fun _ _ h => by cases h
  unmet := fun _ _ h => by cases h
  apart := fun _ _ _ h => by cases h

variable {m m' : DirMap} {x x' : Hung} {ins ins' : List DirKey} {k : DirKey} {id : Nat}

theorem idOf_cases (h : m.idOf k = some id) :
    m.byKey k = some id ∨ (m.byKey k = none ∧ m.outside k = some id) := by
  unfold idOf at h
  cases hb : m.byKey k with
  | none =>
    rw [hb, Option.none_or] at h
    exact Or.inr ⟨rfl, h⟩
  | some j =>
    rw [hb, Option.some_or] at h
    exact Or.inl h

theorem idOf_of_byKey (h : m.byKey k = some id) : m.idOf k = some id := by
  unfold idOf
  rw [h, Option.some_or]

theorem Spells.lt (h : Spells m x ins) (hid : m.idOf k = some id) : id < m.nodes.length := by
  rcases idOf_cases hid with hb | ⟨-, ho⟩
  · obtain ⟨htop, hup⟩ := h.met k id hb
    cases hx : x.up k with
    | none => exact lt_of_link (htop hx)
    | some pn =>
      obtain ⟨pid, -, hl⟩ := hup pn.1 pn.2 hx
      exact lt_of_link hl
  · obtain ⟨path, d, -, hl⟩ := h.unmet k id ho
    exact lt_of_link hl

/-- Names that a climb found, and one below them. -/
theorem spelled_cons (m : DirMap) (slot : Slot) (slots : List Slot) :
    m.spelled (slot :: slots) = writeName (m.spelled slots) (nameText m.names slot) := by
  unfold spelled
  rw [List.reverse_cons, List.map_append, List.foldl_append]
  rfl

/-- A node with a whole path spells it. -/
theorem climb_whole {path : Text} (h : m.link id = some (none, path)) (fuel : Nat) :
    (∀ slots, climb m.nodes fuel id = some slots → m.spelled slots = path) ∧
      (0 < fuel → (climb m.nodes fuel id).isSome = true) := by
  cases fuel with
  | zero => exact ⟨nofun, fun h => absurd h (Nat.lt_irrefl 0)⟩
  | succ fuel =>
    obtain ⟨slot, hslot, hclimb⟩ := climb_succ fuel h
    rw [hclimb]
    refine ⟨fun slots hs => ?_, fun _ => rfl⟩
    cases hs
    rw [spelled_cons, hslot]
    rfl

/-- The nodes of a directory spell its path, if a climb comes to the end. -/
theorem Spells.climb (h : Spells m x ins) (hx : x.Ok) {path : Text} {d : Nat}
    (hat : x.At k path d) : ∀ {id : Nat}, m.idOf k = some id → ∀ fuel,
      (∀ slots, DirMap.climb m.nodes fuel id = some slots → m.spelled slots = path) ∧
        (d < fuel → (DirMap.climb m.nodes fuel id).isSome = true) := by
  -- a directory not met yet has its path for a name
  have hunmet : ∀ {k : DirKey} {path : Text} {d id : Nat}, x.At k path d →
      m.outside k = some id → ∀ fuel,
        (∀ slots, DirMap.climb m.nodes fuel id = some slots → m.spelled slots = path) ∧
          (d < fuel → (DirMap.climb m.nodes fuel id).isSome = true) := by
    intro k path d id hat ho fuel
    obtain ⟨path', d', hat', hl⟩ := h.unmet k id ho
    obtain ⟨rfl, rfl⟩ := hat.unique hx hat'
    obtain ⟨hs, hc⟩ := climb_whole hl fuel
    exact ⟨hs, fun hd => hc (by omega)⟩
  induction hat with
  | top =>
    intro id hid fuel
    rcases idOf_cases hid with hb | ⟨-, ho⟩
    · obtain ⟨hs, hc⟩ := climb_whole ((h.met _ id hb).1 hx.topmost) fuel
      exact ⟨hs, hc⟩
    · exact hunmet .top ho fuel
  | step hp hup ih =>
    intro id hid fuel
    rcases idOf_cases hid with hb | ⟨-, ho⟩
    · obtain ⟨pid, hpid, hl⟩ := (h.met _ id hb).2 _ _ hup
      cases fuel with
      | zero => exact ⟨nofun, fun h => absurd h (Nat.not_lt_zero _)⟩
      | succ fuel =>
        obtain ⟨slot, hslot, hclimb⟩ := climb_succ fuel hl
        replace hclimb : DirMap.climb m.nodes (fuel + 1) id =
          (DirMap.climb m.nodes fuel pid).map (slot :: ·) := hclimb
        obtain ⟨hs, hc⟩ := ih hpid fuel
        rw [hclimb]
        refine ⟨fun slots hslots => ?_, fun hd => ?_⟩
        · obtain ⟨slots', hslots', rfl⟩ := Option.map_eq_some_iff.mp hslots
          rw [spelled_cons, hs slots' hslots', hslot]
          exact (hp.isAbs hx).writeName_eq _
        · rw [Option.isSome_map]
          exact hc (by omega)
    · exact hunmet (.step hp hup) ho fuel

/-! ## One node written -/

/-- One directory's node is written, and the others' are what they were. -/
theorem Spells.write (h : Spells m x ins) (k₀ : DirKey) (id₀ : Nat)
    (hids : ∀ k, m'.idOf k = if k = k₀ then some id₀ else m.idOf k)
    (hfresh : m.idOf k₀ = some id₀ ∨ (m.idOf k₀ = none ∧ ∀ k, m.idOf k ≠ some id₀))
    (hlinks : ∀ i, i ≠ id₀ → m'.link i = m.link i)
    (hbyKey : ∀ k, k ≠ k₀ → m'.byKey k = m.byKey k)
    (houtside : ∀ k, k ≠ k₀ → m'.outside k = m.outside k)
    (hins : ∀ k, k ≠ k₀ → (k ∈ ins' ↔ k ∈ ins)) (htop : x'.topPath = x.topPath)
    (hup : ∀ k, k ≠ k₀ → x'.up k = x.up k)
    (hat : ∀ k id path d, k ≠ k₀ → m.outside k = some id → x.At k path d → x'.At k path d)
    (hself : (m'.byKey k₀ = some id₀ ∧ m'.outside k₀ = none ∧ k₀ ∈ ins' ∧ m'.Hangs x' k₀ id₀) ∨
      (m'.byKey k₀ = none ∧ m'.outside k₀ = some id₀ ∧ k₀ ∉ ins' ∧ m'.Awaits x' k₀ id₀)) :
    Spells m' x' ins' := by
  have hne : ∀ k id, k ≠ k₀ → m.idOf k = some id → id ≠ id₀ := by
    rintro k id hk hid rfl
    rcases hfresh with hsame | ⟨-, hnew⟩
    · exact hk (h.apart k k₀ id hid hsame)
    · exact hnew k hid
  have hkeep : ∀ k id, m.idOf k = some id → m'.idOf k = some id := by
    intro k id hid
    rw [hids]
    split
    · rename_i hk
      rcases hfresh with hsame | ⟨hnone, -⟩
      · rw [hk, hsame] at hid
        exact hid
      · rw [hk, hnone] at hid
        cases hid
    · exact hid
  refine ⟨fun k => ?_, fun k hk => ?_, fun k id hb => ?_, fun k id ho => ?_, fun k l id hk hl => ?_⟩
  · by_cases hk : k = k₀
    · subst hk
      rcases hself with ⟨hb, -, hin, -⟩ | ⟨hb, -, hin, -⟩
      · rw [hb]
        exact ⟨fun _ => hin, fun _ => rfl⟩
      · rw [hb]
        exact ⟨fun hs => (Bool.noConfusion hs), fun hs => absurd hs hin⟩
    · rw [hbyKey k hk, hins k hk]
      exact h.known k
  · by_cases hk₀ : k = k₀
    · subst hk₀
      rcases hself with ⟨-, ho, -, -⟩ | ⟨-, -, hin, -⟩
      · rw [ho] at hk
        cases hk
      · exact hin
    · rw [houtside k hk₀] at hk
      rw [hins k hk₀]
      exact h.unknown k hk
  · by_cases hk : k = k₀
    · subst hk
      rcases hself with ⟨hb', -, -, hh⟩ | ⟨hb', -, -, -⟩
      · rw [hb'] at hb
        cases hb
        exact hh
      · rw [hb'] at hb
        cases hb
    · rw [hbyKey k hk] at hb
      obtain ⟨htop', hup'⟩ := h.met k id hb
      have hid := hne k id hk (idOf_of_byKey hb)
      unfold Hangs
      rw [hup k hk, htop, hlinks id hid]
      refine ⟨htop', fun p n hpn => ?_⟩
      obtain ⟨pid, hpid, hl⟩ := hup' p n hpn
      exact ⟨pid, hkeep p pid hpid, hl⟩
  · by_cases hk : k = k₀
    · subst hk
      rcases hself with ⟨-, ho', -, -⟩ | ⟨-, ho', -, ha⟩
      · rw [ho'] at ho
        cases ho
      · rw [ho'] at ho
        cases ho
        exact ha
    · rw [houtside k hk] at ho
      obtain ⟨path, d, hp, hl⟩ := h.unmet k id ho
      have hid : m.idOf k = some id := by
        have hb : m.byKey k = none := by
          rw [← Option.not_isSome_iff_eq_none, h.known]
          exact h.unknown k (by rw [ho]; rfl)
        unfold idOf
        rw [hb, Option.none_or, ho]
      refine ⟨path, d, hat k id path d hk ho hp, ?_⟩
      rw [hlinks id (hne k id hk hid), hl]
  · rw [hids] at hk hl
    split at hk
    · rename_i hk₀
      cases hk
      split at hl
      · rename_i hl₀
        rw [hk₀, hl₀]
      · rename_i hl₀
        exact absurd rfl (hne l _ hl₀ hl)
    · rename_i hk₀
      split at hl
      · cases hl
        exact absurd rfl (hne k _ hk₀ hk)
      · exact h.apart k l id hk hl

/-! ## A directory inserted -/

/-- What inserting changes besides the nodes. -/
structure Inserted (tagOf : Text → Option FsTag) (m m' : DirMap) (k : DirKey) (path : Text) :
    Prop where
  sound : m'.Sound
  used : m'.names.used ≤ m.names.used + (utf8 path).length
  nodes : m'.nodes.length ≤ m.nodes.length + 2
  devices : m'.devices = (m.meetDevice tagOf k path).devices
  tags : m'.tags = (m.meetDevice tagOf k path).tags

/-- A device met does not change a node. -/
theorem meetDevice_fields (tagOf : Text → Option FsTag) (m : DirMap) (k : DirKey) (path : Text) :
    (m.meetDevice tagOf k path).byKey = m.byKey ∧ (m.meetDevice tagOf k path).nodes = m.nodes ∧
      (m.meetDevice tagOf k path).names = m.names ∧
        (m.meetDevice tagOf k path).outside = m.outside := by
  unfold meetDevice
  split
  · exact ⟨rfl, rfl, rfl, rfl⟩
  · exact ⟨rfl, rfl, rfl, rfl⟩

theorem link_congr (hnodes : m'.nodes = m.nodes) (hnames : m'.names = m.names) (i : Nat) :
    m'.link i = m.link i := by
  unfold link
  rw [hnodes, hnames]

theorem idOf_congr (hbyKey : m'.byKey = m.byKey) (houtside : m'.outside = m.outside) (k : DirKey) :
    m'.idOf k = m.idOf k := by
  unfold idOf
  rw [hbyKey, houtside]

theorem Spells.congr (h : Spells m x ins) (hbyKey : m'.byKey = m.byKey)
    (houtside : m'.outside = m.outside) (hlink : ∀ i, m'.link i = m.link i) :
    Spells m' x ins := by
  have hid := idOf_congr hbyKey houtside
  refine ⟨?_, ?_, fun k id hb => ?_, fun k id ho => ?_, fun k l id hk hl => ?_⟩
  · rw [hbyKey]
    exact h.known
  · rw [houtside]
    exact h.unknown
  · rw [hbyKey] at hb
    obtain ⟨htop, hup⟩ := h.met k id hb
    refine ⟨fun hk => (hlink id).trans (htop hk), fun p n hpn => ?_⟩
    obtain ⟨pid, hpid, hl⟩ := hup p n hpn
    exact ⟨pid, (hid p).trans hpid, (hlink id).trans hl⟩
  · rw [houtside] at ho
    obtain ⟨path, d, hat, hl⟩ := h.unmet k id ho
    exact ⟨path, d, hat, (hlink id).trans hl⟩
  · rw [hid] at hk hl
    exact h.apart k l id hk hl

/-- The parent key an insert is given, against the tree. -/
def Given (x : Hung) (k : DirKey) (parent : Option DirKey) (path : Text) : Prop :=
  (x.up k = none ∧ (parent = none ∨ splitName path = none)) ∨
    ∃ p n, x.up k = some (p, n) ∧ parent = some p

/-- What a path hangs off, and its name there. -/
def Placed (m : DirMap) (x : Hung) (k : DirKey) (parent : Nat) (name : Text) : Prop :=
  (x.up k = none → parentOf parent = none ∧ name = x.topPath) ∧
    ∀ p n, x.up k = some (p, n) →
      ∃ pid, m.idOf p = some pid ∧ parentOf parent = some pid ∧ name = n

theorem Placed.hangs {parent : Nat} {name : Text} (h : Placed m x k parent name)
    (hids : ∀ p pid, m.idOf p = some pid → m'.idOf p = some pid)
    (hlink : m'.link id = some (parentOf parent, name)) : m'.Hangs x k id := by
  refine ⟨fun hk => ?_, fun p n hpn => ?_⟩
  · obtain ⟨hp, rfl⟩ := h.1 hk
    rw [hlink, hp]
  · obtain ⟨pid, hpid, hp, rfl⟩ := h.2 p n hpn
    exact ⟨pid, hids p pid hpid, by rw [hlink, hp]⟩

theorem parentOf_of_lt {pid : Nat} (h : pid < NO_PARENT) : parentOf pid = some pid :=
  if_neg (by omega)

theorem utf8_join_le (p n : Text) :
    (utf8 p).length + (utf8 n).length ≤ (utf8 (joinText p n)).length := by
  unfold joinText
  split
  · rename_i hp
    rw [hp]
    show (utf8 ['/']).length + (utf8 n).length ≤ (utf8 (['/'] ++ n)).length
    rw [utf8_append, List.length_append]
  · show _ ≤ (utf8 (p ++ (['/'] ++ n))).length
    rw [utf8_append, utf8_append, List.length_append, List.length_append]
    omega

/-- A node for a path is there, or is made for the directory it is in. -/
theorem placeUnder_some (h : Spells m x ins) (hs : m.Sound) (hx : x.Ok) {path : Text} {d : Nat}
    (hat : x.At k path d) {parent : Option DirKey} (hgiven : Given x k parent path)
    (hlen : (utf8 path).length ≤ NAME_MAX)
    (hroom : m.names.used + (utf8 path).length ≤ NAME_ROOM) (hnodes : m.nodes.length < NO_PARENT) :
    ∃ m₁ pid name, m.placeUnder (parent.filter (· ≠ k)) path = some (m₁, pid, name) ∧
      Spells m₁ x ins ∧ m₁.Sound ∧ Placed m₁ x k pid name ∧
      m₁.names.used + (utf8 name).length ≤ m.names.used + (utf8 path).length ∧
      m₁.nodes.length ≤ m.nodes.length + 1 ∧ m₁.devices = m.devices ∧ m₁.tags = m.tags := by
  rcases hgiven with ⟨hup, hnone⟩ | ⟨p, n, hup, rfl⟩
  · refine ⟨m, NO_PARENT, path, ?_, h, hs, ⟨fun _ => ⟨if_pos rfl, ?_⟩, ?_⟩, le_refl _, by omega, rfl,
      rfl⟩
    · unfold placeUnder
      rcases hnone with rfl | hsplit
      · rfl
      · rw [hsplit]
        cases parent.filter (· ≠ k) <;> rfl
    · cases hat with
      | top => rfl
      | step _ hup' =>
        rw [hup] at hup'
        cases hup'
    · intro p n hpn
      rw [hup] at hpn
      cases hpn
  · obtain ⟨ppath, e, hp, rfl⟩ : ∃ ppath e, x.At p ppath e ∧ path = joinText ppath n := by
      cases hat with
      | top =>
        rw [hx.topmost] at hup
        cases hup
      | step hp hup' =>
        rw [hup] at hup'
        cases hup'
        exact ⟨_, _, hp, rfl⟩
    have hne : p ≠ k := hat.ne_parent hx hup
    have hname := hx.names _ _ _ hup
    have hbytes := utf8_join_le ppath n
    have hfilter : (some p).filter (· ≠ k) = some p := by
      rw [Option.filter_some, if_pos (decide_eq_true hne)]
    have hsplit := splitName_join (hp.isAbs hx) hname
    -- the parent's node is there already
    have hthere : ∀ pid, m.idOf p = some pid → Placed m x k pid n := by
      intro pid hpid
      refine ⟨fun hk => ?_, fun p' n' hpn => ?_⟩
      · rw [hup] at hk
        cases hk
      · rw [hup] at hpn
        cases hpn
        exact ⟨pid, hpid, parentOf_of_lt (lt_trans (h.lt hpid) hnodes), rfl⟩
    rw [hfilter]
    unfold placeUnder
    rw [hsplit]
    dsimp only
    cases hb : m.byKey p with
    | some pid =>
      exact ⟨m, pid, n, rfl, h, hs, hthere pid (idOf_of_byKey hb), by omega, by omega, rfl, rfl⟩
    | none =>
      dsimp only
      cases ho : m.outside p with
      | some pid =>
        have hid : m.idOf p = some pid := by
          unfold idOf
          rw [hb, Option.none_or, ho]
        exact ⟨m, pid, n, rfl, h, hs, hthere pid hid, by omega, by omega, rfl, rfl⟩
      | none =>
        dsimp only
        obtain ⟨m₁, hadd, hw⟩ := addNode_some NO_PARENT ppath hs (by omega)
          (by omega) hnodes
        rw [hadd]
        have hid : m.idOf p = none := by
          unfold idOf
          rw [hb, Option.none_or, ho]
        let m₂ : DirMap := { m₁ with
          outside := Function.update m₁.outside p (some m.nodes.length) }
        have hout : ∀ l, m₂.outside l = if l = p then some m.nodes.length else m.outside l := by
          intro l
          show Function.update m₁.outside p _ l = _
          rw [Function.update_apply, hw.outside]
        have hby : ∀ l, m₂.byKey l = m.byKey l := fun l => congrFun hw.byKey l
        have hids : ∀ l, m₂.idOf l = if l = p then some m.nodes.length else m.idOf l := by
          intro l
          unfold idOf
          rw [hby, hout]
          split
          · rename_i hl
            rw [hl, hb, Option.none_or]
          · rfl
        have hpin : p ∉ ins := by
          rw [← h.known, hb]
          exact Bool.false_ne_true
        have hspells : Spells m₂ x ins := by
          apply h.write p m.nodes.length hids
          · exact Or.inr ⟨hid, fun l hl => absurd (h.lt hl) (Nat.lt_irrefl _)⟩
          · exact hw.others
          · exact fun l _ => hby l
          · intro l hl
            rw [hout, if_neg hl]
          · exact fun _ _ => Iff.rfl
          · rfl
          · exact fun _ _ => rfl
          · exact fun _ _ _ _ _ _ hat => hat
          · refine Or.inr ⟨by rw [hby, hb], by rw [hout, if_pos rfl], hpin, ppath, e, hp, ?_⟩
            exact hw.link
        refine ⟨m₂, m.nodes.length, n, rfl, hspells, ⟨hw.sound.slots, hw.sound.packed⟩, ?_, ?_, ?_,
          hw.devices, hw.tags⟩
        · refine ⟨fun hk => ?_, fun p' n' hpn => ?_⟩
          · rw [hup] at hk
            cases hk
          · rw [hup] at hpn
            cases hpn
            exact ⟨_, by rw [hids, if_pos rfl], parentOf_of_lt hnodes, rfl⟩
        · have hused : m₂.names.used = m.names.used + (utf8 ppath).length := hw.used
          omega
        · have : m₂.nodes.length = max m.nodes.length (m.nodes.length + 1) := hw.nodes
          omega

/-- A directory the map has not met gets a node, or takes over the one it has. -/
theorem place_new (h : Spells m x ins) (hs : m.Sound) (hk : k ∉ ins) (path : Text) {pid : Nat}
    {name : Text} (hp : Placed m x k pid name)
    (hlen : (utf8 name).length ≤ NAME_MAX) (hroom : m.names.used + (utf8 name).length ≤ NAME_ROOM)
    (hnodes : m.nodes.length < NO_PARENT) :
    ∃ m', m.place k path pid name = some m' ∧ Spells m' x (k :: ins) ∧ m'.Sound ∧
      m'.names.used = m.names.used + (utf8 name).length ∧ m'.nodes.length ≤ m.nodes.length + 1 ∧
      m'.devices = m.devices ∧ m'.tags = m.tags := by
  have hb : m.byKey k = none := by
    rw [← Option.not_isSome_iff_eq_none, h.known]
    exact hk
  have hmem : ∀ l, l ≠ k → (l ∈ k :: ins ↔ l ∈ ins) := fun l hl => by
    rw [List.mem_cons, or_iff_right hl]
  unfold place
  rw [hb]
  dsimp only
  cases ho : m.outside k with
  | some id =>
    dsimp only
    have hid : m.idOf k = some id := by
      unfold idOf
      rw [hb, Option.none_or, ho]
    have hlt := h.lt hid
    obtain ⟨m₁, hset, hw⟩ := setNode_some pid name hs hlen hroom hlt
    rw [hset]
    let m₂ : DirMap := { m₁ with
      outside := Function.update m₁.outside k none
      byKey := Function.update m₁.byKey k (some id) }
    have hby : ∀ l, m₂.byKey l = if l = k then some id else m.byKey l := by
      intro l
      show Function.update m₁.byKey k _ l = _
      rw [Function.update_apply, hw.byKey]
    have hout : ∀ l, m₂.outside l = if l = k then none else m.outside l := by
      intro l
      show Function.update m₁.outside k _ l = _
      rw [Function.update_apply, hw.outside]
    have hids : ∀ l, m₂.idOf l = if l = k then some id else m.idOf l := by
      intro l
      unfold idOf
      rw [hby, hout]
      split <;> rfl
    have hkeep : ∀ p pid, m.idOf p = some pid → m₂.idOf p = some pid := by
      intro p pid hp
      rw [hids]
      split
      · rename_i hpk
        rw [hpk, hid] at hp
        exact hp
      · exact hp
    refine ⟨m₂, rfl, ?_, ⟨hw.sound.slots, hw.sound.packed⟩, hw.used, ?_, hw.devices, hw.tags⟩
    · apply h.write k id hids (Or.inl hid) hw.others
      · intro l hl
        rw [hby, if_neg hl]
      · intro l hl
        rw [hout, if_neg hl]
      · exact hmem
      · rfl
      · exact fun _ _ => rfl
      · exact fun _ _ _ _ _ _ hat => hat
      · refine Or.inl ⟨by rw [hby, if_pos rfl], by rw [hout, if_pos rfl], List.mem_cons_self, ?_⟩
        exact hp.hangs hkeep hw.link
    · have : m₂.nodes.length = max m.nodes.length (id + 1) := hw.nodes
      omega
  | none =>
    dsimp only
    have hid : m.idOf k = none := by
      unfold idOf
      rw [hb, Option.none_or, ho]
    obtain ⟨m₁, hadd, hw⟩ := addNode_some pid name hs hlen hroom hnodes
    rw [hadd]
    let m₂ : DirMap := { m₁ with
      byKey := Function.update m₁.byKey k (some m.nodes.length) }
    have hby : ∀ l, m₂.byKey l = if l = k then some m.nodes.length else m.byKey l := by
      intro l
      show Function.update m₁.byKey k _ l = _
      rw [Function.update_apply, hw.byKey]
    have hout : ∀ l, m₂.outside l = m.outside l := fun l => congrFun hw.outside l
    have hids : ∀ l, m₂.idOf l = if l = k then some m.nodes.length else m.idOf l := by
      intro l
      unfold idOf
      rw [hby, hout]
      split <;> rfl
    have hkeep : ∀ p pid, m.idOf p = some pid → m₂.idOf p = some pid := by
      intro p pid hpid
      rw [hids, if_neg, hpid]
      rintro rfl
      rw [hid] at hpid
      cases hpid
    refine ⟨m₂, rfl, ?_, ⟨hw.sound.slots, hw.sound.packed⟩, hw.used, ?_, hw.devices, hw.tags⟩
    · apply h.write k m.nodes.length hids
      · exact Or.inr ⟨hid, fun l hl => absurd (h.lt hl) (Nat.lt_irrefl _)⟩
      · exact hw.others
      · intro l hl
        rw [hby, if_neg hl]
      · exact fun l _ => hout l
      · exact hmem
      · rfl
      · exact fun _ _ => rfl
      · exact fun _ _ _ _ _ _ hat => hat
      · refine Or.inl ⟨by rw [hby, if_pos rfl], by rw [hout, ho], List.mem_cons_self, ?_⟩
        exact hp.hangs hkeep hw.link
    · have : m₂.nodes.length = max m.nodes.length (m.nodes.length + 1) := hw.nodes
      omega

theorem utf8_name_le {pid : Nat} {name : Text} (hp : Placed m x k pid name) (hx : x.Ok)
    {path : Text} {d : Nat} (hat : x.At k path d) : (utf8 name).length ≤ (utf8 path).length := by
  cases hat with
  | top => rw [(hp.1 hx.topmost).2]
  | step hq hup =>
    obtain ⟨-, -, -, rfl⟩ := hp.2 _ _ hup
    have := utf8_join_le (by assumption) name
    omega

/-- **A directory not met yet is inserted.** -/
theorem insertKey_new (tagOf : Text → Option FsTag) (h : Spells m x ins) (hs : m.Sound)
    (hx : x.Ok) (hk : k ∉ ins) {path : Text} {d : Nat} (hat : x.At k path d)
    {parent : Option DirKey} (hgiven : Given x k parent path) (hlen : (utf8 path).length ≤ NAME_MAX)
    (hroom : m.names.used + (utf8 path).length ≤ NAME_ROOM)
    (hnodes : m.nodes.length + 1 < NO_PARENT) :
    ∃ m', m.insertKey tagOf k parent path = some m' ∧ Spells m' x (k :: ins) ∧
      Inserted tagOf m m' k path := by
  obtain ⟨hbyKey, hnodes', hnames, houtside⟩ := meetDevice_fields tagOf m k path
  have h₀ : Spells (m.meetDevice tagOf k path) x ins :=
    h.congr hbyKey houtside (link_congr hnodes' hnames)
  have hs₀ : (m.meetDevice tagOf k path).Sound := by
    refine ⟨?_, ?_⟩
    · rw [hnodes', hnames]
      exact hs.slots
    · rw [hnames]
      exact hs.packed
  obtain ⟨m₁, pid, name, hplace, h₁, hs₁, hp, hused, hlen₁, hdev, htags⟩ :=
    placeUnder_some h₀ hs₀ hx hat hgiven hlen (by rw [hnames]; exact hroom) (by rw [hnodes']; omega)
  rw [hnames] at hused
  rw [hnodes'] at hlen₁
  have hname := utf8_name_le hp hx hat
  obtain ⟨m', hput, h', hs', hused', hlen', hdev', htags'⟩ := place_new h₁ hs₁ hk path hp
    (by omega) (by omega) (by omega)
  refine ⟨m', ?_, h', hs', by omega, by omega, hdev'.trans hdev, htags'.trans htags⟩
  unfold insertKey
  rw [hplace, Option.bind_some]
  exact hput

/-- **A directory the map knows already is inserted again**, where it is. -/
theorem insertKey_again (tagOf : Text → Option FsTag) (h : Spells m x ins) (hs : m.Sound)
    (hx : x.Ok) (hk : k ∈ ins) {path : Text} {d : Nat} (hat : x.At k path d)
    {parent : Option DirKey} (hgiven : Given x k parent path) (hlen : (utf8 path).length ≤ NAME_MAX)
    (hroom : m.names.used + (utf8 path).length ≤ NAME_ROOM)
    (hnodes : m.nodes.length + 1 < NO_PARENT) :
    ∃ m', m.insertKey tagOf k parent path = some m' ∧ Spells m' x ins ∧
      Inserted tagOf m m' k path := by
  obtain ⟨hbyKey, hnodes', hnames, houtside⟩ := meetDevice_fields tagOf m k path
  have h₀ : Spells (m.meetDevice tagOf k path) x ins :=
    h.congr hbyKey houtside (link_congr hnodes' hnames)
  have hs₀ : (m.meetDevice tagOf k path).Sound := by
    refine ⟨?_, ?_⟩
    · rw [hnodes', hnames]
      exact hs.slots
    · rw [hnames]
      exact hs.packed
  obtain ⟨m₁, pid, name, hplace, h₁, hs₁, hp, hused, hlen₁, hdev, htags⟩ :=
    placeUnder_some h₀ hs₀ hx hat hgiven hlen (by rw [hnames]; exact hroom) (by rw [hnodes']; omega)
  rw [hnames] at hused
  rw [hnodes'] at hlen₁
  have hname := utf8_name_le hp hx hat
  obtain ⟨id, hid⟩ := Option.isSome_iff_exists.mp ((h₁.known k).mpr hk)
  have hlt := h₁.lt (idOf_of_byKey hid)
  unfold insertKey
  rw [hplace, Option.bind_some]
  dsimp only
  unfold place
  rw [hid]
  dsimp only
  split
  · exact ⟨m₁, rfl, h₁, hs₁, by omega, by omega, hdev, htags⟩
  · obtain ⟨m₂, hset, hw⟩ := setNode_some pid name hs₁ (by omega) (by omega) hlt
    have hids := idOf_congr hw.byKey hw.outside
    have hlen₂ := hw.nodes
    have hused₂ := hw.used
    refine ⟨m₂, hset, ?_, hw.sound, by omega, by omega, hw.devices.trans hdev, hw.tags.trans htags⟩
    apply h₁.write k id
    · intro l
      rw [hids]
      split
      · rename_i hl
        rw [hl]
        exact idOf_of_byKey hid
      · rfl
    · exact Or.inl (idOf_of_byKey hid)
    · exact hw.others
    · exact fun l _ => congrFun hw.byKey l
    · exact fun l _ => congrFun hw.outside l
    · exact fun _ _ => Iff.rfl
    · rfl
    · exact fun _ _ => rfl
    · exact fun _ _ _ _ _ _ hat => hat
    · have hout : m₁.outside k = none := by
        by_contra hout
        exact h₁.unknown k (Option.isSome_iff_ne_none.mpr hout) hk
      refine Or.inl ⟨by rw [hw.byKey, hid], by rw [hw.outside, hout], hk, ?_⟩
      exact hp.hangs (fun p pid hpid => by rw [hids]; exact hpid) hw.link

/-- A tree that has grown is spelled as before. -/
theorem Spells.grow (h : Spells m x ins) (htop : x'.topPath = x.topPath)
    (hins : ∀ k ∈ ins, x'.up k = x.up k)
    (hat : ∀ {k path d}, x.At k path d → x'.At k path d) : Spells m x' ins := by
  refine ⟨h.known, h.unknown, fun k id hb => ?_, fun k id ho => ?_, h.apart⟩
  · have hk := (h.known k).mp (by rw [hb]; rfl)
    unfold Hangs
    rw [hins k hk, htop]
    exact h.met k id hb
  · obtain ⟨path, d, hp, hl⟩ := h.unmet k id ho
    exact ⟨path, d, hat hp, hl⟩

/-- **A directory that was moved is inserted again**, and its node follows it. -/
theorem insertKey_moved (tagOf : Text → Option FsTag) (h : Spells m x ins) (hs : m.Sound)
    (hx : x.Ok) (hx' : x'.Ok) (htop : x'.top = x.top) (htopPath : x'.topPath = x.topPath)
    (hothers : ∀ l, l ≠ k → x'.up l = x.up l) {q : DirKey} {n : Text}
    (hup : x'.up k = some (q, n)) (hk : k ∈ ins) (hq : q ∈ ins)
    (hunmet : ∀ l id, m.outside l = some id → l = x.top) {path path' : Text} {d d' : Nat}
    (hat : x.At k path d) (hat' : x'.At k path' d') (hlen : (utf8 path').length ≤ NAME_MAX)
    (hroom : m.names.used + (utf8 path').length ≤ NAME_ROOM)
    (hnodes : m.nodes.length < NO_PARENT) :
    ∃ m', m.insertKey tagOf k (some q) path' = some m' ∧ Spells m' x' ins ∧
      Inserted tagOf m m' k path' := by
  obtain ⟨hbyKey, hnodes', hnames, houtside⟩ := meetDevice_fields tagOf m k path'
  have h₀ : Spells (m.meetDevice tagOf k path') x ins :=
    h.congr hbyKey houtside (link_congr hnodes' hnames)
  have hs₀ : (m.meetDevice tagOf k path').Sound := by
    refine ⟨?_, ?_⟩
    · rw [hnodes', hnames]
      exact hs.slots
    · rw [hnames]
      exact hs.packed
  rw [← hnames] at hroom
  rw [← hnodes'] at hnodes
  have hne : q ≠ k := hat'.ne_parent hx' hup
  obtain ⟨qpath, e, hqat, rfl⟩ : ∃ qpath e, x'.At q qpath e ∧ path' = joinText qpath n := by
    cases hat' with
    | top =>
      rw [hx'.topmost] at hup
      cases hup
    | step hq hup' =>
      rw [hup] at hup'
      cases hup'
      exact ⟨_, _, hq, rfl⟩
  have hbytes := utf8_join_le qpath n
  have hname := hx'.names _ _ _ hup
  obtain ⟨qid, hqid⟩ := Option.isSome_iff_exists.mp ((h₀.known q).mpr hq)
  obtain ⟨id, hid⟩ := Option.isSome_iff_exists.mp ((h₀.known k).mpr hk)
  have hplace : (m.meetDevice tagOf k (joinText qpath n)).placeUnder ((some q).filter (· ≠ k))
      (joinText qpath n) = some (m.meetDevice tagOf k (joinText qpath n), qid, n) := by
    unfold placeUnder
    rw [Option.filter_some, if_pos (decide_eq_true hne), splitName_join (hqat.isAbs hx') hname]
    dsimp only
    rw [hqid]
  have hqlt := lt_trans (h₀.lt (idOf_of_byKey hqid)) hnodes
  unfold insertKey
  rw [hplace, Option.bind_some]
  dsimp only
  unfold place
  rw [hid]
  dsimp only
  split
  · -- the node spells the path already: the directory did not move
    rename_i hsame
    obtain ⟨hparent, hmatches⟩ := (Bool.and_eq_true_iff).mp hsame
    obtain ⟨slots, hslots, hspelled⟩ := pathMatches_spelled hmatches
    have hpath : joinText qpath n = path := by
      rw [← hspelled]
      exact (h₀.climb hx hat (idOf_of_byKey hid) MAX_DEPTH).1 slots hslots
    obtain ⟨node, hnode, hparent⟩ := (Option.any_eq_true _ _).mp hparent
    have hparent : node.parent = qid := eq_of_beq hparent
    have hlink : ∃ name,
        (m.meetDevice tagOf k (joinText qpath n)).link id = some (some qid, name) := by
      unfold link
      rw [hnode, Option.map_some, hparent, parentOf_of_lt hqlt]
      exact ⟨_, rfl⟩
    obtain ⟨name₀, hlink⟩ := hlink
    have hsameUp : x.up k = some (q, n) := by
      cases hat with
      | top =>
        rw [(h₀.met _ _ hid).1 hx.topmost] at hlink
        cases hlink
      | step hp hup₀ =>
        obtain ⟨pid, hpid, hl⟩ := (h₀.met _ _ hid).2 _ _ hup₀
        rw [hl] at hlink
        obtain rfl := Option.some.inj (Prod.mk.inj (Option.some.inj hlink)).1
        have hsplit := splitName_join (hp.isAbs hx) (hx.names _ _ _ hup₀)
        rw [← hpath, splitName_join (hqat.isAbs hx') hname] at hsplit
        obtain ⟨-, rfl⟩ := Prod.mk.inj (Option.some.inj hsplit)
        rw [hup₀, h₀.apart _ _ _ hpid (idOf_of_byKey hqid)]
    have hxx : x' = x := by
      obtain ⟨top, topPath, up⟩ := x
      obtain ⟨top', topPath', up'⟩ := x'
      obtain rfl : top' = top := htop
      obtain rfl : topPath' = topPath := htopPath
      congr 1
      funext l
      by_cases hl : l = k
      · rw [hl]
        exact hup.trans hsameUp.symm
      · exact hothers l hl
    rw [hxx]
    refine ⟨_, rfl, h₀, hs₀, ?_, ?_, rfl, rfl⟩
    · rw [hnames]
      omega
    · rw [hnodes']
      omega
  · obtain ⟨m₁, hset, hw⟩ := setNode_some qid n hs₀ (by omega) (by omega)
      (h₀.lt (idOf_of_byKey hid))
    have hids := idOf_congr hw.byKey hw.outside
    refine ⟨m₁, hset, ?_, hw.sound, ?_, ?_, hw.devices, hw.tags⟩
    · apply h₀.write k id
      · intro l
        rw [hids]
        split
        · rename_i hl
          rw [hl]
          exact idOf_of_byKey hid
        · rfl
      · exact Or.inl (idOf_of_byKey hid)
      · exact hw.others
      · exact fun l _ => congrFun hw.byKey l
      · exact fun l _ => congrFun hw.outside l
      · exact fun _ _ => Iff.rfl
      · exact htopPath
      · exact hothers
      · intro l id path d _ ho hlat
        obtain rfl := hunmet l id (by rw [← houtside]; exact ho)
        obtain ⟨rfl, rfl⟩ := Hung.At.unique hx .top hlat
        rw [← htop, ← htopPath]
        exact .top
      · refine Or.inl ⟨by rw [hw.byKey, hid], ?_, hk, fun hk' => ?_, fun p' n' hpn => ?_⟩
        · rw [hw.outside]
          by_contra hout
          exact h₀.unknown k (Option.isSome_iff_ne_none.mpr hout) hk
        · rw [hup] at hk'
          cases hk'
        · rw [hup] at hpn
          cases hpn
          refine ⟨qid, by rw [hids]; exact idOf_of_byKey hqid, ?_⟩
          rw [hw.link, parentOf_of_lt hqlt]
    · have hused := hw.used
      rw [hnames] at hused
      omega
    · have hlen' := hw.nodes
      have := h₀.lt (idOf_of_byKey hid)
      rw [hnodes'] at hlen' this
      omega

end DirMap

end Scour
