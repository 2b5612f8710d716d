import Scour.FanWatch

/-!
# What the watcher's map knows

The map of a watcher is `MapOk`: it spells the disk, and what it knows is below the roots.  Inserting
directories of the disk keeps it so (`insertCalls_some`), as long as they fit (`Fits`), and a disk
that grows is spelled as before (`MapOk.grow`).  What the map knows it names, and nothing else
(`MapOk.pathOf_known`, `MapOk.pathOf_unknown`).
-/

namespace Scour

open Search

namespace FanWatch

variable {U : Unicode} {K : Kernel} {x : DirDisk} {roots : List Text} {m m' : DirMap} {k p : DirKey}
  {e : Made} {n path : Text} {r : Rules}

/-! ## Below the roots -/

theorem Within.step (h : Within x roots p) (hup : x.up k = some (p, n)) : Within x roots k := by
  obtain ⟨root, hroot, a, hat, hunder⟩ := h
  exact ⟨root, hroot, a, hat, .step hunder hup⟩

theorem Within.under {c : DirKey} (h : Within x roots c) (hunder : x.hung.Under c k) :
    Within x roots k := by
  induction hunder with
  | self => exact h
  | step _ hup ih => exact ih.step hup

theorem Within.grow (hfree : x.Free e) (h : Within x roots k) : Within (x.grow e) roots k := by
  obtain ⟨root, hroot, a, hat, hunder⟩ := h
  exact ⟨root, hroot, a, hat.grow hfree, DirDisk.under_grow hfree hunder⟩

theorem at_of_grow (hx : x.Ok) (hfree : x.Free e) (h : (x.grow e).At k path) :
    k = e.key ∨ x.At k path := by
  obtain ⟨d, h⟩ := h
  induction h with
  | top => exact Or.inr ⟨0, .top⟩
  | step hp hup ih =>
    have hup' : (x.grow e).up _ = _ := hup
    rw [DirDisk.up_grow hfree] at hup'
    split at hup'
    · rename_i hk
      exact Or.inl hk
    · right
      rcases ih with rfl | hat
      · -- nothing was in it before it was made
        obtain ⟨path', hat'⟩ := hx.at_of_mem _ (hx.up_eq.mp hup')
        exact absurd rfl (hat'.ne_free hfree)
      · exact hat.child hx (hx.up_eq.mp hup')

theorem within_of_grow (hx : x.Ok) (hfree : x.Free e)
    (hroots : ∀ root ∈ roots, ∃ a, x.At a root) (h : Within (x.grow e) roots k)
    (hat : x.At k path) : Within x roots k := by
  obtain ⟨root, hroot, a, ha, hunder⟩ := h
  obtain ⟨b, hb⟩ := hroots root hroot
  have hab : some b = some a := by
    rw [← DirDisk.stat_of_at (.grow hx hfree) ha, DirDisk.stat_of_at (.grow hx hfree) (hb.grow hfree)]
  obtain rfl := Option.some.inj hab
  exact ⟨root, hroot, b, hb, DirDisk.under_of_grow hx hfree hunder hat⟩

/-- What the rules admit is in what they admit. -/
def Closed (U : Unicode) (r : Rules) (x : DirDisk) (roots : List Text) : Prop :=
  ∀ e ∈ x.made, ∀ path, x.At e.parent path → Within x roots e.parent →
    Admits U r (joinText path e.name) → Admits U r path

/-- Every directory on the way down to one that is admitted is admitted. -/
theorem Closed.above (h : Closed U r x roots) (hx : x.Ok) {c : DirKey} (hc : Within x roots c)
    (hunder : x.hung.Under c k) : ∀ {path cpath : Text}, x.At k path → Admits U r path →
      x.At c cpath → Admits U r cpath := by
  induction hunder with
  | self =>
    intro path cpath hat hadm hat'
    rw [hat.unique hx hat']
    exact hadm
  | step hunder hup ih =>
    intro path cpath hat hadm hat'
    rcases hat.cases hx with ⟨rfl, -⟩ | ⟨q, qpath, n, hq, hmem, rfl⟩
    · cases hx.hung.topmost.symm.trans hup
    · cases (hx.up_eq.mpr hmem).symm.trans hup
      exact ih hq (h _ hmem qpath hq (hc.under hunder) hadm) hat'

theorem Closed.of_grow (h : Closed U r (x.grow e) roots) (hfree : x.Free e) :
    Closed U r x roots := by
  intro f hf path hat hin
  exact h f (DirDisk.mem_grow.mpr (Or.inl hf)) path (hat.grow hfree) (hin.grow hfree)

/-! ## Calls and room -/

/-- A directory of the disk, below the roots, with what it hangs off. -/
structure CallOk (x : DirDisk) (roots : List Text) (c : InsertCall) : Prop where
  there : x.At c.key c.path
  given : DirMap.Given x.hung c.key c.parent c.path
  within : Within x roots c.key

theorem callOk_callAt (hx : x.Ok) (hat : x.At k path) (hin : Within x roots k) :
    CallOk x roots (x.callAt k path) := ⟨hat, DirDisk.callAt_given hx hat, hin⟩

theorem CallOk.grow (hfree : x.Free e) {c : InsertCall} (h : CallOk x roots c) :
    CallOk (x.grow e) roots c := by
  refine ⟨h.there.grow hfree, ?_, h.within.grow hfree⟩
  rcases h.given with ⟨hup, hnone⟩ | ⟨p, n, hup, hp⟩
  · left
    refine ⟨?_, hnone⟩
    show (x.grow e).up c.key = none
    rw [DirDisk.up_grow hfree, if_neg (h.there.ne_free hfree)]
    exact hup
  · exact Or.inr ⟨p, n, DirDisk.up_grow_of hfree hup, hp⟩

/-- There is room in a map for directories with these paths. -/
structure Fits (m : DirMap) (paths : List Text) : Prop where
  path : ∀ path ∈ paths, (utf8 path).length ≤ DirMap.NAME_MAX
  names : m.names.used + (paths.map fun path => (utf8 path).length).sum ≤ DirMap.NAME_ROOM
  nodes : m.nodes.length + 2 * paths.length < NO_PARENT

/-- The map spells the disk, and knows nothing that is not below the roots. -/
def MapOk (K : Kernel) (m : DirMap) (x : DirDisk) (roots : List Text) : Prop :=
  ∃ ins, m.Sound ∧ m.Spells x.hung ins ∧ m.Devices K.event ins ∧
    ∀ k ∈ ins, (∃ path, x.At k path) ∧ Within x roots k

theorem mapOk_empty (K : Kernel) (x : DirDisk) (roots : List Text) :
    MapOk K DirMap.empty x roots :=
  ⟨[], DirMap.sound_empty, DirMap.spells_empty _, DirMap.devices_empty _, fun _ h => by cases h⟩

theorem MapOk.grow (h : MapOk K m x roots) (hfree : x.Free e) : MapOk K m (x.grow e) roots := by
  obtain ⟨ins, hs, hspells, hdev, hins⟩ := h
  refine ⟨ins, hs, ?_, hdev, fun k hk => ?_⟩
  · have htop : (x.grow e).hung.topPath = x.hung.topPath := rfl
    apply hspells.grow htop
    · intro k hk
      obtain ⟨⟨path, hat⟩, -⟩ := hins k hk
      show (x.grow e).up k = x.up k
      rw [DirDisk.up_grow hfree, if_neg (hat.ne_free hfree)]
    · exact DirDisk.grow_hung_at hfree
  · obtain ⟨⟨path, hat⟩, hin⟩ := hins k hk
    exact ⟨⟨path, hat.grow hfree⟩, hin.grow hfree⟩

theorem MapOk.within (h : MapOk K m x roots) (hk : (m.byKey k).isSome = true) :
    Within x roots k := by
  obtain ⟨ins, -, hspells, -, hins⟩ := h
  exact (hins k ((hspells.known k).mp hk)).2

theorem MapOk.pathOf_known (h : MapOk K m x roots) (hx : x.Ok) (hk : (m.byKey k).isSome = true)
    (hat : x.At k path) (hdepth : pathDepth path < MAX_DEPTH) :
    m.pathOf k.ino (K.event k.dev) = some path := by
  obtain ⟨ins, -, hspells, hdev, -⟩ := h
  obtain ⟨d, hat⟩ := hat
  exact hspells.pathOf hdev hx.hung ((hspells.known k).mp hk) hat hdepth

theorem MapOk.pathOf_unknown (h : MapOk K m x roots) (hk : m.byKey k = none) :
    m.pathOf k.ino (K.event k.dev) = none := by
  obtain ⟨ins, -, -, hdev, -⟩ := h
  exact hdev.pathOf_none hk

/-- One directory is inserted. -/
theorem insertKey_ok (h : MapOk K m x roots) (hx : x.Ok) {c : InsertCall} (hc : CallOk x roots c)
    (hlen : (utf8 c.path).length ≤ DirMap.NAME_MAX)
    (hroom : m.names.used + (utf8 c.path).length ≤ DirMap.NAME_ROOM)
    (hnodes : m.nodes.length + 1 < NO_PARENT) :
    ∃ m', m.insertKey (x.tagOf K) c.key c.parent c.path = some m' ∧ MapOk K m' x roots ∧
      (∀ k, (m'.byKey k).isSome = true ↔ (m.byKey k).isSome = true ∨ c.key = k) ∧
      m'.names.used ≤ m.names.used + (utf8 c.path).length ∧
      m'.nodes.length ≤ m.nodes.length + 2 := by
  obtain ⟨ins, hs, hspells, hdev, hins⟩ := h
  obtain ⟨d, hd⟩ := hc.there
  by_cases hk : c.key ∈ ins
  · obtain ⟨m', hm', hspells', hi⟩ := DirMap.insertKey_again (x.tagOf K) hspells hs hx.hung hk hd
      hc.given hlen hroom hnodes
    refine ⟨m', hm', ⟨ins, hi.sound, hspells', hdev.stay hk hi.devices hi.tags, hins⟩, fun k => ?_,
      hi.used, hi.nodes⟩
    rw [hspells'.known, hspells.known]
    constructor
    · exact Or.inl
    · rintro (hk' | rfl)
      · exact hk'
      · exact hk
  · obtain ⟨m', hm', hspells', hi⟩ := DirMap.insertKey_new (x.tagOf K) hspells hs hx.hung hk hd
      hc.given hlen hroom hnodes
    obtain ⟨mine, htag, hmine⟩ := DirDisk.tagOf_told hx K hc.there
    refine ⟨m', hm', ⟨c.key :: ins, hi.sound, hspells', hdev.meet htag hmine hi.devices hi.tags,
      fun k hk => ?_⟩, fun k => ?_, hi.used, hi.nodes⟩
    · rcases List.mem_cons.mp hk with rfl | hk
      · exact ⟨⟨c.path, hc.there⟩, hc.within⟩
      · exact hins k hk
    · rw [hspells'.known, hspells.known, List.mem_cons, or_comm, eq_comm]

/-- **Directories of the disk are inserted**, and the map knows them too. -/
theorem insertCalls_some (hx : x.Ok) {calls : List InsertCall} : ∀ {m : DirMap}, MapOk K m x roots →
    (∀ c ∈ calls, CallOk x roots c) → Fits m (calls.map InsertCall.path) →
      ∃ m', insertCalls K x m calls = some m' ∧ MapOk K m' x roots ∧
        ∀ k, (m'.byKey k).isSome = true ↔ (m.byKey k).isSome = true ∨ ∃ c ∈ calls, c.key = k := by
  induction calls with
  | nil =>
    intro m h _ _
    refine ⟨m, rfl, h, fun k => ⟨Or.inl, ?_⟩⟩
    rintro (hk | ⟨c, hc, -⟩)
    · exact hk
    · cases hc
  | cons c calls ih =>
    intro m h hcalls hfits
    have hnames := hfits.names
    have hnodes := hfits.nodes
    rw [List.map_cons, List.map_cons, List.sum_cons] at hnames
    rw [List.map_cons, List.length_cons] at hnodes
    have hlen := hfits.path c.path List.mem_cons_self
    obtain ⟨m₁, hm₁, h₁, hknown₁, hused, hlen₁⟩ :=
      insertKey_ok h hx (hcalls c List.mem_cons_self) hlen (by omega) (by omega)
    obtain ⟨m', hm', h', hknown⟩ := ih h₁ (fun d hd => hcalls d (List.mem_cons_of_mem _ hd))
      ⟨fun q hq => hfits.path q (List.mem_cons_of_mem _ hq), by omega, by omega⟩
    refine ⟨m', ?_, h', fun k => ?_⟩
    · show (m.insertKey _ _ _ _).bind _ = _
      rw [hm₁]
      exact hm'
    · rw [hknown, hknown₁, List.exists_mem_cons_iff, or_assoc]

end FanWatch

end Scour
