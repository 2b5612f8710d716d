import Scour.FanWatchMap

/-!
# What is due to a watcher's map

A directory the map does not know is `Due` while a cover of something above it is owed, a running
cover has found it or will read above it, or its event is queued.  A walk that reads one directory
more loses nothing it had to read (`read_ok`).

`Inv` is what holds in every state of a careful run: what the rules admit below the roots is known
or due, and what a retune has not found, it will, or it is due.
-/

namespace Scour

open Search

namespace FanWatch

variable {U : Unicode} {K : Kernel} {x : DirDisk} {roots : List Text} {k p : DirKey} {e : Made}
  {path : Text} {r : Rules} {w w' : DirWalk} {s s' : State}

/-! ## Walks -/

def Found (w : DirWalk) (k : DirKey) : Prop := ∃ c ∈ w.found, c.key = k

/-- At or below what the walk has to read yet. -/
def Ahead (x : DirDisk) (w : DirWalk) (k : DirKey) : Prop := ∃ t ∈ w.todo, x.hung.Under t.1 k

structure WalkOk (x : DirDisk) (roots : List Text) (w : DirWalk) : Prop where
  todo : ∀ t ∈ w.todo, x.At t.1 t.2 ∧ Within x roots t.1 ∧ Found w t.1
  found : ∀ c ∈ w.found, CallOk x roots c

theorem WalkOk.grow (hfree : x.Free e) (h : WalkOk x roots w) : WalkOk (x.grow e) roots w where
  todo := fun t ht => by
    obtain ⟨hat, hin, hfound⟩ := h.todo t ht
    exact ⟨hat.grow hfree, hin.grow hfree, hfound⟩
  found := fun c hc => (h.found c hc).grow hfree

theorem Ahead.grow (hfree : x.Free e) (h : Ahead x w k) : Ahead (x.grow e) w k := by
  obtain ⟨t, ht, hunder⟩ := h
  exact ⟨t, ht, DirDisk.under_grow hfree hunder⟩

theorem mem_admitted {l : List (DirKey × Text)} : ∀ {l' : List (DirKey × Text)},
    admitted U r l = some l' → ∀ dir, dir ∈ l' ↔ dir ∈ l ∧ Admits U r dir.2 := by
  induction l with
  | nil =>
    intro l' h dir
    cases h
    exact ⟨nofun, fun h => h.1⟩
  | cons first rest ih =>
    intro l' h dir
    obtain ⟨excluded, hexcl, h⟩ := Option.bind_eq_some_iff.mp h
    obtain ⟨l₁, hl₁, rfl⟩ := Option.map_eq_some_iff.mp h
    have hrest := ih hl₁ dir
    rw [List.mem_cons]
    cases excluded with
    | true =>
      rw [if_pos rfl, hrest]
      constructor
      · exact fun h => ⟨Or.inr h.1, h.2⟩
      · rintro ⟨rfl | hmem, hadm⟩
        · exact absurd (hexcl.symm.trans hadm) (by decide)
        · exact ⟨hmem, hadm⟩
    | false =>
      rw [if_neg Bool.false_ne_true, List.mem_cons, hrest]
      constructor
      · rintro (rfl | ⟨hmem, hadm⟩)
        · exact ⟨Or.inl rfl, hexcl⟩
        · exact ⟨Or.inr hmem, hadm⟩
      · rintro ⟨rfl | hmem, hadm⟩
        · exact Or.inl rfl
        · exact Or.inr ⟨hmem, hadm⟩

/-- A walk begins at every top that is there and not excluded. -/
theorem start_ok {tops : List Text} (hx : x.Ok)
    (htops : ∀ top ∈ tops, ∃ a, x.At a top ∧ Within x roots a)
    (h : DirWalk.start U x r tops = some w) :
    WalkOk x roots w ∧ w.rules = r ∧
      ∀ top ∈ tops, ∀ a, x.At a top → Admits U r top → ∃ t ∈ w.todo, t.1 = a := by
  obtain ⟨dirs, hdirs, rfl⟩ := Option.map_eq_some_iff.mp h
  have hmem := mem_admitted hdirs
  have htodo : ∀ t ∈ dirs, x.At t.1 t.2 ∧ Within x roots t.1 := by
    intro t ht
    obtain ⟨top, htop, hstat⟩ := List.mem_filterMap.mp ((hmem t).mp ht).1
    obtain ⟨a, hat, hin⟩ := htops top htop
    rw [DirDisk.stat_of_at hx hat] at hstat
    cases hstat
    exact ⟨hat, hin⟩
  refine ⟨⟨fun t ht => ?_, fun c hc => ?_⟩, rfl, fun top htop a hat hadm => ?_⟩
  · obtain ⟨hat, hin⟩ := htodo t ht
    exact ⟨hat, hin, x.callAt t.1 t.2, List.mem_map_of_mem ht, rfl⟩
  · obtain ⟨t, ht, rfl⟩ := List.mem_map.mp hc
    obtain ⟨hat, hin⟩ := htodo t ht
    exact callOk_callAt hx hat hin
  · refine ⟨(a, top), (hmem _).mpr ⟨?_, hadm⟩, rfl⟩
    rw [List.mem_filterMap]
    exact ⟨top, htop, by rw [DirDisk.stat_of_at hx hat, Option.map_some]⟩

theorem mem_eraseIdx_or {α : Type} {l : List α} {i : Nat} {a b : α} (ha : l[i]? = some a)
    (hb : b ∈ l) : b = a ∨ b ∈ l.eraseIdx i := by
  obtain ⟨hi, rfl⟩ := List.getElem?_eq_some_iff.mp ha
  rw [List.eraseIdx_eq_take_drop_succ, List.mem_append]
  rw [← List.take_append_drop i l, List.drop_eq_getElem_cons hi, List.mem_append,
    List.mem_cons] at hb
  rcases hb with hb | hb | hb
  · exact Or.inr (Or.inl hb)
  · exact Or.inl hb
  · exact Or.inr (Or.inr hb)

/-- **What a walk had to read, it has found or has to read after one directory more.** -/
theorem read_ok {i : Nat} (hx : x.Ok) (hw : WalkOk x roots w) (h : w.read U x i = some w') :
    WalkOk x roots w' ∧ w'.rules = w.rules ∧ (∀ k, Found w k → Found w' k) ∧
      (Closed U w.rules x roots → ∀ k path, x.At k path → Admits U w.rules path → Ahead x w k →
        Found w' k ∨ Ahead x w' k) := by
  obtain ⟨dir, hdir, h⟩ := Option.bind_eq_some_iff.mp h
  obtain ⟨dirs, hdirs, rfl⟩ := Option.map_eq_some_iff.mp h
  have hmem := mem_admitted hdirs
  obtain ⟨hdirAt, hdirIn, hdirFound⟩ := hw.todo dir (List.mem_of_getElem? hdir)
  have hchild : ∀ d ∈ dirs, ∃ n, (⟨d.1, dir.1, n⟩ : Made) ∈ x.made ∧ d.2 = joinText dir.2 n := by
    intro d hd
    obtain ⟨f, hf, rfl⟩ := List.mem_map.mp ((hmem d).mp hd).1
    obtain ⟨hf, hparent⟩ := List.mem_filter.mp hf
    refine ⟨f.name, ?_, rfl⟩
    rw [← eq_of_beq hparent]
    exact hf
  have hcallOk : ∀ d ∈ dirs, CallOk x roots ⟨d.1, some dir.1, d.2⟩ := by
    intro d hd
    obtain ⟨n, hmade, hpath⟩ := hchild d hd
    have hup := hx.up_eq.mpr hmade
    refine ⟨?_, Or.inr ⟨dir.1, n, hup, rfl⟩, hdirIn.step hup⟩
    rw [hpath]
    exact hdirAt.child hx hmade
  have hfound : ∀ k, Found w k → Found
      { w with
        todo := w.todo.eraseIdx i ++ dirs
        found := w.found ++ dirs.map fun d => ⟨d.1, some dir.1, d.2⟩ } k := by
    rintro k ⟨c, hc, hk⟩
    exact ⟨c, List.mem_append_left _ hc, hk⟩
  refine ⟨⟨fun t ht => ?_, fun c hc => ?_⟩, rfl, hfound, fun hclosed k path hat hadm hahead => ?_⟩
  · rcases List.mem_append.mp ht with ht | ht
    · obtain ⟨hat, hin, hf⟩ := hw.todo t (List.mem_of_mem_eraseIdx ht)
      exact ⟨hat, hin, hfound _ hf⟩
    · have hc := hcallOk t ht
      exact ⟨hc.there, hc.within, _, List.mem_append_right _ (List.mem_map_of_mem ht), rfl⟩
  · rcases List.mem_append.mp hc with hc | hc
    · exact hw.found c hc
    · obtain ⟨d, hd, rfl⟩ := List.mem_map.mp hc
      exact hcallOk d hd
  · obtain ⟨t, ht, hunder⟩ := hahead
    rcases mem_eraseIdx_or hdir ht with rfl | ht
    · -- what is read is the directory above it
      rcases DirDisk.under_cases hunder with rfl | ⟨c, n, hup, hunder⟩
      · exact Or.inl (hfound _ hdirFound)
      · right
        have hmade := hx.up_eq.mp hup
        have hcAt := hdirAt.child hx hmade
        have hcAdm := hclosed.above hx (hdirIn.step hup) hunder hat hadm hcAt
        refine ⟨(c, joinText t.2 n), List.mem_append_right _ ((hmem _).mpr ⟨?_, hcAdm⟩), hunder⟩
        rw [List.mem_map]
        exact ⟨_, List.mem_filter.mpr ⟨hmade, beq_self_eq_true _⟩, rfl⟩
    · exact Or.inr ⟨t, List.mem_append_left _ ht, hunder⟩

/-! ## What is due -/

def Known (s : State) (k : DirKey) : Prop := (s.map.byKey k).isSome = true

/-- Its event is queued. -/
def Queued (s : State) (k : DirKey) : Prop :=
  ∃ e ∈ s.queue, (⟨k, e.parent, e.name⟩ : Made) ∈ s.disk.made

/-- A cover of something above it is owed. -/
def Owed (s : State) (k : DirKey) : Prop :=
  ∃ top ∈ s.owed, ∃ a, s.disk.At a top ∧ s.disk.hung.Under a k

/-- A cover has found it, or will read above it. -/
def Covering (s : State) (k : DirKey) : Prop :=
  ∃ w, s.job = some (.cover w) ∧ (Found w k ∨ Ahead s.disk w k)

def Due (s : State) (k : DirKey) : Prop := Owed s k ∨ Covering s k ∨ Queued s k

/-- The event of a directory that was made where a running cover has been, in a directory the map
does not know yet. -/
structure Gap (U : Unicode) (s : State) (w : DirWalk) (e : Event) : Prop where
  read : Found w e.parent ∧ ∀ t ∈ w.todo, t.1 ≠ e.parent
  unknown : s.map.byKey e.parent = none
  missed : ∀ k, (⟨k, e.parent, e.name⟩ : Made) ∈ s.disk.made → ¬ Found w k
  admitted : ∃ path, s.disk.At e.parent path ∧ Admits U s.rules (joinText path e.name)

/-- The terms on which a step loses nothing. -/
def Careful (U : Unicode) (s : State) : Act → Prop
  | .mkdir e => ∀ path, s.disk.At e.parent path → pathDepth (joinText path e.name) < MAX_DEPTH ∧
      (Within s.disk s.roots e.parent → Admits U s.rules (joinText path e.name) →
        Admits U s.rules path)
  | .window n order =>
      Fits s.map ((order.filterMap (learned s.disk)).map InsertCall.path) ∧
        ∀ w, s.job = some (.cover w) → ∀ e ∈ s.queue.take n, ¬ Gap U s w e
  | .coverInsert => ∀ w, s.job = some (.cover w) → Fits s.map (w.found.map InsertCall.path)
  | .replace order => Fits .empty (order.map InsertCall.path) ∧
      ∀ w, s.job = some (.retune w) → Closed U w.rules s.disk s.roots
  | _ => True

/-- The terms on which a watcher starts well. -/
structure CarefulStart (U : Unicode) (s : State) (calls : List InsertCall) : Prop where
  shallow : ∀ k path, s.disk.At k path → pathDepth path < MAX_DEPTH
  closed : Closed U s.rules s.disk s.roots
  fits : Fits .empty (calls.map InsertCall.path)

/-- What holds in every state of a careful run. -/
structure Inv (U : Unicode) (K : Kernel) (s : State) : Prop where
  disk : s.disk.Ok
  roots : ∀ root ∈ s.roots, ∃ a, s.disk.At a root
  old : ∀ root ∈ s.roots, ∀ a, s.disk.At a root → ¬ Queued s a
  made : ∀ e ∈ s.queue, ∃ k, (⟨k, e.parent, e.name⟩ : Made) ∈ s.disk.made
  /-- What was made later is not what something was made in. -/
  order : s.queue.Pairwise fun e f =>
    ∀ k, (⟨k, f.parent, f.name⟩ : Made) ∈ s.disk.made → k ≠ e.parent
  shallow : ∀ k path, s.disk.At k path → pathDepth path < MAX_DEPTH
  closed : Closed U s.rules s.disk s.roots
  map : MapOk K s.map s.disk s.roots
  owed : ∀ top ∈ s.owed, ∃ a, s.disk.At a top ∧ Within s.disk s.roots a
  cover : ∀ w, s.job = some (.cover w) → WalkOk s.disk s.roots w ∧ w.rules = s.rules
  retune : ∀ w, s.job = some (.retune w) → WalkOk s.disk s.roots w ∧
    ∀ path, Admits U w.rules path → Admits U s.rules path
  due : ∀ k path, s.disk.At k path → Within s.disk s.roots k → Admits U s.rules path →
    Known s k ∨ Due s k
  /-- What a retune has not found, it will, or it is due. -/
  kept : ∀ w, s.job = some (.retune w) → Closed U w.rules s.disk s.roots → ∀ k path,
    s.disk.At k path → Within s.disk s.roots k → Admits U w.rules path →
      (Found w k ∨ Ahead s.disk w k) ∨ Due s k

end FanWatch

end Scour
