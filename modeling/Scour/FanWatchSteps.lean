import Scour.FanWatchDue

/-!
# The steps of a watcher

Every careful step keeps `Inv`.  What a window takes is learned, and then a cover of it is owed, or it
was made where a cover is still to look (`Inv.taken`).  What a retune's walk did not find is due,
because no cover runs beside it (`Inv.replace`).
-/

namespace Scour

open Search

namespace FanWatch

variable {U : Unicode} {K : Kernel} {k p : DirKey} {e : Made} {path : Text} {s s' : State}

/-! ## A directory is made -/

theorem Due.mkdir (hfree : s.disk.Free e) (h : Due s k) :
    Due { s with disk := s.disk.grow e, queue := s.queue ++ [⟨e.parent, e.name⟩] } k := by
  rcases h with ⟨top, htop, a, hat, hunder⟩ | ⟨w, hw, hwk⟩ | ⟨f, hf, hmade⟩
  · exact Or.inl ⟨top, htop, a, hat.grow hfree, DirDisk.under_grow hfree hunder⟩
  · exact Or.inr (Or.inl ⟨w, hw, hwk.imp_right (Ahead.grow hfree)⟩)
  · exact Or.inr (Or.inr ⟨f, List.mem_append_left _ hf, DirDisk.mem_grow.mpr (Or.inl hmade)⟩)

theorem Inv.mkdir (h : Inv U K s) (hfree : s.disk.Free e) (hcare : Careful U s (.mkdir e)) :
    Inv U K { s with disk := s.disk.grow e, queue := s.queue ++ [⟨e.parent, e.name⟩] } := by
  have hgrown : (s.disk.grow e).Ok := .grow h.disk hfree
  -- where the parent of an old directory is, and of the new one
  have hplace : ∀ f ∈ (s.disk.grow e).made, ∀ path, (s.disk.grow e).At f.parent path →
      s.disk.At f.parent path := by
    intro f hf path hat
    have hold : ∃ path, s.disk.At f.parent path := by
      rcases DirDisk.mem_grow.mp hf with hf | rfl
      · exact h.disk.at_of_mem f hf
      · exact hfree.parent
    obtain ⟨path', hat'⟩ := hold
    rw [(hat'.grow hfree).unique hgrown hat]
    exact hat'
  have hin : ∀ {k path}, s.disk.At k path → Within (s.disk.grow e) s.roots k →
      Within s.disk s.roots k := fun hat hin => within_of_grow h.disk hfree h.roots hin hat
  have hnew : Queued { s with disk := s.disk.grow e, queue := s.queue ++ [⟨e.parent, e.name⟩] }
      e.key :=
    ⟨_, List.mem_append_right _ (List.mem_singleton_self _), DirDisk.mem_grow.mpr (Or.inr rfl)⟩
  refine
    { disk := hgrown
      roots := fun root hroot => ?_
      old := fun root hroot a hat hq => ?_
      made := fun f hf => ?_
      order := ?_
      shallow := fun k path hat => ?_
      closed := fun f hf path hat hfin hadm => ?_
      map := h.map.grow hfree
      owed := fun top htop => ?_
      cover := fun w hw => ?_
      retune := fun w hw => ?_
      due := fun k path hat hkin hadm => ?_
      kept := fun w hw hclosed k path hat hkin hadm => ?_ }
  · obtain ⟨a, hat⟩ := h.roots root hroot
    exact ⟨a, hat.grow hfree⟩
  · obtain ⟨b, hb⟩ := h.roots root hroot
    have hab : some b = some a := by
      rw [← DirDisk.stat_of_at hgrown hat, ← DirDisk.stat_of_at hgrown (hb.grow hfree)]
    obtain rfl := Option.some.inj hab
    obtain ⟨f, hf, hmade⟩ := hq
    have hold : (⟨b, f.parent, f.name⟩ : Made) ∈ s.disk.made := by
      rcases DirDisk.mem_grow.mp hmade with hmade | rfl
      · exact hmade
      · exact absurd rfl (hb.ne_free hfree)
    rcases List.mem_append.mp hf with hf | hf
    · exact h.old root hroot b hb ⟨f, hf, hold⟩
    · rw [List.mem_singleton.mp hf] at hold
      exact hfree.apart _ hold ⟨rfl, rfl⟩
  · rcases List.mem_append.mp hf with hf | hf
    · obtain ⟨k, hk⟩ := h.made f hf
      exact ⟨k, DirDisk.mem_grow.mpr (Or.inl hk)⟩
    · rw [List.mem_singleton.mp hf]
      exact ⟨e.key, DirDisk.mem_grow.mpr (Or.inr rfl)⟩
  · show List.Pairwise _ (s.queue ++ [_])
    rw [List.pairwise_append]
    refine ⟨?_, List.pairwise_singleton _ _, fun f hf g hg k hk => ?_⟩
    · apply h.order.imp_of_mem
      intro f g hf hg hfg k hk
      rcases DirDisk.mem_grow.mp hk with hk | hk
      · exact hfg k hk
      · -- the event is of the one that was there under this name
        obtain ⟨l, hl⟩ := h.made g hg
        exact absurd (by rw [← hk]; exact ⟨rfl, rfl⟩) (hfree.apart _ hl)
    · rw [List.mem_singleton.mp hg] at hk
      have hke : k = e.key := by
        have := hgrown.only _ hk _ (DirDisk.mem_grow.mpr (Or.inr rfl)) (Or.inr ⟨rfl, rfl⟩)
        rw [← this]
      obtain ⟨l, hl⟩ := h.made f hf
      obtain ⟨path, hat⟩ := h.disk.at_of_mem _ hl
      rw [hke]
      exact fun heq => hat.ne_free hfree heq.symm
  · rcases at_of_grow h.disk hfree hat with rfl | hold
    · obtain ⟨ppath, hp⟩ := hfree.parent
      rw [((hp.grow hfree).child hgrown (DirDisk.mem_grow.mpr (Or.inr rfl))).unique hgrown hat]
      exact (hcare ppath hp).1
    · exact h.shallow k path hold
  · have hold := hplace f hf path hat
    rcases DirDisk.mem_grow.mp hf with hf | rfl
    · exact h.closed f hf path hold (hin hold hfin) hadm
    · exact (hcare path hold).2 (hin hold hfin) hadm
  · obtain ⟨a, hat, hain⟩ := h.owed top htop
    exact ⟨a, hat.grow hfree, hain.grow hfree⟩
  · exact ⟨(h.cover w hw).1.grow hfree, (h.cover w hw).2⟩
  · exact ⟨(h.retune w hw).1.grow hfree, (h.retune w hw).2⟩
  · rcases at_of_grow h.disk hfree hat with rfl | hold
    · exact Or.inr (Or.inr (Or.inr hnew))
    · exact (h.due k path hold (hin hold hkin) hadm).imp_right (Due.mkdir hfree)
  · rcases at_of_grow h.disk hfree hat with rfl | hold
    · exact Or.inr (Or.inr (Or.inr hnew))
    · exact (h.kept w hw (hclosed.of_grow hfree) k path hold (hin hold hkin) hadm).imp
        (fun hwk => hwk.imp_right (Ahead.grow hfree)) (Due.mkdir hfree)

/-! ## A window of events -/

theorem eventPath_name {dir name : Text} (hdir : IsAbs dir) (hname : name ≠ ['.'])
    (roots : List Text) : eventPath dir name roots = some (joinText dir name) := by
  unfold eventPath
  rw [if_neg hname, ← hdir.writeName_eq name]
  unfold DirMap.writeName
  by_cases hlast : dir.getLast? = some '/'
  · rw [if_pos hlast, if_neg fun h => h.2 hlast]
  · rw [if_neg hlast, if_pos ⟨hdir.ne_nil, hlast⟩]

/-- What the reader looks at: what was made in directories the map knows, and is not excluded. -/
theorem mem_looks {es : List Event} : ∀ {l : List Text}, looks U K s es = some l → ∀ full,
    full ∈ l ↔ Admits U s.rules full ∧ ∃ e ∈ es,
      (s.map.pathOf e.parent.ino (K.event e.parent.dev)).bind (eventPath · e.name s.roots) =
        some full := by
  induction es with
  | nil =>
    intro l h full
    cases h
    exact ⟨nofun, fun h => by obtain ⟨-, e, he, -⟩ := h; cases he⟩
  | cons e es ih =>
    intro l h full
    unfold looks at h
    rw [List.exists_mem_cons_iff]
    cases hpath : (s.map.pathOf e.parent.ino (K.event e.parent.dev)).bind
        (eventPath · e.name s.roots) with
    | none =>
      rw [hpath] at h
      rw [ih h full]
      simp
    | some path =>
      rw [hpath] at h
      obtain ⟨excluded, hexcl, h⟩ := Option.bind_eq_some_iff.mp h
      obtain ⟨l₁, hl₁, rfl⟩ := Option.map_eq_some_iff.mp h
      have hrest := ih hl₁ full
      cases excluded with
      | true =>
        rw [if_pos rfl, hrest]
        constructor
        · exact fun h => ⟨h.1, Or.inr h.2⟩
        · rintro ⟨hadm, heq | hmem⟩
          · cases heq
            exact absurd (hexcl.symm.trans hadm) (by decide)
          · exact ⟨hadm, hmem⟩
      | false =>
        rw [if_neg Bool.false_ne_true, List.mem_cons, hrest]
        constructor
        · rintro (rfl | ⟨hadm, hmem⟩)
          · exact ⟨hexcl, Or.inl rfl⟩
          · exact ⟨hadm, Or.inr hmem⟩
        · rintro ⟨hadm, heq | hmem⟩
          · cases heq
            exact Or.inl rfl
          · exact Or.inr ⟨hadm, hmem⟩

/-- An event is looked at if the map knows where it was. -/
theorem Inv.resolved (h : Inv U K s) {f : Event} (hmade : (⟨k, f.parent, f.name⟩ : Made) ∈ s.disk.made)
    (hat : s.disk.At k path) :
    ((s.map.byKey f.parent).isSome = true →
      (s.map.pathOf f.parent.ino (K.event f.parent.dev)).bind (eventPath · f.name s.roots) =
        some path) ∧
      (s.map.byKey f.parent = none →
        (s.map.pathOf f.parent.ino (K.event f.parent.dev)).bind (eventPath · f.name s.roots) =
          none) := by
  obtain ⟨ppath, hp⟩ := h.disk.at_of_mem _ hmade
  refine ⟨fun hknown => ?_, fun hnone => ?_⟩
  · rw [h.map.pathOf_known h.disk hknown hp (h.shallow _ _ hp), Option.bind_some,
      eventPath_name (hp.isAbs h.disk) (h.disk.named _ hmade).2,
      (hp.child h.disk hmade).unique h.disk hat]
  · rw [h.map.pathOf_unknown hnone, Option.bind_none]

/-- What is below what a running cover found, and not a gap, the cover finds too. -/
theorem Covering.child {f : Event} (hp : Covering s f.parent)
    (hgap : ∀ w, s.job = some (.cover w) → ¬ Gap U s w f) (hunknown : s.map.byKey f.parent = none)
    (hdisk : s.disk.Ok) (hmade : (⟨k, f.parent, f.name⟩ : Made) ∈ s.disk.made) {ppath : Text}
    (hpat : s.disk.At f.parent ppath) (hadm : Admits U s.rules (joinText ppath f.name)) :
    Covering s k := by
  obtain ⟨w, hw, hp⟩ := hp
  have hup := hdisk.up_eq.mpr hmade
  refine ⟨w, hw, ?_⟩
  have hbelow : Ahead s.disk w f.parent → Ahead s.disk w k := by
    rintro ⟨t, ht, hunder⟩
    exact ⟨t, ht, .step hunder hup⟩
  rcases hp with hfound | hahead
  · by_cases htodo : ∀ t ∈ w.todo, t.1 ≠ f.parent
    · left
      by_contra hmiss
      refine hgap w hw ⟨⟨hfound, htodo⟩, hunknown, fun l hl hlf => ?_, ppath, hpat, hadm⟩
      have hlk := hdisk.only _ hl _ hmade (Or.inr ⟨rfl, rfl⟩)
      obtain rfl : l = k := congrArg Made.key hlk
      exact hmiss hlf
    · right
      simp only [not_forall, not_not] at htodo
      obtain ⟨t, ht, htp⟩ := htodo
      exact hbelow ⟨t, ht, by rw [htp]; exact .self⟩
  · exact Or.inr (hbelow hahead)

/-- What a window leaves. -/
structure Windowed (U : Unicode) (K : Kernel) (s s' : State) (n : Nat) (order : List Text) : Prop where
  learned : ∃ m, insertCalls K s.disk s.map (order.filterMap (learned s.disk)) = some m ∧
    s' = { s with map := m, queue := s.queue.drop n, owed := s.owed ++ order }
  order : ∀ full, full ∈ order ↔ Admits U s.rules full ∧ ∃ e ∈ s.queue.take n,
    (s.map.pathOf e.parent.ino (K.event e.parent.dev)).bind (eventPath · e.name s.roots) = some full

theorem step_window {n : Nat} {order : List Text} (h : step U K s (.window n order) = some s') :
    Windowed U K s s' n order := by
  obtain ⟨l, hl, h⟩ := Option.bind_eq_some_iff.mp h
  split at h
  · rename_i hperm
    obtain ⟨m, hm, rfl⟩ := Option.map_eq_some_iff.mp h
    refine ⟨⟨m, hm, rfl⟩, fun full => ?_⟩
    rw [(List.isPerm_iff.mp hperm).mem_iff, List.mem_dedup, mem_looks hl]
  · cases h

/-- **What a window takes is learned, or a cover will find it.** -/
theorem Inv.taken (h : Inv U K s) {n : Nat} {order : List Text} (hwin : Windowed U K s s' n order)
    (hgap : ∀ w, s.job = some (.cover w) → ∀ e ∈ s.queue.take n, ¬ Gap U s w e)
    (hin : Within s.disk s.roots k) : ∀ {path : Text}, s.disk.At k path → Admits U s.rules path →
      ∀ f ∈ s.queue.take n, (⟨k, f.parent, f.name⟩ : Made) ∈ s.disk.made →
        Owed s' k ∨ Covering s' k := by
  obtain ⟨⟨m, hm, rfl⟩, horder⟩ := hwin
  obtain ⟨root, hroot, a, ha, hunder⟩ := hin
  induction hunder with
  | self =>
    intro path hat hadm f hf hmade
    exact absurd ⟨f, List.mem_of_mem_take hf, hmade⟩ (h.old root hroot _ ha)
  | step hunder hup ih =>
    intro path hat hadm f hf hmade
    -- it was made in the directory above it
    cases (h.disk.up_eq.mpr hmade).symm.trans hup
    obtain ⟨ppath, hp⟩ := h.disk.at_of_mem _ hmade
    have hpin : Within s.disk s.roots f.parent := ⟨root, hroot, a, ha, hunder⟩
    have hpath := (hp.child h.disk hmade).unique h.disk hat
    rw [hpath] at hadm
    have hpadm := h.closed _ hmade ppath hp hpin hadm
    obtain ⟨hlooks, -⟩ := h.resolved hmade (hp.child h.disk hmade)
    cases hknown : s.map.byKey f.parent with
    | some id =>
      -- it is learned, and a cover of it is owed
      left
      have hfull := (horder _).mpr ⟨hadm, f, hf, hlooks (by rw [hknown]; rfl)⟩
      exact ⟨_, List.mem_append_right _ hfull, _, hp.child h.disk hmade, .self⟩
    | none =>
      rcases h.due _ ppath hp hpin hpadm with hk | ⟨top, htop, b, hb, hbunder⟩ | hcov |
        ⟨g, hg, hgmade⟩
      · unfold Known at hk
        rw [hknown] at hk
        cases hk
      · exact Or.inl ⟨top, List.mem_append_left _ htop, b, hb, .step hbunder hup⟩
      · exact Or.inr (hcov.child (fun w hw => hgap w hw f hf) hknown h.disk hmade hp hadm)
      · -- the event of the directory above was queued before this one
        have hgtake : g ∈ s.queue.take n := by
          rw [← List.take_append_drop n s.queue, List.mem_append] at hg
          refine hg.resolve_right fun hgdrop => ?_
          have horder := h.order
          rw [← List.take_append_drop n s.queue, List.pairwise_append] at horder
          exact horder.2.2 f hf g hgdrop _ hgmade rfl
        rcases ih hp hpadm g hgtake hgmade with ⟨top, htop, b, hb, hbunder⟩ | hcov
        · exact Or.inl ⟨top, htop, b, hb, .step hbunder hup⟩
        · have hcov' : Covering s f.parent := hcov
          exact Or.inr (hcov'.child (fun w hw => hgap w hw f hf) hknown h.disk hmade hp hadm)

theorem Inv.window (h : Inv U K s) {n : Nat} {order : List Text}
    (hcare : Careful U s (.window n order)) (hstep : step U K s (.window n order) = some s') :
    Inv U K s' := by
  obtain ⟨hfits, hgap⟩ := hcare
  have hwin := step_window hstep
  have htaken := fun {k} => h.taken (k := k) hwin hgap
  obtain ⟨⟨m, hm, rfl⟩, horder⟩ := hwin
  -- what is looked at is there, below the roots
  have hlook : ∀ full ∈ order, ∃ a, s.disk.At a full ∧ Within s.disk s.roots a := by
    intro full hfull
    obtain ⟨-, f, hf, hpath⟩ := (horder full).mp hfull
    obtain ⟨k, hmade⟩ := h.made f (List.mem_of_mem_take hf)
    obtain ⟨ppath, hp⟩ := h.disk.at_of_mem _ hmade
    have hat := hp.child h.disk hmade
    obtain ⟨hsome, hnone⟩ := h.resolved hmade hat
    cases hknown : s.map.byKey f.parent with
    | none =>
      rw [hnone hknown] at hpath
      cases hpath
    | some id =>
      have hk : (s.map.byKey f.parent).isSome = true := by rw [hknown]; rfl
      rw [hsome hk] at hpath
      cases hpath
      exact ⟨k, hat, (h.map.within hk).step (h.disk.up_eq.mpr hmade)⟩
  have hcalls : ∀ c ∈ order.filterMap (learned s.disk), CallOk s.disk s.roots c := by
    intro c hc
    obtain ⟨full, hfull, hlearned⟩ := List.mem_filterMap.mp hc
    obtain ⟨a, hat, hin⟩ := hlook full hfull
    unfold learned at hlearned
    rw [DirDisk.stat_of_at h.disk hat, Option.map_some] at hlearned
    cases hlearned
    exact callOk_callAt h.disk hat hin
  obtain ⟨m', hm', hmap, hknown⟩ := insertCalls_some h.disk h.map hcalls hfits
  obtain rfl := Option.some.inj (hm.symm.trans hm')
  have hdue : ∀ k path, s.disk.At k path → Within s.disk s.roots k → Admits U s.rules path →
      Due s k → Due { s with map := m, queue := s.queue.drop n, owed := s.owed ++ order } k := by
    intro k path hat hin hadm hdue
    rcases hdue with ⟨top, htop, a, ha, hunder⟩ | hcov | ⟨f, hf, hmade⟩
    · exact Or.inl ⟨top, List.mem_append_left _ htop, a, ha, hunder⟩
    · exact Or.inr (Or.inl hcov)
    · rw [← List.take_append_drop n s.queue, List.mem_append] at hf
      rcases hf with hf | hf
      · rcases htaken hin hat hadm f hf hmade with howed | hcov
        · exact Or.inl howed
        · exact Or.inr (Or.inl hcov)
      · exact Or.inr (Or.inr ⟨f, hf, hmade⟩)
  exact
    { disk := h.disk
      roots := h.roots
      old := fun root hroot a hat ⟨f, hf, hmade⟩ =>
        h.old root hroot a hat ⟨f, List.mem_of_mem_drop hf, hmade⟩
      made := fun f hf => h.made f (List.mem_of_mem_drop hf)
      order := h.order.sublist (List.drop_sublist n s.queue)
      shallow := h.shallow
      closed := h.closed
      map := hmap
      owed := fun top htop => by
        rcases List.mem_append.mp htop with htop | htop
        · exact h.owed top htop
        · exact hlook top htop
      cover := h.cover
      retune := h.retune
      due := fun k path hat hin hadm => by
        rcases h.due k path hat hin hadm with hk | hd
        · exact Or.inl ((hknown k).mpr (Or.inl hk))
        · exact Or.inr (hdue k path hat hin hadm hd)
      kept := fun w hw hclosed k path hat hin hadm => by
        rcases h.kept w hw hclosed k path hat hin hadm with hwk | hd
        · exact Or.inl hwk
        · exact Or.inr (hdue k path hat hin ((h.retune w hw).2 path hadm) hd) }

/-! ## A cover -/

theorem Inv.coverStart (h : Inv U K s) {i : Nat} (hstep : step U K s (.cover i) = some s') :
    Inv U K s' := by
  simp only [step] at hstep
  split at hstep
  · rename_i top hjob htop
    obtain ⟨w, hw, rfl⟩ := Option.map_eq_some_iff.mp hstep
    have hmem := List.mem_of_getElem? htop
    obtain ⟨hwalk, hrules, hstart⟩ := start_ok h.disk
      (fun t ht => by rw [List.mem_singleton.mp ht]; exact h.owed top hmem) hw
    have hcover : ∀ w', some (Job.cover w) = some (.cover w') → w' = w := fun w' hw' => by
      cases hw'
      rfl
    refine
      { disk := h.disk
        roots := h.roots
        old := h.old
        made := h.made
        order := h.order
        shallow := h.shallow
        closed := h.closed
        map := h.map
        owed := fun t ht => h.owed t (List.mem_of_mem_eraseIdx ht)
        cover := fun w' hw' => by
          rw [hcover w' hw']
          exact ⟨hwalk, hrules⟩
        retune := fun w' hw' => by cases hw'
        due := fun k path hat hin hadm => ?_
        kept := fun w' hw' => by cases hw' }
    rcases h.due k path hat hin hadm with hk | ⟨t, ht, a, ha, hunder⟩ | ⟨w', hw', -⟩ | hq
    · exact Or.inl hk
    · rcases mem_eraseIdx_or htop ht with rfl | ht
      · obtain ⟨b, hb, hbin⟩ := h.owed t hmem
        have hab : some b = some a := by
          rw [← DirDisk.stat_of_at h.disk ha, ← DirDisk.stat_of_at h.disk hb]
        obtain rfl := Option.some.inj hab
        have hadmTop := h.closed.above h.disk hbin hunder hat hadm ha
        obtain ⟨u, hu, hub⟩ := hstart t (List.mem_singleton_self t) b ha hadmTop
        exact Or.inr (Or.inr (Or.inl ⟨w, rfl, Or.inr ⟨u, hu, by rw [hub]; exact hunder⟩⟩))
      · exact Or.inr (Or.inl ⟨t, ht, a, ha, hunder⟩)
    · rw [hjob] at hw'
      cases hw'
    · exact Or.inr (Or.inr (Or.inr hq))
  · cases hstep

theorem Inv.coverRead (h : Inv U K s) (hstep : step U K s .coverRead = some s') : Inv U K s' := by
  simp only [step] at hstep
  split at hstep
  · rename_i w hjob
    obtain ⟨w₁, hw₁, rfl⟩ := Option.map_eq_some_iff.mp hstep
    obtain ⟨hwalk, hrules⟩ := h.cover w hjob
    obtain ⟨hwalk₁, hrules₁, hfound, hahead⟩ := read_ok h.disk hwalk hw₁
    refine
      { disk := h.disk
        roots := h.roots
        old := h.old
        made := h.made
        order := h.order
        shallow := h.shallow
        closed := h.closed
        map := h.map
        owed := h.owed
        cover := fun w' hw' => by
          cases hw'
          exact ⟨hwalk₁, hrules₁.trans hrules⟩
        retune := fun w' hw' => by cases hw'
        due := fun k path hat hin hadm => ?_
        kept := fun w' hw' => by cases hw' }
    rcases h.due k path hat hin hadm with hk | howed | ⟨w', hw', hwk⟩ | hq
    · exact Or.inl hk
    · exact Or.inr (Or.inl howed)
    · cases hjob.symm.trans hw'
      right
      right
      left
      rcases hwk with hf | ha
      · exact ⟨w₁, rfl, Or.inl (hfound k hf)⟩
      · rw [hrules] at hahead
        exact ⟨w₁, rfl, hahead h.closed k path hat hadm ha⟩
    · exact Or.inr (Or.inr (Or.inr hq))
  · cases hstep

theorem Inv.coverInsert (h : Inv U K s) (hcare : Careful U s .coverInsert)
    (hstep : step U K s .coverInsert = some s') : Inv U K s' := by
  simp only [step] at hstep
  split at hstep
  · rename_i w hjob
    split at hstep
    · rename_i hdone
      obtain ⟨m, hm, rfl⟩ := Option.map_eq_some_iff.mp hstep
      obtain ⟨hwalk, -⟩ := h.cover w hjob
      obtain ⟨m', hm', hmap, hknown⟩ := insertCalls_some h.disk h.map hwalk.found (hcare w hjob)
      obtain rfl := Option.some.inj (hm.symm.trans hm')
      refine
        { disk := h.disk
          roots := h.roots
          old := h.old
          made := h.made
          order := h.order
          shallow := h.shallow
          closed := h.closed
          map := hmap
          owed := h.owed
          cover := fun w' hw' => by cases hw'
          retune := fun w' hw' => by cases hw'
          due := fun k path hat hin hadm => ?_
          kept := fun w' hw' => by cases hw' }
      rcases h.due k path hat hin hadm with hk | howed | ⟨w', hw', hwk⟩ | hq
      · exact Or.inl ((hknown k).mpr (Or.inl hk))
      · exact Or.inr (Or.inl howed)
      · cases hjob.symm.trans hw'
        rcases hwk with hfound | ⟨t, ht, -⟩
        · exact Or.inl ((hknown k).mpr (Or.inr hfound))
        · rw [List.isEmpty_iff.mp hdone] at ht
          cases ht
      · exact Or.inr (Or.inr (Or.inr hq))
    · cases hstep
  · cases hstep

/-! ## A retune -/

theorem Inv.retuneStart (h : Inv U K s) {rules : Rules} (hlegal : Legal U s (.retune rules))
    (hstep : step U K s (.retune rules) = some s') : Inv U K s' := by
  simp only [step] at hstep
  split at hstep
  · rename_i hjob
    obtain ⟨w, hw, rfl⟩ := Option.map_eq_some_iff.mp hstep
    have hroots : ∀ root ∈ s.roots, ∃ a, s.disk.At a root ∧ Within s.disk s.roots a := by
      intro root hroot
      obtain ⟨a, hat⟩ := h.roots root hroot
      exact ⟨a, hat, root, hroot, a, hat, .self⟩
    obtain ⟨hwalk, hrules, hstart⟩ := start_ok h.disk hroots hw
    refine
      { disk := h.disk
        roots := h.roots
        old := h.old
        made := h.made
        order := h.order
        shallow := h.shallow
        closed := h.closed
        map := h.map
        owed := h.owed
        cover := fun w' hw' => by cases hw'
        retune := fun w' hw' => by
          cases hw'
          rw [hrules]
          exact ⟨hwalk, hlegal⟩
        due := fun k path hat hin hadm => ?_
        kept := fun w' hw' hclosed k path hat hin hadm => ?_ }
    · rcases h.due k path hat hin hadm with hk | howed | ⟨w', hw', -⟩ | hq
      · exact Or.inl hk
      · exact Or.inr (Or.inl howed)
      · rw [hjob] at hw'
        cases hw'
      · exact Or.inr (Or.inr (Or.inr hq))
    · cases hw'
      rw [hrules] at hclosed hadm
      obtain ⟨root, hroot, a, ha, hunder⟩ := hin
      have hadmRoot := hclosed.above h.disk ⟨root, hroot, a, ha, .self⟩ hunder hat hadm ha
      obtain ⟨t, ht, hta⟩ := hstart root hroot a ha hadmRoot
      exact Or.inl (Or.inr ⟨t, ht, by rw [hta]; exact hunder⟩)
  · cases hstep

theorem Inv.retuneRead (h : Inv U K s) {i : Nat} (hstep : step U K s (.retuneRead i) = some s') :
    Inv U K s' := by
  simp only [step] at hstep
  split at hstep
  · rename_i w hjob
    obtain ⟨w₁, hw₁, rfl⟩ := Option.map_eq_some_iff.mp hstep
    obtain ⟨hwalk, hrules⟩ := h.retune w hjob
    obtain ⟨hwalk₁, hrules₁, hfound, hahead⟩ := read_ok h.disk hwalk hw₁
    have hdue : ∀ k, Due s k → Due { s with job := some (.retune w₁) } k := by
      rintro k (howed | ⟨w', hw', -⟩ | hq)
      · exact Or.inl howed
      · cases hjob.symm.trans hw'
      · exact Or.inr (Or.inr hq)
    refine
      { disk := h.disk
        roots := h.roots
        old := h.old
        made := h.made
        order := h.order
        shallow := h.shallow
        closed := h.closed
        map := h.map
        owed := h.owed
        cover := fun w' hw' => by cases hw'
        retune := fun w' hw' => by
          cases hw'
          rw [hrules₁]
          exact ⟨hwalk₁, hrules⟩
        due := fun k path hat hin hadm => (h.due k path hat hin hadm).imp_right (hdue k)
        kept := fun w' hw' hclosed k path hat hin hadm => ?_ }
    cases hw'
    rw [hrules₁] at hclosed hadm
    rcases h.kept w hjob hclosed k path hat hin hadm with (hf | ha) | hd
    · exact Or.inl (Or.inl (hfound k hf))
    · exact Or.inl (hahead hclosed k path hat hadm ha)
    · exact Or.inr (hdue k hd)
  · cases hstep

/-- **What a retune's walk missed is due.** -/
theorem Inv.replace (h : Inv U K s) {order : List InsertCall} (hcare : Careful U s (.replace order))
    (hstep : step U K s (.replace order) = some s') : Inv U K s' := by
  obtain ⟨hfits, hclosed⟩ := hcare
  simp only [step] at hstep
  split at hstep
  · rename_i w hjob
    split at hstep
    · rename_i hdone
      obtain ⟨hdone, hperm⟩ := Bool.and_eq_true_iff.mp hdone
      obtain ⟨m, hm, rfl⟩ := Option.map_eq_some_iff.mp hstep
      obtain ⟨hwalk, -⟩ := h.retune w hjob
      have hcalls : ∀ c ∈ order, CallOk s.disk s.roots c := fun c hc =>
        hwalk.found c ((List.isPerm_iff.mp hperm).mem_iff.mp hc)
      obtain ⟨m', hm', hmap, hknown⟩ :=
        insertCalls_some h.disk (mapOk_empty K s.disk s.roots) hcalls hfits
      obtain rfl := Option.some.inj (hm.symm.trans hm')
      refine
        { disk := h.disk
          roots := h.roots
          old := h.old
          made := h.made
          order := h.order
          shallow := h.shallow
          closed := hclosed w hjob
          map := hmap
          owed := h.owed
          cover := fun w' hw' => by cases hw'
          retune := fun w' hw' => by cases hw'
          due := fun k path hat hin hadm => ?_
          kept := fun w' hw' => by cases hw' }
      rcases h.kept w hjob (hclosed w hjob) k path hat hin hadm with
        (⟨c, hc, hck⟩ | ⟨t, ht, -⟩) | howed | ⟨w', hw', -⟩ | hq
      · left
        refine (hknown k).mpr (Or.inr ⟨c, ?_, hck⟩)
        exact (List.isPerm_iff.mp hperm).mem_iff.mpr hc
      · rw [List.isEmpty_iff.mp hdone] at ht
        cases ht
      · exact Or.inr (Or.inl howed)
      · cases hjob.symm.trans hw'
      · exact Or.inr (Or.inr (Or.inr hq))
    · cases hstep
  · cases hstep

end FanWatch

end Scour
