import Scour.Together

/-!
# Callers take turns

Every part of a call keeps the index in order beside what the others carry (`go_goes`), and so does
every hold, so every order of turns does (`Crowd.Sound.loose_run`, `Crowd.Sound.table_run`).  Two
things follow.  A fold that is put in the place of its inputs, and a segment that is written down,
leave the rows that were live, whatever happened between their parts (`moved_keeps`).  Where no file
operation fails and no flush meets a row that another caller carries, the index stands for the table
of what was applied, and when nobody carries anything it holds just that table (`together_table`).
-/

namespace Scour

/-! ## Turns -/

/-- What is asked of the state before a part of a call: that a flush goes well. -/
def Caller.asks (G : Guards) (w : World) : Caller → Prop
  | .asked .commit | .asked .publish => G.flushes false w
  | _ => True

namespace Hold

/-- Does the hold only write what is applied? -/
def writes : Hold → Bool
  | .apply _ | .collect | .flush | .persistMeta | .land _ => true
  | _ => false

def changes : Hold → List Change
  | .apply changes => changes
  | _ => []

def asks (G : Guards) (w : World) : Hold → Prop
  | .apply changes => G.changes w .default changes
  | .collect => G.collect w
  | .flush => G.flushes false w
  | _ => True

end Hold

namespace World

variable {care : Care} {w : World} {hands others : List Hand} {G : Guards} {table : Set Entry}
  {cs : List Change}

/-- Every part of a call keeps the index in order beside what the others carry. -/
theorem go_goes {x : Caller} (K : Beside G care table others)
    (h : w.Sound care (tableAfter table cs) (x.hand ++ others))
    (hf : x.Fits care w (x.hand ++ others)) (hc : care.once → w.Unfailing) (hg : x.asks G w) :
    Goes care (tableAfter table cs) w x others (x.go w) := by
  cases x with
  | asked errand =>
    cases errand with
    | commit => exact commit_goes K h hc hg
    | publish => exact publish_goes K h hc hg
    | fold which durable =>
      show Goes _ _ _ _ _ (w, if w.marked which then none else some (.unmarked which durable))
      split
      · exact .done h (.refl w others) hc
      · exact .next h (.refl w others) trivial hc
    | write number => exact copy_goes h hc
  | lifted p => exact lifted_goes h hf hc
  | building p => exact building_goes h hf hc
  | written live => exact written_goes h hf hc
  | refused p => exact refused_goes h hf.1 hf.2
  | published p => exact published_goes h hc
  | unmarked which durable =>
    exact .next (foldClaim_sound h durable) (foldClaim_onward w durable) trivial
      fun ho => ⟨(hc ho).faults, (hc ho).landed⟩
  | claimed which number durable => exact claimed_goes h hc
  | merged which number durable input => exact merged_goes h hf hc
  | folded which number durable snapshot live => exact folded_goes h hf hc
  | copied number generation deaths bytes => exact copied_goes h hf hc
  | saved number deaths live => exact saved_goes h hf hc

/-- A caller that moves rows leaves those that were live. -/
theorem go_keeps {x : Caller} (hw : w.Ok hands) (hf : x.Fits care w hands) (hm : x.moves = true) :
    (x.go w).1.liveRows.Perm w.liveRows := by
  cases x with
  | asked errand =>
    cases errand with
    | fold | write => exact List.Perm.refl _
    | commit | publish => cases hm
  | unmarked | claimed | copied => exact List.Perm.refl _
  | merged which number durable input =>
    obtain ⟨segs, -, hbytes⟩ := hf
    obtain ⟨⟨disk, hd⟩, -⟩ := foldWrite_spec (w := w) number durable hbytes
    show (w.foldWrite number input durable).world.liveRows.Perm _
    rw [hd]
    exact List.Perm.refl _
  | folded which number durable snapshot live =>
    obtain ⟨segs, hof, hl⟩ := hf
    exact foldPublish_keeps hw hof hl
  | saved number deaths live =>
    obtain ⟨l, hl, hn, hn', hg, hs⟩ := hf
    refine List.Perm.of_eq (adoptWritten_keeps hw fun l' hl' => ?_)
    obtain ⟨h1, h2, -⟩ := saved_later hl hn hn' hg hs l' hl'
    exact ⟨h1, h2⟩
  | lifted | building | written | refused | published => cases hm

/-- A hold that writes does to the table what was applied in it. -/
theorem hold_table (K : Beside G care table hands)
    (h : w.Sound care (tableAfter table cs) hands) (hf : w.Unfailing) (ho : care.once) {c : Hold}
    (hc : c.writes = true) (hg : c.asks G w) :
    (c.out w).world.Sound care (tableAfter table (cs ++ c.changes)) hands ∧
      (c.out w).world.Unfailing := by
  have h0 : Stands care table hands cs w none ∧ (care.once → w.Unfailing) := ⟨.free h, fun _ => hf⟩
  -- a hold that applies nothing
  have hnone : ∀ {r : Out Unit},
      r.Meets (fun w' _ => Stands care table hands cs w' none ∧ (care.once → w'.Unfailing))
        (fun w' => Stands care table hands cs w' none ∧ ¬ care.once) →
      r.world.Sound care (tableAfter table (cs ++ [])) hands ∧ r.world.Unfailing := by
    intro r hr
    rw [List.append_nil]
    have hkept : r.Meets (fun w' _ => w'.Sound care (tableAfter table cs) hands ∧ w'.Unfailing)
        fun w' => w'.Sound care (tableAfter table cs) hands ∧ w'.Unfailing :=
      hr.mono (fun _ _ hw => ⟨hw.1.sound, hw.2 ho⟩) fun _ hw => absurd ho hw.2
    exact hkept.world
  cases c with
  | apply changes =>
    have hall : (w.apply changes).Meets
        (fun w' _ => w'.Sound care (tableAfter table (cs ++ changes)) hands ∧ w'.Unfailing)
        fun w' => w'.Sound care (tableAfter table (cs ++ changes)) hands ∧ w'.Unfailing :=
      (K.apply h0 hg).mono (fun _ _ hw => ⟨hw.1.sound, hw.2 ho⟩)
        fun _ ⟨_, _, hw⟩ => absurd ho hw.2
    have hr : ((w.apply changes).bind fun w _ => (.ok w () : Out Unit)).Meets
        (fun w' _ => w'.Sound care (tableAfter table (cs ++ changes)) hands ∧ w'.Unfailing)
        fun w' => w'.Sound care (tableAfter table (cs ++ changes)) hands ∧ w'.Unfailing :=
      hall.bind fun _ _ hw => (Search.Outcome.meets_ok _ _ _ _).mpr hw
    exact hr.world
  | collect => exact hnone (K.collect h0 hg)
  | flush => exact hnone (K.flushMaybeElsewhere h0 hg fun he => by cases he)
  | persistMeta => exact hnone (K.persistMeta h0)
  | land number => exact hnone ((Search.Outcome.meets_ok _ _ _ _).mpr (K.land' h0 number))
  | beginGeneration | sweep | forget | abandonGeneration => cases hc

end World

namespace Crowd

variable {care : Care} {V : Set Entry} {c : Crowd} {G : Guards} {table : Set Entry}
  {cs : List Change}

/-- What the callers but one carry. -/
def others (c : Crowd) (i : Nat) : List Hand :=
  (c.callers.take i ++ c.callers.drop (i + 1)).flatMap Caller.hand

/-- The index is in order, and so is what each caller carries. -/
structure Sound (care : Care) (V : Set Entry) (c : Crowd) : Prop where
  sound : c.world.Sound care V c.hands
  fits : ∀ x ∈ c.callers, x.Fits care c.world c.hands
  calm : care.once → c.world.Unfailing

theorem callers_split {i : Nat} {x : Caller} (hx : c.callers[i]? = some x) :
    c.callers = c.callers.take i ++ x :: c.callers.drop (i + 1) := by
  obtain ⟨hi, rfl⟩ := List.getElem?_eq_some_iff.mp hx
  rw [← List.drop_eq_getElem_cons hi, List.take_append_drop]

theorem hands_split {i : Nat} {x : Caller} (hx : c.callers[i]? = some x) :
    c.hands.Perm (x.hand ++ c.others i) := by
  unfold hands others
  conv => lhs; rw [callers_split hx]
  rw [List.flatMap_append, List.flatMap_append, List.flatMap_cons]
  exact List.perm_append_comm_assoc _ _ _

theorem mem_hands_perm {hands hands' : List Hand} (hp : hands'.Perm hands) :
    ∀ n ∈ hands'.map (·.1), n ∈ hands.map (·.1) := fun _ hn => (hp.map _).mem_iff.mp hn

/-- Somebody's turn. -/
theorem Sound.go (h : c.Sound care (tableAfter table cs)) (i : Nat)
    (K : World.Beside G care table (c.others i)) (hg : ∀ x ∈ c.callers[i]?, x.asks G c.world) :
    (c.step (.go i)).Sound care (tableAfter table cs) := by
  cases hx : c.callers[i]? with
  | none =>
    have heq : c.step (.go i) = c := by simp only [step, hx]
    rwa [heq]
  | some x =>
    have hsplit := hands_split hx
    have hmem : x ∈ c.callers := List.mem_of_getElem? hx
    have hto : c.world.Onward c.hands c.world (x.hand ++ c.others i) :=
      .of_hands (mem_hands_perm hsplit.symm)
    have hgoes := World.go_goes K (h.sound.hands_perm hsplit.symm) ((h.fits x hmem).onward hto) h.calm
      (hg x hx)
    have heq : c.step (.go i) = ⟨(x.go c.world).1,
        c.callers.take i ++ (x.go c.world).2.toList ++ c.callers.drop (i + 1)⟩ := by
      simp only [step, hx]
    have hafter : (c.step (.go i)).hands.Perm (Caller.after (x.go c.world).2 ++ c.others i) := by
      rw [heq]
      unfold hands others
      simp only [List.flatMap_append]
      have hlist : (x.go c.world).2.toList.flatMap Caller.hand = Caller.after (x.go c.world).2 := by
        cases (x.go c.world).2 with
        | none => rfl
        | some y => exact List.append_nil _
      rw [hlist, List.append_assoc]
      exact List.perm_append_comm_assoc _ _ _
    have hfrom : (x.go c.world).1.Onward (Caller.after (x.go c.world).2 ++ c.others i)
        (x.go c.world).1 (c.step (.go i)).hands := .of_hands (mem_hands_perm hafter)
    have hworld : (c.step (.go i)).world = (x.go c.world).1 := by rw [heq]
    refine ⟨?_, fun y hy => ?_, ?_⟩
    · rw [hworld]
      exact hgoes.sound.hands_perm hafter
    · rw [hworld]
      have hcallers : y ∈ c.callers ∨ y ∈ (x.go c.world).2 := by
        rw [heq] at hy
        rcases List.mem_append.mp hy with hy | hy
        · rcases List.mem_append.mp hy with hy | hy
          · exact Or.inl (List.mem_of_mem_take hy)
          · exact Or.inr (Option.mem_toList.mp hy)
        · exact Or.inl (List.mem_of_mem_drop hy)
      rcases hcallers with hy | hy
      · exact (h.fits y hy).onward ((hto.trans hgoes.onward).trans hfrom)
      · exact (hgoes.fits y hy).onward hfrom
    · rw [hworld]
      exact hgoes.calm

theorem Sound.ask (h : c.Sound care V) (errand : Errand) : (c.step (.ask errand)).Sound care V := by
  have hhands : (c.step (.ask errand)).hands = c.hands := by
    show List.flatMap _ (c.callers ++ [_]) = _
    rw [List.flatMap_append]
    exact List.append_nil _
  refine ⟨?_, fun x hx => ?_, h.calm⟩
  · rw [hhands]
    exact h.sound
  · rw [hhands]
    rcases List.mem_append.mp hx with hx | hx
    · exact h.fits x hx
    · rw [List.mem_singleton.mp hx]
      exact trivial

/-! ## Whatever is asked and whatever fails -/

theorem Sound.loose_step (h : c.Sound .loosely ∅) (t : Turn) : (c.step t).Sound .loosely ∅ := by
  cases t with
  | hold hold =>
    obtain ⟨h1, h2⟩ := World.hold_onward h.sound hold
    exact ⟨h1, fun x hx => (h.fits x hx).onward h2, False.elim⟩
  | ask errand => exact h.ask errand
  | go i =>
    have h0 : c.Sound .loosely (tableAfter ∅ []) := h
    refine h0.go i (World.soundBeside .loosely ∅ (c.others i)) fun x _ => ?_
    cases x with
    | asked errand =>
      cases errand with
      | commit | publish =>
        exact ⟨⟨False.elim, False.elim, False.elim⟩, fun _ _ =>
          ⟨False.elim, False.elim, False.elim, False.elim, False.elim⟩⟩
      | fold | write => trivial
    | _ => trivial

theorem Sound.loose_run (turns : List Turn) : ∀ {c : Crowd}, c.Sound .loosely ∅ →
    (c.run turns).Sound .loosely ∅ := by
  induction turns with
  | nil => exact fun h => h
  | cons t turns ih => exact fun h => ih (h.loose_step t)

/-- An index nobody is busy with. -/
theorem sound_alone {w : World} (h : w.Sound care V []) (hc : care.once → w.Unfailing) :
    (⟨w, []⟩ : Crowd).Sound care V :=
  ⟨h, fun _ hx => absurd hx List.not_mem_nil, hc⟩

end Crowd

/-- **A fold neither loses a row nor brings one back, whatever runs beside it.**  Start from any index
there can be, let any callers take their parts in any order with any holds in between, whatever
fails: the next part of a fold, or of the writing of a segment, leaves the rows that are live. -/
theorem moved_keeps {w : World} (h : World.Lived w) (turns : List Turn) {i : Nat} {x : Caller}
    (hx : ((⟨w, []⟩ : Crowd).run turns).callers[i]? = some x) (hm : x.moves = true) :
    (((⟨w, []⟩ : Crowd).run turns).step (.go i)).world.liveRows.Perm
      ((⟨w, []⟩ : Crowd).run turns).world.liveRows := by
  obtain ⟨cs, hk⟩ := World.lived_kept World.inOrder_rule h
  have halone : (⟨w, []⟩ : Crowd).Sound .loosely ∅ :=
    Crowd.sound_alone (hk.stands.sound.loosely ∅) False.elim
  have hrun := Crowd.Sound.loose_run turns halone
  generalize (⟨w, []⟩ : Crowd).run turns = c at hx hrun ⊢
  have heq : (c.step (.go i)).world = (x.go c.world).1 := by simp only [Crowd.step, hx]
  rw [heq]
  exact World.go_keeps hrun.sound.toOk (hrun.fits x (List.mem_of_getElem? hx)) hm

/-- Two segments are merged, a row of one of them is removed meanwhile, and the fold is about to be
put in their place. -/
theorem moved_keeps_overtaken :
    let turns : List Turn := [.hold (.apply [.upsert (.file "/a"), .upsert (.file "/b")]), .hold .flush,
      .hold (.apply [.upsert (.file "/c")]), .hold .flush, .ask (.fold [1, 2] true), .go 0, .go 0,
      .go 0, .go 0, .hold (.apply [.removeSubtree (.of "/b")]), .hold .flush]
    let c := (⟨World.empty [], []⟩ : Crowd).run turns
    ∃ x, c.callers[0]? = some x ∧ x.moves = true ∧
      (c.step (.go 0)).world.liveRows.Perm c.world.liveRows := by
  intro turns c
  have hmoves : c.callers[0]?.any Caller.moves = true := by decide +kernel
  cases hx : c.callers[0]? with
  | none =>
    rw [hx] at hmoves
    cases hmoves
  | some x =>
    rw [hx] at hmoves
    exact ⟨x, rfl, hmoves, moved_keeps (.created []) turns hx hmoves⟩

/-! ## The table of what was applied -/

namespace World

/-- `Fits`, beside what other callers carry. -/
structure FitsBeside (hands : List Hand) (w : World) (e : Entry) : Prop extends w.Fits e where
  beside : ∀ x ∈ hands.flatMap (·.2), x.key ≠ e.key →
    (w.inner.hiddenPrefixes.forget e.path.bytes).covers x.path.bytes =
      w.inner.hiddenPrefixes.covers x.path.bytes

/-- `Reaches`, where the flush meets no row that another caller carries: none is at a path staged
or removed. -/
structure ReachesBeside (hands : List Hand) (w : World) (discretionary : Bool) : Prop
    extends w.Reaches discretionary where
  apart : ∀ e ∈ w.inner.staged, w.inner.hiddenPrefixes.covers e.path.bytes = false →
    e.key ∉ (hands.flatMap (·.2)).map Entry.key
  clear : ∀ e ∈ hands.flatMap (·.2), w.inner.hiddenPrefixes.covers e.path.bytes = false

/-- What is asked of a run of several callers. -/
def besideGuards (hands : List Hand) : Guards where
  stage w e := FitsBeside hands w e
  collect _ := True
  flush discretionary w := ReachesBeside hands w discretionary
  spawn _ _ := True

instance (hands : List Hand) (w : World) (e : Entry) : Decidable (FitsBeside hands w e) :=
  decidable_of_iff (w.Fits e ∧ ∀ x ∈ hands.flatMap (·.2), x.key ≠ e.key →
      (w.inner.hiddenPrefixes.forget e.path.bytes).covers x.path.bytes =
        w.inner.hiddenPrefixes.covers x.path.bytes)
    ⟨fun ⟨h1, h2⟩ => ⟨h1, h2⟩, fun ⟨h1, h2⟩ => ⟨h1, h2⟩⟩

instance (hands : List Hand) (w : World) (d : Bool) : Decidable (ReachesBeside hands w d) :=
  decidable_of_iff (w.Reaches d ∧
      (∀ e ∈ w.inner.staged, w.inner.hiddenPrefixes.covers e.path.bytes = false →
        e.key ∉ (hands.flatMap (·.2)).map Entry.key) ∧
      ∀ e ∈ hands.flatMap (·.2), w.inner.hiddenPrefixes.covers e.path.bytes = false)
    ⟨fun ⟨h1, h2, h3⟩ => ⟨h1, h2, h3⟩, fun ⟨h1, h2, h3⟩ => ⟨h1, h2, h3⟩⟩

instance besideComputes (hands : List Hand) : (besideGuards hands).Computes where
  stage w e := inferInstanceAs (Decidable (FitsBeside hands w e))
  collect _ := .isTrue trivial
  flush d w := inferInstanceAs (Decidable (ReachesBeside hands w d))
  spawn _ _ := .isTrue trivial

variable {w : World} {hands : List Hand} {table : Set Entry} {cs : List Change}

/-- Without a fault these guards are all `soundKeeper` asks for. -/
theorem besideKeeper (table : Set Entry) (hands : List Hand) :
    Beside (besideGuards hands) .fully table hands := by
  refine Keeper.weaken (soundBeside .fully table hands)
    (fun {cs w e} h hg => ?_) (fun {cs w} h _ => ?_) (fun {cs w d} h hg => ?_)
    fun {cs w p} h _ _ _ _ => ?_
  · have hg : FitsBeside hands w e := hg
    refine ⟨fun _ => hg.digest, fun _ => hg.kept, fun _ x hx => ?_, fun _ i s hi hs => ?_⟩
    · rcases hx with hx | hx
      · exact hg.others x (List.mem_append_left _ hx)
      · rcases List.mem_append.mp hx with hx | hx
        · exact hg.others x (List.mem_append_right _ hx)
        · exact hg.beside x hx
    · exact hg.slot s (by simp [hi, hs])
  · -- no build fails, so nothing comes back
    have hl := (h.2 trivial).landed
    refine ⟨fun _ => ?_, fun _ n rows hm => ?_, fun _ hne => absurd hl hne⟩
    · rw [hl, List.flatten_nil, List.append_nil]
      exact (h.1.sound.slots trivial).distinct
    · have : rows ∈ failedRows w.building.landed := List.mem_filterMap.mpr ⟨_, hm, rfl⟩
      rw [hl] at this
      cases this
  · have hg : ReachesBeside hands w d := hg
    exact ⟨fun _ => hg.full, fun _ => hg.apart, fun _ => hg.live, fun _ => hg.air, fun _ => hg.clear⟩
  · rw [Disk.fault_eq (h.2 trivial).faults]

end World

instance (G : Guards) [G.Computes] (w : World) : (x : Caller) → Decidable (x.asks G w)
  | .asked .commit | .asked .publish => inferInstanceAs (Decidable (G.flushes false w))
  | .asked (.fold ..) | .asked (.write _) => .isTrue trivial
  | .lifted _ | .building _ | .written _ | .refused _ | .published _ => .isTrue trivial
  | .unmarked .. | .claimed .. | .merged .. | .folded .. => .isTrue trivial
  | .copied .. | .saved .. => .isTrue trivial

instance (G : Guards) [hG : G.Computes] (w : World) : (h : Hold) → Decidable (h.asks G w)
  | .apply changes => Guards.decidableChanges G changes w .default
  | .collect => hG.collect w
  | .flush => inferInstanceAs (Decidable (G.flushes false w))
  | .beginGeneration | .sweep .. | .forget _ | .abandonGeneration _ => .isTrue trivial
  | .persistMeta | .land _ => .isTrue trivial

namespace Turn

def changes : Turn → List Change
  | .hold h => h.changes
  | .ask _ | .go _ => []

end Turn

namespace Crowd

open World

/-- What is asked of a turn. -/
def asks (c : Crowd) : Turn → Prop
  | .hold h => h.writes = true ∧ h.asks (besideGuards c.hands) c.world
  | .ask _ => True
  | .go i => ∀ x ∈ c.callers[i]?, x.asks (besideGuards (c.others i)) c.world

/-- What is asked of turns, one after another. -/
def asksAll (c : Crowd) : List Turn → Prop
  | [] => True
  | t :: turns => c.asks t ∧ (c.step t).asksAll turns

instance (c : Crowd) : (t : Turn) → Decidable (c.asks t)
  | .hold h => inferInstanceAs (Decidable (h.writes = true ∧ h.asks (besideGuards c.hands) c.world))
  | .ask _ => .isTrue trivial
  | .go i => inferInstanceAs (Decidable (∀ x ∈ c.callers[i]?, x.asks (besideGuards (c.others i)) c.world))

instance decidableAll : (turns : List Turn) → (c : Crowd) → Decidable (c.asksAll turns)
  | [], _ => .isTrue trivial
  | t :: turns, c =>
      have := decidableAll turns
      inferInstanceAs (Decidable (c.asks t ∧ (c.step t).asksAll turns))

/-- Nobody carries a row, and nothing waits. -/
def Quiet (c : Crowd) : Prop := c.hands.flatMap (·.2) = [] ∧ c.world.Idle

theorem Sound.table_step {c : Crowd} {table : Set Entry} {cs : List Change}
    (h : c.Sound .fully (tableAfter table cs)) {t : Turn} (hg : c.asks t) :
    (c.step t).Sound .fully (tableAfter table (cs ++ t.changes)) := by
  cases t with
  | hold hold =>
    obtain ⟨hw, hg⟩ := hg
    obtain ⟨h1, h2⟩ := hold_table (besideKeeper table c.hands) h.sound (h.calm trivial) trivial hw hg
    have ho := (hold_onward (h.sound.loosely ∅) hold).2
    exact ⟨h1, fun x hx => (h.fits x hx).onward ho, fun _ => h2⟩
  | ask errand =>
    show (c.step (.ask errand)).Sound .fully (tableAfter table (cs ++ []))
    rw [List.append_nil]
    exact h.ask errand
  | go i =>
    show (c.step (.go i)).Sound .fully (tableAfter table (cs ++ []))
    rw [List.append_nil]
    exact h.go i (besideKeeper table (c.others i)) hg

theorem Sound.table_run {table : Set Entry} (turns : List Turn) : ∀ {c : Crowd} {cs : List Change},
    c.Sound .fully (tableAfter table cs) → c.asksAll turns →
      (c.run turns).Sound .fully (tableAfter table (cs ++ turns.flatMap Turn.changes)) := by
  induction turns with
  | nil => exact fun h _ => by rwa [List.flatMap_nil, List.append_nil]
  | cons t turns ih =>
    intro c cs h hg
    have := ih (h.table_step hg.1) hg.2
    rwa [List.append_assoc] at this

end Crowd

open World

/-- **Several callers at once leave the table of what was applied.**  Let any callers commit, publish,
fold and write segments down, taking their parts in any order with applies in between, no file
operation failing and no flush meeting a row that another caller carries.  Then no two live rows ever
share a source and a path, and whenever nobody carries a row and nothing waits the live rows are
those that all the changes, in the order they were applied, leave in a table. -/
theorem together_table {w : World} (h : w.Sound .fully w.table []) (hf : w.Unfailing)
    (turns : List Turn) (hg : (⟨w, []⟩ : Crowd).asksAll turns) :
    let c := (⟨w, []⟩ : Crowd).run turns
    (c.world.liveRows.map Entry.key).Nodup ∧
      (c.Quiet → ∀ e, e ∈ c.world.liveRows ↔ e ∈ tableAfter w.table (turns.flatMap Turn.changes)) := by
  have halone : (⟨w, []⟩ : Crowd).Sound .fully (tableAfter w.table []) :=
    Crowd.sound_alone h fun _ => hf
  have hrun := Crowd.Sound.table_run turns halone hg
  rw [List.nil_append] at hrun
  generalize (⟨w, []⟩ : Crowd).run turns = c at hrun
  refine ⟨?_, fun hq e => ?_⟩
  · have hu := hrun.sound.unique trivial
    unfold rows at hu
    rw [List.append_assoc, List.map_append] at hu
    exact (List.nodup_append.mp hu).1
  · obtain ⟨hempty, hidle⟩ := hq
    have hbuffer : c.world.buffer c.hands = c.world.buffer [] := by
      unfold buffer
      simp [hempty]
    rw [← mem_table_of_idle hidle]
    have hview := hrun.sound.view trivial
    rw [hbuffer] at hview
    exact iff_of_eq (congrArg (e ∈ ·) hview)

/-- Two callers commit and publish in turns, and a file is written again between them. -/
theorem together_table_turns :
    let turns : List Turn := [.hold (.apply [.upsert (.file "/a/x"), .upsert (.file "/a/y")]),
      .ask .commit, .go 0, .hold (.apply [.upsert (.file "/b"), .removeSubtree (.of "/c")]),
      .ask .publish, .go 1, .go 0, .go 1, .go 0, .go 0,
      .hold (.apply [.removeSubtree (.of "/a/x"), .upsert (.file "/b")]), .ask .commit, .go 0, .go 0,
      .go 0, .go 0]
    let c := (⟨empty [], []⟩ : Crowd).run turns
    (c.world.liveRows.map Entry.key).Nodup ∧ (c.Quiet → ∀ e, e ∈ c.world.liveRows ↔
      e ∈ tableAfter (empty []).table (turns.flatMap Turn.changes)) :=
  together_table (empty_tabled []) ⟨rfl, rfl⟩ _ (by decide +kernel)

end Scour
