import Scour.Trash

/-!
# Trashing destroys nothing

`Inv` is what holds in every state of any number of calls whose paths are not in the trash already:
a claimed name's info file is its call's own, what has landed stays as it was, and the file system
is what the moves make of it.  `trash_keeps` is what a user is promised of it.
-/

namespace Scour.Trash

open Search (Tree)

/-! ## What a call holds -/

namespace Pc

/-- The number of the name whose info file the call has created. -/
def held : Pc → Option Nat
  | .looking n | .unclaiming n | .writing n | .moving n | .peeking n | .renaming n | .forgetting n _
  | .ok n => some n
  | .start | .claiming _ | .failed => none

/-- Whether the info file is written. -/
def written : Pc → Bool
  | .moving _ | .peeking _ | .renaming _ | .ok _ => true
  | _ => false

end Pc

variable {S : Setup} {t : Files} {i n : Nat} {a b : Pc}

theorem Turn.held_eq (h : Turn S t i a b) : b.held = a.held := by
  cases h <;> rfl

theorem Turn.written_of (h : Turn S t i a b) (hb : b.written = true) : a.written = true := by
  cases h <;> first | rfl | cases hb

theorem Turn.ne_ok (h : Turn S t i a b) : a ≠ .ok n ∧ b ≠ .ok n := by
  cases h <;> exact ⟨nofun, nofun⟩

/-- With renaming without replacing, only a move into what is moved goes another way. -/
theorem Turn.stuck (h : Turn S t i a b) (hn : S.noReplace = true)
    (ha : a = .peeking n → S.src i <+: S.landed i n) (hb : b = .peeking n ∨ b = .renaming n) :
    S.src i <+: S.landed i n := by
  cases h with
  | unable hunable =>
    rcases hb with hb | hb
    · cases hb
      refine hunable.resolve_left fun hno => ?_
      rw [hn] at hno
      cases hno
    · cases hb
  | unseen =>
    rcases hb with hb | hb
    · cases hb
    · cases hb
      exact ha rfl
  | _ => rcases hb with hb | hb <;> cases hb

theorem Drops.held (h : Drops a n b) : a.held = some n ∧ b.held = none := by
  cases h <;> exact ⟨rfl, rfl⟩

theorem Drops.not_stuck {k : Nat} (h : Drops a n b) : b ≠ .peeking k ∧ b ≠ .renaming k := by
  cases h <;> exact ⟨nofun, nofun⟩

theorem Drops.ne_ok {k : Nat} (h : Drops a n b) : a ≠ .ok k ∧ b ≠ .ok k := by
  cases h <;> exact ⟨nofun, nofun⟩

/-! ## The places -/

/-- The call's path is not one in `files/` or `info/`, nor one of these. -/
def Outside (S : Setup) (i : Nat) : Prop :=
  ¬ S.filesDir <+: S.src i ∧ ¬ S.infoDir <+: S.src i

/-- Nothing in `files/` is in `info/`. -/
theorem infoDir_not_prefix (r : Place) : ¬ S.infoDir <+: S.filesDir ++ r := by
  rintro ⟨q, h⟩
  unfold Setup.filesDir Setup.infoDir at h
  rw [List.append_assoc, List.append_assoc] at h
  exact absurd (List.cons.inj (List.append_cancel_left h)).1 (by decide)

theorem infoDir_not_prefix_landed (i n : Nat) (r : Place) :
    ¬ S.infoDir <+: S.landed i n ++ r := by
  unfold Setup.landed
  rw [List.append_assoc]
  exact infoDir_not_prefix _

/-- What is moved has no path in `dir`, unless it has `dir` itself. -/
theorem src_below {dir : Place} {p : Place} (hout : ¬ dir <+: S.src i)
    (hp : S.src i <+: dir ++ p) : S.src i <+: dir :=
  (Search.prefix_or hp (List.prefix_append dir p)).resolve_right hout

theorem src_not_prefix_files (hout : Outside S i) (hn : ¬ S.src i <+: S.landed i n) (p : Place) :
    ¬ S.src i <+: S.filesDir ++ p :=
  fun hp => hn ((src_below hout.1 hp).trans (List.prefix_append _ _))

theorem src_not_prefix_info (hout : Outside S i) (hn : ¬ S.src i <+: S.landed i n) (p : Place) :
    ¬ S.src i <+: S.infoDir ++ p := by
  intro hp
  have hdir := src_below hout.2 hp
  rcases List.prefix_concat_iff.mp hdir with heq | hdir
  · exact hout.2 (heq ▸ List.prefix_rfl)
  · refine hn (hdir.trans ?_)
    unfold Setup.landed Setup.filesDir
    rw [List.append_assoc]
    exact List.prefix_append _ _

/-! ## The invariant -/

/-- The moves, one after the other. -/
inductive Replayed (S : Setup) (t : Files) : List Move → Files → Prop
  | nil : Replayed S t [] t
  | snoc {ms t' i n} : Replayed S t ms t' →
      Replayed S t (ms ++ [⟨i, n, t'.below (S.src i)⟩]) (t'.move (S.src i) (S.landed i n))

/-- What has landed, and that it is all that was moved. -/
structure Settled (S : Setup) (t : Files) (w : World) : Prop where
  filesDir : w.files S.filesDir = some .dir
  landed : ∀ m ∈ w.moves, w.pc m.call = .ok m.number ∧ m.tree [] ≠ none ∧
    ∀ r, w.files (S.landed m.call m.number ++ r) = m.tree r
  moved : ∀ i n, w.pc i = .ok n → ∃ m ∈ w.moves, m.call = i ∧ m.number = n
  replayed : ∃ t', Replayed S t w.moves t' ∧ ∀ p, ¬ S.infoDir <+: p → w.files p = t' p

/-- Any state of calls on a trash directory that was as `t` at first. -/
structure Inv (S : Setup) (t : Files) (w : World) : Prop extends Settled S t w where
  infoDir : w.files S.infoDir = some .dir
  info : ∀ i n, (w.pc i).held = some n → ∃ bytes,
    w.files (S.info i n) = some (.file bytes (some (i, n))) ∧
      ((w.pc i).written = true → bytes = S.body i)
  made : ∀ p bytes i n, w.files p = some (.file bytes (some (i, n))) →
    p = S.info i n ∧ ((w.pc i).held = some n ∨ (i, n) ∈ w.kept)
  stuck : ∀ i n, w.pc i = .peeking n ∨ w.pc i = .renaming n → S.src i <+: S.landed i n

theorem Initial.inv {w : World} (h : Initial S w) : Inv S w.files w where
  filesDir := h.filesDir
  infoDir := h.infoDir
  info i n hheld := by
    rw [h.pc] at hheld
    cases hheld
  made p bytes i n hp := absurd hp (h.unmade p bytes (i, n))
  stuck i n hpc := by
    rw [h.pc] at hpc
    rcases hpc with hpc | hpc <;> cases hpc
  landed m hm := by
    rw [h.moves] at hm
    cases hm
  moved i n hpc := by
    rw [h.pc] at hpc
    cases hpc
  replayed := ⟨w.files, h.moves ▸ .nil, fun _ _ => rfl⟩

/-! ## A step -/

variable {w w' : World}

theorem info_below (i n : Nat) : S.infoDir <+: S.info i n := List.prefix_append _ _

/-- A step that changes nothing but in `info/`, and sends no call to its end or from it. -/
theorem Settled.frame (h : Settled S t w) (hfiles : ∀ p, ¬ S.infoDir <+: p → w'.files p = w.files p)
    (hmoves : w'.moves = w.moves) (hpc : ∀ j n, w'.pc j = .ok n ↔ w.pc j = .ok n) :
    Settled S t w' where
  filesDir := (hfiles _ fun hp => infoDir_not_prefix [] (by rwa [List.append_nil])).trans h.filesDir
  landed m hm := by
    rw [hmoves] at hm
    obtain ⟨hok, hsome, htree⟩ := h.landed m hm
    exact ⟨(hpc _ _).mpr hok, hsome, fun r =>
      (hfiles _ (infoDir_not_prefix_landed _ _ r)).trans (htree r)⟩
  moved i n hok := by
    rw [hmoves]
    exact h.moved i n ((hpc i n).mp hok)
  replayed := by
    obtain ⟨t', hreplayed, hsame⟩ := h.replayed
    rw [hmoves]
    exact ⟨t', hreplayed, fun p hp => (hfiles p hp).trans (hsame p hp)⟩

theorem goTo_self : (w.goTo i b).pc i = b := Function.update_self _ _ _

theorem goTo_ne {j : Nat} (h : j ≠ i) : (w.goTo i b).pc j = w.pc j := Function.update_of_ne h _ _

/-- Going on with the call, neither to its end nor from it. -/
theorem goTo_ok (ha : ∀ n, w.pc i ≠ .ok n) (hb : ∀ n, b ≠ .ok n) (j n : Nat) :
    (w.goTo i b).pc j = .ok n ↔ w.pc j = .ok n := by
  by_cases hj : j = i
  · subst hj
    rw [goTo_self]
    exact ⟨fun h => absurd h (hb n), fun h => absurd h (ha n)⟩
  · rw [goTo_ne hj]

theorem Inv.turn (hn : S.noReplace = true) (h : Inv S t w) (hturn : Turn S w.files i (w.pc i) b) :
    Inv S t (w.goTo i b) where
  toSettled := h.toSettled.frame (fun _ _ => rfl) rfl
    (goTo_ok (fun _ => hturn.ne_ok.1) fun _ => hturn.ne_ok.2)
  infoDir := h.infoDir
  info j n hheld := by
    by_cases hj : j = i
    · subst hj
      rw [goTo_self] at hheld ⊢
      obtain ⟨bytes, hinfo, hwritten⟩ := h.info j n (hturn.held_eq ▸ hheld)
      exact ⟨bytes, hinfo, fun hb => hwritten (hturn.written_of hb)⟩
    · rw [goTo_ne hj] at hheld ⊢
      exact h.info j n hheld
  made p bytes j n hp := by
    obtain ⟨hpath, hheld⟩ := h.made p bytes j n hp
    refine ⟨hpath, hheld.imp_left fun hheld => ?_⟩
    by_cases hj : j = i
    · subst hj
      rw [goTo_self, hturn.held_eq]
      exact hheld
    · rw [goTo_ne hj]
      exact hheld
  stuck j n hpc := by
    by_cases hj : j = i
    · subst hj
      rw [goTo_self] at hpc
      exact hturn.stuck hn (fun ha => h.stuck j n (Or.inl ha)) hpc
    · rw [goTo_ne hj] at hpc
      exact h.stuck j n hpc

theorem put_info_of_not {t : Files} {p : Place} (hp : ¬ S.infoDir <+: p) (x : Option Node) :
    t.put (S.info i n) x p = t p := by
  refine Tree.put_of_ne ?_ x
  rintro rfl
  exact hp (info_below i n)

theorem infoDir_ne_info : S.infoDir ≠ S.info i n := by
  intro h
  have hlen := congrArg List.length h
  unfold Setup.info at hlen
  rw [List.length_append, List.length_singleton] at hlen
  omega

/-- A call's file at a path that another call's is at too. -/
theorem Inv.same_info (h : Inv S t w) {j k : Nat} (hi : (w.pc i).held = some n)
    (hj : (w.pc j).held = some k) (hpath : S.info i n = S.info j k) : i = j := by
  obtain ⟨bytes, hfile, -⟩ := h.info i n hi
  obtain ⟨bytes', hfile', -⟩ := h.info j k hj
  rw [hpath, hfile'] at hfile
  simp only [Option.some.injEq, Node.file.injEq, Prod.mk.injEq] at hfile
  exact hfile.2.1.symm

/-- A call that goes on otherwise than by looking and renaming. -/
theorem Inv.stuck_goTo (h : Inv S t w) (hb : ∀ k, b ≠ .peeking k ∧ b ≠ .renaming k) (j k : Nat)
    (hstuck : (w.goTo i b).pc j = .peeking k ∨ (w.goTo i b).pc j = .renaming k) :
    S.src j <+: S.landed j k := by
  by_cases hj : j = i
  · subst hj
    rw [goTo_self] at hstuck
    exact absurd hstuck (not_or.mpr (hb k))
  · rw [goTo_ne hj] at hstuck
    exact h.stuck j k hstuck

theorem Inv.create (h : Inv S t w) (hpc : w.pc i = .claiming n)
    (hfree : w.files (S.info i n) = none) :
    Inv S t { w.goTo i (.looking n) with
      files := w.files.put (S.info i n) (some (.file [] (some (i, n)))) } where
  toSettled := by
    refine h.toSettled.frame (fun p hp => put_info_of_not hp _) rfl
      (goTo_ok (fun k hk => ?_) nofun)
    rw [hpc] at hk
    cases hk
  infoDir := (Tree.put_of_ne infoDir_ne_info _).trans h.infoDir
  info j k hheld := by
    by_cases hj : j = i
    · subst hj
      have hheld : ((w.goTo j (.looking n)).pc j).held = some k := hheld
      rw [goTo_self] at hheld
      obtain rfl := Option.some.inj hheld
      refine ⟨[], Tree.put_same _ _ _, fun hwritten => ?_⟩
      have hwritten : ((w.goTo j (.looking n)).pc j).written = true := hwritten
      rw [goTo_self] at hwritten
      cases hwritten
    · have hpcj : (w.goTo i (.looking n)).pc j = w.pc j := goTo_ne hj
      dsimp only at hheld ⊢
      rw [hpcj] at hheld ⊢
      obtain ⟨bytes, hfile, hwritten⟩ := h.info j k hheld
      refine ⟨bytes, (Tree.put_of_ne (fun hpath => ?_) _).trans hfile, hwritten⟩
      rw [hpath, hfree] at hfile
      cases hfile
  made p bytes j k hp := by
    dsimp only at hp ⊢
    by_cases hpath : p = S.info i n
    · rw [hpath, Tree.put_same] at hp
      simp only [Option.some.injEq, Node.file.injEq, Prod.mk.injEq] at hp
      obtain ⟨-, rfl, rfl⟩ := hp
      rw [goTo_self]
      exact ⟨hpath, Or.inl rfl⟩
    · rw [Tree.put_of_ne hpath] at hp
      obtain ⟨hpath, hheld⟩ := h.made p bytes j k hp
      refine ⟨hpath, hheld.imp_left fun hheld => ?_⟩
      by_cases hj : j = i
      · subst hj
        rw [hpc] at hheld
        cases hheld
      · rw [goTo_ne hj]
        exact hheld
  stuck := h.stuck_goTo fun _ => ⟨nofun, nofun⟩

theorem Inv.remove (h : Inv S t w) (hdrop : Drops (w.pc i) n b) :
    Inv S t { w.goTo i b with files := w.files.put (S.info i n) none } where
  toSettled := h.toSettled.frame (fun p hp => put_info_of_not hp _) rfl
    (goTo_ok (fun _ => hdrop.ne_ok.1) fun _ => hdrop.ne_ok.2)
  infoDir := (Tree.put_of_ne infoDir_ne_info _).trans h.infoDir
  info j k hheld := by
    dsimp only at hheld ⊢
    by_cases hj : j = i
    · subst hj
      rw [goTo_self, hdrop.held.2] at hheld
      cases hheld
    · rw [goTo_ne hj] at hheld ⊢
      obtain ⟨bytes, hfile, hwritten⟩ := h.info j k hheld
      exact ⟨bytes, (Tree.put_of_ne (fun hpath => hj (h.same_info hheld hdrop.held.1 hpath)) _).trans
        hfile, hwritten⟩
  made p bytes j k hp := by
    dsimp only at hp ⊢
    by_cases hpath : p = S.info i n
    · rw [hpath, Tree.put_same] at hp
      cases hp
    · rw [Tree.put_of_ne hpath] at hp
      obtain ⟨hown, hheld⟩ := h.made p bytes j k hp
      refine ⟨hown, hheld.imp_left fun hheld => ?_⟩
      by_cases hj : j = i
      · subst hj
        rw [hdrop.held.1] at hheld
        exact absurd (Option.some.inj hheld ▸ hown) hpath
      · rw [goTo_ne hj]
        exact hheld
  stuck := h.stuck_goTo fun _ => hdrop.not_stuck

theorem Inv.keep (h : Inv S t w) (hdrop : Drops (w.pc i) n b) :
    Inv S t { w.goTo i b with kept := (i, n) :: w.kept } where
  toSettled := h.toSettled.frame (fun _ _ => rfl) rfl
    (goTo_ok (fun _ => hdrop.ne_ok.1) fun _ => hdrop.ne_ok.2)
  infoDir := h.infoDir
  info j k hheld := by
    dsimp only at hheld ⊢
    by_cases hj : j = i
    · subst hj
      rw [goTo_self, hdrop.held.2] at hheld
      cases hheld
    · rw [goTo_ne hj] at hheld ⊢
      exact h.info j k hheld
  made p bytes j k hp := by
    dsimp only
    obtain ⟨hpath, hheld⟩ := h.made p bytes j k hp
    refine ⟨hpath, ?_⟩
    rcases hheld with hheld | hkept
    · by_cases hj : j = i
      · subst hj
        rw [hdrop.held.1] at hheld
        rw [Option.some.inj hheld]
        exact Or.inr List.mem_cons_self
      · rw [goTo_ne hj]
        exact Or.inl hheld
    · exact Or.inr (List.mem_cons_of_mem _ hkept)
  stuck := h.stuck_goTo fun _ => hdrop.not_stuck

theorem rewrite_eq_none {t : Files} {made : Nat × Nat} {bytes : Str} {p : Place}
    (h : ∀ old, t p ≠ some (.file old (some made))) : rewrite t made bytes p = t p := by
  unfold rewrite
  split
  · rename_i old by_ heq
    split
    · rename_i hsame
      exact absurd (hsame ▸ heq) (h old)
    · exact heq.symm
  · rfl

theorem rewrite_self {t : Files} {made : Nat × Nat} {old bytes : Str} {p : Place}
    (h : t p = some (.file old (some made))) :
    rewrite t made bytes p = some (.file bytes (some made)) := by
  unfold rewrite
  rw [h]
  exact if_pos rfl

/-- The info file of a call gets other bytes. -/
theorem Inv.rewrite (h : Inv S t w) (hpc : w.pc i = .writing n) {bytes : Str}
    (hheld : b.held = some n) (hwritten : b.written = true → bytes = S.body i)
    (hstuck : ∀ k, b ≠ .peeking k ∧ b ≠ .renaming k) (hok : ∀ k, b ≠ .ok k) :
    Inv S t { w.goTo i b with files := Trash.rewrite w.files (i, n) bytes } := by
  have hi : (w.pc i).held = some n := by
    rw [hpc]
    rfl
  have hsame : ∀ p, p ≠ S.info i n → Trash.rewrite w.files (i, n) bytes p = w.files p :=
    fun p hp => rewrite_eq_none fun old hold => hp (h.made p old i n hold).1
  obtain ⟨old, hold, -⟩ := h.info i n hi
  exact {
    toSettled := by
      refine h.toSettled.frame (fun p hp => hsame p ?_) rfl (goTo_ok (fun k hk => ?_) hok)
      · rintro rfl
        exact hp (info_below i n)
      · rw [hpc] at hk
        cases hk
    infoDir := (hsame _ infoDir_ne_info).trans h.infoDir
    info := by
      intro j k hheld'
      dsimp only at hheld' ⊢
      by_cases hj : j = i
      · subst hj
        rw [goTo_self] at hheld' ⊢
        obtain rfl := Option.some.inj (hheld.symm.trans hheld')
        exact ⟨bytes, rewrite_self hold, hwritten⟩
      · rw [goTo_ne hj] at hheld' ⊢
        obtain ⟨bytes', hfile, hwritten'⟩ := h.info j k hheld'
        exact ⟨bytes', (hsame _ fun hpath => hj (h.same_info hheld' hi hpath)).trans hfile,
          hwritten'⟩
    made := by
      intro p bytes' j k hp
      dsimp only at hp ⊢
      by_cases hpath : p = S.info i n
      · rw [hpath, rewrite_self hold] at hp
        simp only [Option.some.injEq, Node.file.injEq, Prod.mk.injEq] at hp
        obtain ⟨-, rfl, rfl⟩ := hp
        rw [goTo_self]
        exact ⟨hpath, Or.inl hheld⟩
      · rw [hsame p hpath] at hp
        obtain ⟨hown, hheld'⟩ := h.made p bytes' j k hp
        refine ⟨hown, hheld'.imp_left fun hheld' => ?_⟩
        by_cases hj : j = i
        · subst hj
          rw [goTo_self, hheld, ← hi]
          exact hheld'
        · rw [goTo_ne hj]
          exact hheld'
    stuck := h.stuck_goTo hstuck }

/-- Two names in `files/` have nothing in common. -/
theorem landed_below {x : Str} {r : Place} (h : S.landed i n <+: S.filesDir ++ x :: r) :
    x = S.name i n := by
  unfold Setup.landed at h
  have h := (List.prefix_append_right_inj _).mp h
  exact (List.cons_prefix_cons.mp h).1.symm

theorem landed_not_prefix_infoDir (p : Place) : ¬ S.landed i n <+: S.infoDir ++ p := by
  rintro ⟨r, h⟩
  unfold Setup.landed Setup.filesDir Setup.infoDir at h
  rw [List.append_assoc, List.append_assoc, List.append_assoc] at h
  exact absurd (List.cons.inj (List.append_cancel_left h)).1 (by decide)

section
variable (hout : Outside S i) (hn : ¬ S.src i <+: S.landed i n)
include hout hn

theorem move_infoDir (t : Files) (p : Place) :
    t.move (S.src i) (S.landed i n) (S.infoDir ++ p) = t (S.infoDir ++ p) :=
  Tree.move_of_not (landed_not_prefix_infoDir p) (src_not_prefix_info hout hn p)

/-- A move changes nothing that is in `files/` already. -/
theorem move_files {t : Files} (hfree : t (S.landed i n) = none) {x : Str}
    (hx : t (S.filesDir ++ [x]) ≠ none) (r : Place) :
    t.move (S.src i) (S.landed i n) (S.filesDir ++ x :: r) = t (S.filesDir ++ x :: r) := by
  refine Tree.move_of_not (fun h => ?_) (src_not_prefix_files hout hn _)
  rw [landed_below h] at hx
  exact hx hfree

end

theorem Settled.move (h : Settled S t w) (hout : Outside S i) (hpc : ∀ k, w.pc i ≠ .ok k)
    (hsrc : w.files (S.src i) ≠ none) (hfree : w.files (S.landed i n) = none)
    (hn : ¬ S.src i <+: S.landed i n) : Settled S t (w.move S i n) := by
  have hwas : ∀ m ∈ w.moves, m.call ≠ i := by
    rintro m hm rfl
    exact hpc _ (h.landed m hm).1
  constructor
  · refine (Tree.move_of_not (fun hp => ?_) fun hp => ?_).trans h.filesDir
    · have hlen := hp.length_le
      unfold Setup.landed at hlen
      rw [List.length_append, List.length_singleton] at hlen
      omega
    · exact src_not_prefix_files hout hn [] (by rwa [List.append_nil])
  · intro m hm
    rcases List.mem_append.mp hm with hm | hm
    · obtain ⟨hok, hsome, htree⟩ := h.landed m hm
      refine ⟨(goTo_ne (hwas m hm)).trans hok, hsome, fun r => ?_⟩
      rw [← htree r]
      unfold Setup.landed
      rw [List.append_assoc, List.singleton_append]
      refine move_files hout hn hfree ?_ r
      have hthere := htree []
      rw [List.append_nil] at hthere
      exact fun hnone => hsome (hthere.symm.trans hnone)
    · rw [List.mem_singleton.mp hm]
      refine ⟨goTo_self, ?_, fun r => Tree.move_append _ _ _ r⟩
      show w.files (S.src i ++ []) ≠ none
      rwa [List.append_nil]
  · intro j k hok
    by_cases hj : j = i
    · subst hj
      have hok : (w.goTo j (.ok n)).pc j = .ok k := hok
      rw [goTo_self] at hok
      cases hok
      exact ⟨_, List.mem_append_right _ List.mem_cons_self, rfl, rfl⟩
    · obtain ⟨m, hm, hmove⟩ := h.moved j k ((goTo_ne hj).symm.trans hok)
      exact ⟨m, List.mem_append_left _ hm, hmove⟩
  · obtain ⟨t', hreplayed, hsame⟩ := h.replayed
    have hbelow (r : Place) : w.files (S.src i ++ r) = t' (S.src i ++ r) := by
      refine hsame _ fun hp => ?_
      rcases Search.prefix_or hp (List.prefix_append _ _) with hp | hp
      · exact hout.2 hp
      · exact src_not_prefix_info hout hn [] (by rwa [List.append_nil])
    refine ⟨t'.move (S.src i) (S.landed i n), ?_, fun p hp => ?_⟩
    · have htree : w.files.below (S.src i) = t'.below (S.src i) := funext hbelow
      show Replayed S t (w.moves ++ [⟨i, n, w.files.below (S.src i)⟩]) _
      rw [htree]
      exact hreplayed.snoc
    · show w.files.move (S.src i) (S.landed i n) p = _
      unfold Tree.move
      rw [hbelow, hsame p hp]

/-- A call's file lands where nothing was. -/
theorem Inv.move (h : Inv S t w) (hout : Outside S i) (hpc : w.pc i = .moving n)
    (hsrc : w.files (S.src i) ≠ none) (hfree : w.files (S.landed i n) = none)
    (hn : ¬ S.src i <+: S.landed i n) : Inv S t (w.move S i n) where
  toSettled := by
    refine h.toSettled.move hout (fun k hk => ?_) hsrc hfree hn
    rw [hpc] at hk
    cases hk
  infoDir := by
    have hsame := move_infoDir hout hn w.files []
    rw [List.append_nil] at hsame
    exact hsame.trans h.infoDir
  info j k hheld := by
    have hpath := move_infoDir hout hn w.files [S.name j k ++ str ".trashinfo"]
    by_cases hj : j = i
    · subst hj
      have hheld : ((w.goTo j (.ok n)).pc j).held = some k := hheld
      rw [goTo_self] at hheld
      obtain rfl := Option.some.inj hheld
      obtain ⟨bytes, hfile, hwritten⟩ := h.info j n (by rw [hpc]; rfl)
      exact ⟨bytes, hpath.trans hfile, fun _ => hwritten (by rw [hpc]; rfl)⟩
    · have hheld : ((w.goTo i (.ok n)).pc j).held = some k := hheld
      have hpcj : (w.move S i n).pc j = w.pc j := goTo_ne hj
      rw [goTo_ne hj] at hheld
      rw [hpcj]
      obtain ⟨bytes, hfile, hwritten⟩ := h.info j k hheld
      exact ⟨bytes, hpath.trans hfile, hwritten⟩
  made p bytes j k hp := by
    rcases Tree.move_cases w.files (S.src i) (S.landed i n) p with
      ⟨r, rfl, hmove⟩ | ⟨-, ⟨hmove, -⟩ | ⟨hmove, -⟩⟩
    · obtain ⟨hown, -⟩ := h.made _ bytes j k (hmove.symm.trans hp)
      refine absurd ?_ (src_not_prefix_info hout hn [S.name j k ++ str ".trashinfo"])
      exact ⟨r, hown⟩
    · rw [show (w.move S i n).files p = none from hmove] at hp
      cases hp
    · obtain ⟨hown, hheld⟩ := h.made p bytes j k (hmove.symm.trans hp)
      refine ⟨hown, hheld.imp_left fun hheld => ?_⟩
      show ((w.goTo i (.ok n)).pc j).held = some k
      by_cases hj : j = i
      · subst hj
        rw [hpc] at hheld
        rw [goTo_self]
        exact hheld
      · rw [goTo_ne hj]
        exact hheld
  stuck := h.stuck_goTo fun _ => ⟨nofun, nofun⟩

/-- **Every step keeps the invariant.** -/
theorem Inv.step (hn : S.noReplace = true) (hout : ∀ i, Outside S i) (h : Inv S t w)
    (hstep : Step S w w') : Inv S t w' := by
  cases hstep with
  | turn hturn => exact h.turn hn hturn
  | create hpc _ hfree _ => exact h.create hpc hfree
  | write hpc => exact h.rewrite hpc rfl (fun _ => rfl) (fun _ => ⟨nofun, nofun⟩) nofun
  | unwritten _ hpc => exact h.rewrite hpc rfl nofun (fun _ => ⟨nofun, nofun⟩) nofun
  | remove hdrop _ => exact h.remove hdrop
  | keep hdrop => exact h.keep hdrop
  | move hpc _ hsrc hfree hinto _ => exact h.move (hout _) hpc hsrc hfree hinto
  | rename hpc _ _ hinto _ => exact absurd (h.stuck _ _ (Or.inr hpc)) hinto

theorem Inv.reaches (hn : S.noReplace = true) (hout : ∀ i, Outside S i) (h : Inv S t w)
    (hrun : Reaches S w w') : Inv S t w' := by
  induction hrun with
  | refl => exact h
  | tail _ hstep ih => exact ih.step hn hout hstep

/-- What is in `files/` stays as it is. -/
theorem Inv.step_files (hout : ∀ i, Outside S i) (h : Inv S t w) (hstep : Step S w w') {x : Str}
    (hx : w.files (S.filesDir ++ [x]) ≠ none) (r : Place) :
    w'.files (S.filesDir ++ x :: r) = w.files (S.filesDir ++ x :: r) := by
  have hnot : ¬ S.infoDir <+: S.filesDir ++ x :: r := infoDir_not_prefix _
  have hwrite {i n : Nat} {bytes : Str} :
      Trash.rewrite w.files (i, n) bytes (S.filesDir ++ x :: r) =
        w.files (S.filesDir ++ x :: r) := by
    refine rewrite_eq_none fun old hold => hnot ?_
    rw [(h.made _ old i n hold).1]
    exact info_below i n
  cases hstep with
  | turn _ => rfl
  | create _ _ _ _ => exact put_info_of_not hnot _
  | write _ => exact hwrite
  | unwritten _ _ => exact hwrite
  | remove _ _ => exact put_info_of_not hnot _
  | keep _ => rfl
  | move _ _ _ hfree hinto _ => exact move_files (hout _) hinto hfree hx r
  | rename hpc _ _ hinto _ => exact absurd (h.stuck _ _ (Or.inr hpc)) hinto

theorem Inv.reaches_files (hn : S.noReplace = true) (hout : ∀ i, Outside S i) (h : Inv S t w)
    (hrun : Reaches S w w') {x : Str} (hx : w.files (S.filesDir ++ [x]) ≠ none) (r : Place) :
    w'.files (S.filesDir ++ x :: r) = w.files (S.filesDir ++ x :: r) := by
  induction hrun generalizing r with
  | refl => rfl
  | tail hrun hstep ih =>
    have hinv := h.reaches hn hout hrun
    refine (hinv.step_files hout hstep ?_ r).trans (ih r)
    rw [ih []]
    exact hx

/-! ## What an info file says -/

/-- What a digit of sixteen stands for. -/
def hexValue (b : UInt8) : Nat := if b < 65 then b.toNat - 48 else b.toNat - 55

/-- The bytes that percent-encoded text stands for. -/
def decode : Str → Str
  | 37 :: a :: b :: rest => (hexValue a * 16 + hexValue b).toUInt8 :: decode rest
  | b :: rest => b :: decode rest
  | [] => []

/-- The path that an info file records. -/
def recordedIn (content : Str) : Str :=
  decode ((content.drop (str "[Trash Info]\nPath=").length).takeWhile (· ≠ 10))

theorem hexValue_digit {n : Nat} (h : n < 16) : hexValue (hexDigit n) = n ∧ hexDigit n ≠ 10 := by
  revert n
  decide

theorem isPlain_ne {b : UInt8} (h : isPlain b = true) : b ≠ 37 ∧ b ≠ 10 := by
  constructor <;> rintro rfl <;> exact absurd h (by decide)

theorem decode_encode (s : Str) : decode (encode s) = s := by
  induction s with
  | nil => rfl
  | cons b s ih =>
    unfold encode at ih ⊢
    rw [List.flatMap_cons]
    split
    · rename_i hplain
      rw [List.singleton_append]
      unfold decode
      split
      · rename_i heq
        exact absurd (List.cons.inj heq).1 (isPlain_ne hplain).1
      · rename_i heq
        obtain ⟨rfl, rfl⟩ := List.cons.inj heq
        rw [ih]
      · rename_i heq
        cases heq
    · have hlt : b.toNat < 256 := b.toNat_lt
      have hhigh := (hexValue_digit (show b.toNat / 16 < 16 by omega)).1
      have hlow := (hexValue_digit (show b.toNat % 16 < 16 by omega)).1
      show (hexValue _ * 16 + hexValue _).toUInt8 :: decode (List.flatMap _ s) = _
      rw [ih, hhigh, hlow, Nat.div_add_mod' b.toNat 16]
      exact congrArg (· :: s) UInt8.ofNat_toNat

theorem encode_no_newline (s : Str) : ∀ b ∈ encode s, b ≠ 10 := by
  intro b hb
  obtain ⟨a, -, hb⟩ := List.mem_flatMap.mp hb
  have hlt : a.toNat < 256 := a.toNat_lt
  split at hb
  · rename_i hplain
    rw [List.mem_singleton.mp hb]
    exact (isPlain_ne hplain).2
  · simp only [List.mem_cons, List.not_mem_nil, or_false] at hb
    rcases hb with rfl | rfl | rfl
    · decide
    · exact (hexValue_digit (show a.toNat / 16 < 16 by omega)).2
    · exact (hexValue_digit (show a.toNat % 16 < 16 by omega)).2

/-- What is recorded of a path is its text. -/
theorem recordedIn_body (dir path : Place) (stamp : Str) :
    recordedIn (body dir path stamp) = toStringLossy (recorded dir path) := by
  unfold recordedIn body
  rw [List.append_assoc, List.append_assoc, List.append_assoc, List.drop_left' rfl]
  have htake : (encode (toStringLossy (recorded dir path)) ++
      (str "\nDeletionDate=" ++ (stamp ++ str "\n"))).takeWhile (· ≠ 10) =
        encode (toStringLossy (recorded dir path)) := by
    rw [List.takeWhile_append_of_pos fun b hb => decide_eq_true (encode_no_newline _ b hb)]
    exact List.append_nil _
  rw [htake, decode_encode]

/-! ## Any number of calls -/

/-- A call that returned `Ok` has its file in the trash, under a name of its own that is recorded. -/
structure Trashed (S : Setup) (w : World) (i n : Nat) : Prop where
  moved : ∃ m ∈ w.moves, m.call = i ∧ m.number = n ∧ m.tree [] ≠ none ∧
    ∀ r, w.files (S.landed i n ++ r) = m.tree r
  only : ∀ j k, w.pc j = .ok k → S.landed j k = S.landed i n → j = i
  info : w.files (S.info i n) = some (.file (S.body i) (some (i, n)))
  recorded : (∃ cs, Search.encodeText cs = recorded S.dir (S.src i)) →
    recordedIn (S.body i) = recorded S.dir (S.src i)

/-- A call that returned `Err` has moved nothing, and left no info file but where its removal
failed. -/
structure GaveUp (S : Setup) (w : World) (i : Nat) : Prop where
  unmoved : ∀ m ∈ w.moves, m.call ≠ i
  info : ∀ p bytes n, w.files p = some (.file bytes (some (i, n))) → (i, n) ∈ w.kept

/-- Any number of calls on paths that are not in the trash, with renaming that does not replace:
what is in `files/` stays, the files outside `info/` are those there were as the moves have moved
them, and each call that is done has trashed its path or given up. -/
theorem trash_keeps (S : Setup) (hn : S.noReplace = true) (hout : ∀ i, Outside S i) {w₀ w : World}
    (h₀ : Initial S w₀) (hw : Reaches S w₀ w) :
    (∀ w', Reaches S w w' → ∀ x, w.files (S.filesDir ++ [x]) ≠ none → ∀ r,
      w'.files (S.filesDir ++ x :: r) = w.files (S.filesDir ++ x :: r)) ∧
    (∃ t, Replayed S w₀.files w.moves t ∧ ∀ p, ¬ S.infoDir <+: p → w.files p = t p) ∧
    (∀ i n, w.pc i = .ok n → Trashed S w i n) ∧
    ∀ i, w.pc i = .failed → GaveUp S w i := by
  have h := h₀.inv.reaches hn hout hw
  refine ⟨fun w' hrun x hx r => h.reaches_files hn hout hrun hx r, h.replayed, fun i n hok => ?_,
    fun i hfailed => ⟨?_, ?_⟩⟩
  · obtain ⟨m, hm, rfl, rfl⟩ := h.moved i n hok
    obtain ⟨-, hsome, htree⟩ := h.landed m hm
    have hheld : (w.pc m.call).held = some m.number := by
      rw [hok]
      rfl
    refine ⟨⟨m, hm, rfl, rfl, hsome, htree⟩, fun j k hj hland => ?_, ?_, fun ⟨cs, hcs⟩ => ?_⟩
    · refine h.same_info (by rw [hj]; rfl) hheld ?_
      have hname := List.append_cancel_left hland
      unfold Setup.info
      rw [(List.cons.inj hname).1]
    · obtain ⟨bytes, hfile, hwritten⟩ := h.info _ _ hheld
      rw [hfile, hwritten (by rw [hok]; rfl)]
    · refine (recordedIn_body _ _ _).trans ?_
      unfold toStringLossy
      rw [← hcs, Search.lossy_encode]
  · rintro m hm rfl
    have hok := (h.landed m hm).1
    rw [hfailed] at hok
    cases hok
  · intro p bytes n hp
    refine (h.made p bytes i n hp).2.resolve_left fun hheld => ?_
    rw [hfailed] at hheld
    cases hheld

/-- Calls on a trash directory at the root. -/
def rooted (src : Nat → Place) (noReplace : Bool) : Setup where
  dir := [str "T"]
  src
  stamp _ := []
  noReplace

/-- Files at the root and in the trash directory, before any call. -/
def holding (paths : List Place) : World where
  files p :=
    if p = [str "T", str "files"] ∨ p = [str "T", str "info"] then some .dir
    else if p ∈ paths then some (.file (p.headD []) none) else none
  pc _ := .start
  moves := []
  kept := []

theorem holding_initial (src : Nat → Place) (noReplace : Bool) (paths : List Place) :
    Initial (rooted src noReplace) (holding paths) where
  filesDir := by simp only [holding, rooted, Setup.filesDir, List.singleton_append, true_or, if_true]
  infoDir := by simp only [holding, rooted, Setup.infoDir, List.singleton_append, or_true, if_true]
  unmade p bytes made h := by
    simp only [holding] at h
    split at h
    · cases h
    · split at h <;> cases h
  pc _ := rfl
  moves := rfl
  kept := rfl

theorem trash_keeps_one : ∃ w, Reaches (rooted (fun _ => [str "a"]) true) (holding [[str "a"]]) w ∧
    Trashed (rooted (fun _ => [str "a"]) true) w 0 0 := by
  have hrun : ∃ w, Reaches (rooted (fun _ => [str "a"]) true) (holding [[str "a"]]) w ∧
      w.pc 0 = .ok 0 := by
    refine ⟨_, Relation.ReflTransGen.refl.tail (Step.turn (i := 0) (b := .claiming 0) (.begin ?_ ?_))
      |>.tail (Step.create (i := 0) (n := 0) rfl ?_ ?_ ?_)
      |>.tail (Step.turn (i := 0) (b := .writing 0) .absent)
      |>.tail (Step.write (i := 0) (n := 0) rfl)
      |>.tail (Step.move (i := 0) (n := 0) rfl rfl ?_ ?_ ?_ ?_), rfl⟩
    all_goals decide +kernel
  obtain ⟨w, hw, hok⟩ := hrun
  have hout : ∀ i, Outside (rooted (fun _ => [str "a"]) true) i := fun i => by
    show ¬ [str "T"] ++ [str "files"] <+: [str "a"] ∧ ¬ [str "T"] ++ [str "info"] <+: [str "a"]
    decide +kernel
  exact ⟨w, hw, (trash_keeps _ rfl hout (holding_initial _ _ _) hw).2.2.1 0 0 hok⟩

/-- A failed removal leaves the info file of a call that failed, a call on an info file takes that of
another, and renaming that may replace loses what a failed look did not see. -/
theorem not_trash_keeps :
    (∃ w, Reaches (rooted (fun _ => [str "a"]) true) (holding [[str "a"]]) w ∧ w.pc 0 = .failed ∧
      w.files [str "T", str "info", str "a.trashinfo"] = some (.file [] (some (0, 0)))) ∧
    (∃ w, Reaches (rooted (fun i => if i = 0 then [str "a"] else
        [str "T", str "info", str "a.trashinfo"]) true) (holding [[str "a"]]) w ∧ w.pc 0 = .ok 0 ∧
      w.files [str "T", str "info", str "a.trashinfo"] = none) ∧
    ∃ w w', Reaches (rooted (fun _ => [str "a"]) false)
        (holding [[str "a"], [str "T", str "files", str "a"]]) w ∧
      Reaches (rooted (fun _ => [str "a"]) false) w w' ∧
      w.files [str "T", str "files", str "a"] = some (.file (str "T") none) ∧
      w'.files [str "T", str "files", str "a"] = some (.file (str "a") none) := by
  refine ⟨⟨_, Relation.ReflTransGen.refl.tail (Step.turn (i := 0) (b := .claiming 0) (.begin ?_ ?_))
      |>.tail (Step.create (i := 0) (n := 0) rfl ?_ ?_ ?_)
      |>.tail (Step.turn (i := 0) (b := .writing 0) .absent)
      |>.tail (Step.unwritten (i := 0) (n := 0) [] rfl)
      |>.tail (Step.keep (i := 0) (n := 0) .fail), rfl, ?_⟩,
    ⟨_, Relation.ReflTransGen.refl.tail (Step.turn (i := 0) (b := .claiming 0) (.begin ?_ ?_))
      |>.tail (Step.create (i := 0) (n := 0) rfl ?_ ?_ ?_)
      |>.tail (Step.turn (i := 0) (b := .writing 0) .absent)
      |>.tail (Step.write (i := 0) (n := 0) rfl)
      |>.tail (Step.move (i := 0) (n := 0) rfl rfl ?_ ?_ ?_ ?_)
      |>.tail (Step.turn (i := 1) (b := .claiming 0) (.begin ?_ ?_))
      |>.tail (Step.create (i := 1) (n := 0) rfl ?_ ?_ ?_)
      |>.tail (Step.turn (i := 1) (b := .writing 0) .absent)
      |>.tail (Step.write (i := 1) (n := 0) rfl)
      |>.tail (Step.move (i := 1) (n := 0) rfl rfl ?_ ?_ ?_ ?_), rfl, ?_⟩,
    ⟨holding [[str "a"], [str "T", str "files", str "a"]], _, .refl,
      Relation.ReflTransGen.refl.tail (Step.turn (i := 0) (b := .claiming 0) (.begin ?_ ?_))
      |>.tail (Step.create (i := 0) (n := 0) rfl ?_ ?_ ?_)
      |>.tail (Step.turn (i := 0) (b := .writing 0) .absent)
      |>.tail (Step.write (i := 0) (n := 0) rfl)
      |>.tail (Step.turn (i := 0) (b := .peeking 0) (.unable (.inl rfl)))
      |>.tail (Step.turn (i := 0) (b := .renaming 0) .unseen)
      |>.tail (Step.rename (i := 0) (n := 0) rfl ?_ (.inr (.inl ⟨?_, ?_⟩)) ?_ ?_), ?_, ?_⟩⟩
  all_goals decide +kernel

end Scour.Trash
