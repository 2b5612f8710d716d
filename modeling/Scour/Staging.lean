import Scour.Rows

/-!
# The staging buffer keeps one entry a path

`Slots` is what the position map is for: every staged entry is found under its own digest.  It makes
the digests, and with them the paths, distinct.  `put` keeps it as long as no staged path of another
identity shares the digest; `restore` puts the newer entries over the older ones (`mem_restore`).
-/

namespace Scour

/-- Two entries with one digest are at one path of one source. -/
def Distinct (es : List Entry) : Prop :=
  ∀ a ∈ es, ∀ b ∈ es, a.digest = b.digest → a.key = b.key

theorem Distinct.subset {es fs : List Entry} (h : Distinct fs) (hs : ∀ e ∈ es, e ∈ fs) :
    Distinct es := fun a ha b hb => h a (hs a ha) b (hs b hb)

/-- The position map finds every staged entry. -/
def Slots (staged : List Entry) (stagedAt : UInt64 → Option Nat) : Prop :=
  ∀ i e, staged[i]? = some e → stagedAt e.digest = some i

theorem digest_eq_of_key {a b : Entry} (h : a.key = b.key) : a.digest = b.digest := by
  simp only [Entry.key, Prod.mk.injEq] at h
  unfold Entry.digest
  rw [h.1, h.2]

namespace Slots

theorem nil (stagedAt : UInt64 → Option Nat) : Slots [] stagedAt := by
  intro i e h
  simp at h

theorem nodup {staged : List Entry} {stagedAt : UInt64 → Option Nat} (h : Slots staged stagedAt) :
    (staged.map Entry.digest).Nodup := by
  rw [List.nodup_iff_injective_get]
  intro i j hij
  have hi : i.1 < staged.length := by simpa using i.2
  have hj : j.1 < staged.length := by simpa using j.2
  have h1 := h i.1 _ (List.getElem?_eq_getElem hi)
  have h2 := h j.1 _ (List.getElem?_eq_getElem hj)
  have heq : staged[i.1].digest = staged[j.1].digest := by simpa using hij
  rw [heq, h2] at h1
  exact Fin.ext (Option.some.inj h1).symm

/-- A path appears once. -/
theorem nodup_key {staged : List Entry} {stagedAt : UInt64 → Option Nat}
    (h : Slots staged stagedAt) : (staged.map Entry.key).Nodup := by
  have hd := h.nodup
  unfold List.Nodup at hd ⊢
  rw [List.pairwise_map] at hd ⊢
  exact hd.imp fun hne heq => hne (digest_eq_of_key heq)

theorem distinct {staged : List Entry} {stagedAt : UInt64 → Option Nat} (h : Slots staged stagedAt) :
    Distinct staged := by
  intro a ha b hb hab
  obtain ⟨i, hi⟩ := List.mem_iff_getElem?.mp ha
  obtain ⟨j, hj⟩ := List.mem_iff_getElem?.mp hb
  have h1 := h i a hi
  rw [hab, h j b hj] at h1
  rw [← Option.some.inj h1, hj] at hi
  rw [Option.some.inj hi]

end Slots

/-! ## `slotsOf` -/

theorem foldl_slots (es : List Entry) (d : UInt64) :
    ∀ (k : Nat) (slots : UInt64 → Option Nat), (es.map Entry.digest).Nodup →
      ((es.zipIdx k).foldl (fun slots (e, i) => fun d => if d = Entry.digest e then some i else slots d)
        slots) d =
        match es.findIdx? (fun e => d = e.digest) with
        | some i => some (k + i)
        | none => slots d := by
  induction es with
  | nil => intro k slots _; rfl
  | cons e es ih =>
    intro k slots hnd
    obtain ⟨hne, hnd⟩ := List.nodup_cons.mp hnd
    rw [List.zipIdx_cons, List.foldl_cons, ih (k + 1) _ hnd, List.findIdx?_cons]
    by_cases hd : d = e.digest
    · have hnone : es.findIdx? (fun e => decide (d = e.digest)) = none := by
        rw [List.findIdx?_eq_none_iff]
        intro f hf
        rw [decide_eq_false_iff_not, hd]
        exact fun h => hne (h ▸ List.mem_map_of_mem hf)
      rw [hnone]
      simp [hd]
    · simp only [hd, decide_false, Bool.false_eq_true, if_false]
      cases es.findIdx? (fun e => decide (d = e.digest)) with
      | none => rfl
      | some i => simp; omega

theorem slotsOf_slots (es : List Entry) (h : (es.map Entry.digest).Nodup) :
    Slots es (Inner.slotsOf es) := by
  intro i e hi
  unfold Inner.slotsOf
  rw [foldl_slots es e.digest 0 _ h]
  have hidx : es.findIdx? (fun f => decide (e.digest = f.digest)) = some i := by
    rw [List.findIdx?_eq_some_iff_getElem]
    obtain ⟨hlt, rfl⟩ := List.getElem?_eq_some_iff.mp hi
    refine ⟨hlt, by simp, fun j hj => ?_⟩
    simp only [Bool.not_eq_true, decide_eq_false_iff_not]
    intro heq
    have hinj := List.nodup_iff_injective_get.mp h
    have := @hinj ⟨i, by simpa using hlt⟩ ⟨j, by simp; omega⟩ (by simpa using heq)
    simp only [Fin.mk.injEq] at this
    omega
  rw [hidx]
  simp

/-! ## `put` -/

namespace Inner

/-- What `put` does to the buffer: over one entry at the same path, or at the end. -/
theorem put_cases (inner : Inner) (e : Entry) :
    (∃ i s, inner.stagedAt e.digest = some i ∧ inner.staged[i]? = some s ∧ s.path = e.path ∧
      inner.put e = { inner with staged := inner.staged.set i e }) ∨
    ((∀ i s, inner.stagedAt e.digest = some i → inner.staged[i]? = some s → s.path ≠ e.path) ∧
      inner.put e = { inner with
        stagedAt := fun x => if x = e.digest then some inner.staged.length else inner.stagedAt x
        staged := inner.staged ++ [e] }) := by
  unfold put
  simp only
  cases hat : inner.stagedAt e.digest with
  | none =>
    refine Or.inr ⟨fun i s hi => ?_, rfl⟩
    cases hi
  | some i =>
    by_cases h : ((inner.staged[i]?).any fun s => decide (s.path = e.path)) = true
    · obtain ⟨s, hs, hp⟩ := (Option.any_eq_true _ _).mp h
      exact Or.inl ⟨i, s, rfl, hs, of_decide_eq_true hp, if_pos h⟩
    · refine Or.inr ⟨?_, if_neg h⟩
      rintro j s hj hs hp
      apply h
      rw [← Option.some.inj hj] at hs
      simp [hs, hp]

/-- The slot of an entry's digest does not hold its path for another source. -/
def SlotRight (inner : Inner) (e : Entry) : Prop :=
  ∀ i s, inner.stagedAt e.digest = some i → inner.staged[i]? = some s → s.path = e.path →
    s.source = e.source

theorem put_slots (inner : Inner) (e : Entry) (h : Slots inner.staged inner.stagedAt)
    (hd : ∀ s ∈ inner.staged, s.digest = e.digest → s.key = e.key) :
    Slots (inner.put e).staged (inner.put e).stagedAt := by
  rcases inner.put_cases e with ⟨i, s, hat, hs, -, heq⟩ | ⟨hno, heq⟩
  · rw [heq]
    intro j f hj
    simp only [List.getElem?_set] at hj
    simp only
    split at hj
    · rename_i hij
      subst hij
      split at hj
      · rw [← Option.some.inj hj]
        exact hat
      · cases hj
    · exact h j f hj
  · rw [heq]
    intro j f hj
    simp only at hj ⊢
    rcases Nat.lt_or_ge j inner.staged.length with hlt | hge
    · rw [List.getElem?_append_left hlt] at hj
      have hat := h j f hj
      have hne : f.digest ≠ e.digest := by
        intro hfe
        have hkey := hd f (List.mem_of_getElem? hj) hfe
        simp only [Entry.key, Prod.mk.injEq] at hkey
        exact hno j f (hfe ▸ hat) hj hkey.2
      rw [if_neg hne]
      exact hat
    · rw [List.getElem?_append_right hge] at hj
      have hj0 : j - inner.staged.length = 0 := by
        by_contra hne
        rw [List.getElem?_eq_none (by simp; omega)] at hj
        cases hj
      rw [hj0] at hj
      have hfe : e = f := by simpa using hj
      rw [← hfe, if_pos rfl]
      congr 1
      omega

/-- `put` sets its own path and keeps the others. -/
theorem mem_put (inner : Inner) (e x : Entry) (h : Slots inner.staged inner.stagedAt)
    (hd : ∀ s ∈ inner.staged, s.digest = e.digest → s.key = e.key) (hright : inner.SlotRight e) :
    x ∈ (inner.put e).staged ↔ x = e ∨ (x ∈ inner.staged ∧ x.key ≠ e.key) := by
  rcases inner.put_cases e with ⟨i, s, hat, hs, hp, heq⟩ | ⟨hno, heq⟩
  · have hsk : s.key = e.key := by
      unfold Entry.key
      rw [hright i s hat hs hp, hp]
    rw [heq]
    simp only
    obtain ⟨hi, hsi⟩ := List.getElem?_eq_some_iff.mp hs
    constructor
    · intro hx
      obtain ⟨j, hj⟩ := List.mem_iff_getElem?.mp hx
      rw [List.getElem?_set] at hj
      split at hj
      · exact Or.inl (Option.some.inj hj).symm
      · rename_i hij
        refine Or.inr ⟨List.mem_of_getElem? hj, fun hk => hij ?_⟩
        have h1 := h j x hj
        have h2 := h i s hs
        rw [digest_eq_of_key (hk.trans hsk.symm), h2] at h1
        exact Option.some.inj h1
    · rintro (rfl | ⟨hx, hk⟩)
      · exact List.mem_iff_getElem?.mpr ⟨i, by simp [hi]⟩
      · obtain ⟨j, hj⟩ := List.mem_iff_getElem?.mp hx
        refine List.mem_iff_getElem?.mpr ⟨j, ?_⟩
        rw [List.getElem?_set]
        have hij : i ≠ j := by
          rintro rfl
          rw [hs] at hj
          rw [← Option.some.inj hj] at hk
          exact hk hsk
        rw [if_neg hij, hj]
  · have hnone : ∀ s ∈ inner.staged, s.key ≠ e.key := by
      intro s hs hk
      obtain ⟨j, hj⟩ := List.mem_iff_getElem?.mp hs
      have hat := h j s hj
      rw [digest_eq_of_key hk] at hat
      simp only [Entry.key, Prod.mk.injEq] at hk
      exact hno j s hat hj hk.2
    rw [heq]
    simp only [List.mem_append, List.mem_singleton]
    constructor
    · rintro (hx | rfl)
      · exact Or.inr ⟨hx, hnone x hx⟩
      · exact Or.inl rfl
    · rintro (rfl | ⟨hx, -⟩)
      · exact Or.inr rfl
      · exact Or.inl hx

/-- Whatever the slots say, `put` adds one entry and keeps nothing that was not there. -/
theorem mem_of_mem_put (inner : Inner) (e x : Entry) (hx : x ∈ (inner.put e).staged) :
    x = e ∨ x ∈ inner.staged := by
  rcases inner.put_cases e with ⟨i, s, -, -, -, heq⟩ | ⟨-, heq⟩
  · rw [heq] at hx
    rcases List.mem_or_eq_of_mem_set hx with hx | rfl
    · exact Or.inr hx
    · exact Or.inl rfl
  · rw [heq] at hx
    rcases List.mem_append.mp hx with hx | hx
    · exact Or.inr hx
    · exact Or.inl (List.mem_singleton.mp hx)

/-- Nothing else of the index moves. -/
theorem put_frame (inner : Inner) (e : Entry) :
    inner.put e = { inner with
      staged := (inner.put e).staged, stagedAt := (inner.put e).stagedAt } := by
  rcases inner.put_cases e with ⟨i, s, -, -, -, heq⟩ | ⟨-, heq⟩ <;> rw [heq]

/-- `put` looks at nothing but the buffer and its position map. -/
theorem put_congr {a b : Inner} (hs : a.staged = b.staged) (ha : a.stagedAt = b.stagedAt)
    (e : Entry) : (a.put e).staged = (b.put e).staged ∧ (a.put e).stagedAt = (b.put e).stagedAt := by
  unfold put
  simp only [hs, ha]
  cases b.stagedAt e.digest with
  | none => exact ⟨rfl, rfl⟩
  | some i =>
    simp only
    split <;> exact ⟨rfl, by simp only⟩

theorem foldl_put_frame (newer : List Entry) :
    ∀ inner : Inner, newer.foldl put inner = { inner with
      staged := (newer.foldl put inner).staged, stagedAt := (newer.foldl put inner).stagedAt } := by
  induction newer with
  | nil => exact fun inner => rfl
  | cons e newer ih =>
    intro inner
    rw [List.foldl_cons, ih (inner.put e), put_frame inner e]

/-- When every slot is right because no two digests meet, newer entries go over older ones. -/
theorem foldl_put (newer : List Entry) :
    ∀ inner : Inner, Slots inner.staged inner.stagedAt →
      (∀ d i, inner.stagedAt d = some i → ∃ s, inner.staged[i]? = some s ∧ s.digest = d) →
      (newer.map Entry.key).Nodup → Distinct (inner.staged ++ newer) →
      Slots (newer.foldl put inner).staged (newer.foldl put inner).stagedAt ∧
        ∀ x, x ∈ (newer.foldl put inner).staged ↔
          x ∈ newer ∨ (x ∈ inner.staged ∧ x.key ∉ newer.map Entry.key) := by
  induction newer with
  | nil =>
    intro inner h _ _ _
    exact ⟨h, by simp⟩
  | cons e newer ih =>
    intro inner h hback hnd hdist
    obtain ⟨hne, hnd⟩ := List.nodup_cons.mp hnd
    have hd : ∀ s ∈ inner.staged, s.digest = e.digest → s.key = e.key := fun s hs =>
      hdist s (List.mem_append_left _ hs) e (List.mem_append_right _ List.mem_cons_self)
    have hright : inner.SlotRight e := by
      intro i s hi hs _
      obtain ⟨s', hs', hdig⟩ := hback _ _ hi
      rw [hs] at hs'
      rw [← Option.some.inj hs'] at hdig
      have := hd s (List.mem_of_getElem? hs) hdig
      exact congrArg Prod.fst this
    have hslots := put_slots inner e h hd
    have hmem := fun x => mem_put inner e x h hd hright
    have hback' : ∀ d i, (inner.put e).stagedAt d = some i →
        ∃ s, (inner.put e).staged[i]? = some s ∧ s.digest = d := by
      intro d i hi
      rcases inner.put_cases e with ⟨j, s, hat, hs, -, heq⟩ | ⟨-, heq⟩
      · rw [heq] at hi ⊢
        simp only at hi ⊢
        obtain ⟨s', hs', hdig⟩ := hback d i hi
        by_cases hij : j = i
        · subst hij
          obtain ⟨hlt, -⟩ := List.getElem?_eq_some_iff.mp hs
          refine ⟨e, by simp [hlt], ?_⟩
          obtain ⟨s'', hs'', hdig''⟩ := hback _ _ hat
          rw [hs'] at hs''
          rw [← hdig, Option.some.inj hs'', hdig'']
        · exact ⟨s', by rw [List.getElem?_set, if_neg hij, hs'], hdig⟩
      · rw [heq] at hi ⊢
        simp only at hi ⊢
        split at hi
        · rename_i hde
          refine ⟨e, ?_, hde.symm⟩
          rw [← Option.some.inj hi]
          simp
        · obtain ⟨s', hs', hdig⟩ := hback d i hi
          obtain ⟨hlt, -⟩ := List.getElem?_eq_some_iff.mp hs'
          exact ⟨s', by rw [List.getElem?_append_left hlt, hs'], hdig⟩
    have hdist' : Distinct ((inner.put e).staged ++ newer) := by
      refine hdist.subset fun x hx => ?_
      rcases List.mem_append.mp hx with hx | hx
      · rcases mem_of_mem_put inner e x hx with rfl | hx
        · exact List.mem_append_right _ List.mem_cons_self
        · exact List.mem_append_left _ hx
      · exact List.mem_append_right _ (List.mem_cons_of_mem _ hx)
    obtain ⟨r1, r2⟩ := ih (inner.put e) hslots hback' hnd hdist'
    refine ⟨r1, fun x => ?_⟩
    rw [List.foldl_cons, r2, hmem]
    simp only [List.map_cons, List.mem_cons, not_or]
    constructor
    · rintro (hx | ⟨rfl | ⟨hx, hk⟩, hn⟩)
      · exact Or.inl (Or.inr hx)
      · exact Or.inl (Or.inl rfl)
      · exact Or.inr ⟨hx, hk, hn⟩
    · rintro ((rfl | hx) | ⟨hx, hk, hn⟩)
      · exact Or.inr ⟨Or.inl rfl, hne⟩
      · exact Or.inl hx
      · exact Or.inr ⟨Or.inr ⟨hx, hk⟩, hn⟩

theorem slotsOf_back (es : List Entry) (h : (es.map Entry.digest).Nodup) (d : UInt64) (i : Nat)
    (hi : slotsOf es d = some i) : ∃ s, es[i]? = some s ∧ s.digest = d := by
  unfold slotsOf at hi
  rw [foldl_slots es d 0 _ h] at hi
  cases hf : es.findIdx? (fun e => decide (d = e.digest)) with
  | none => simp [hf] at hi
  | some j =>
    simp only [hf, Nat.zero_add, Option.some.injEq] at hi
    subst hi
    obtain ⟨hlt, hdig, -⟩ := List.findIdx?_eq_some_iff_getElem.mp hf
    exact ⟨_, List.getElem?_eq_getElem hlt, (of_decide_eq_true hdig).symm⟩

/-! ## `restore` -/

/-- The pending removals after a restore. -/
def restoredPrefixes (inner : Inner) (prefixes : PrefixSet) : PrefixSet :=
  inner.staged.foldl (fun h e => h.forget e.path.bytes)
    (prefixes.extend inner.hiddenPrefixes.paths)

/-- What a restore changes: stamps, pending removals and the buffer. -/
theorem restore_frame (inner : Inner) (p : Pending) :
    inner.restore p = { inner with
      dirtyAlive := inner.dirtyAlive ++
        (p.alive.map (·.1)).filter fun n => inner.segments.any (·.number = n)
      hiddenPrefixes := inner.restoredPrefixes p.prefixes
      staged := (inner.restore p).staged
      stagedAt := (inner.restore p).stagedAt } := by
  unfold restore restoredPrefixes
  simp only
  cases p.staged with
  | none => rfl
  | some s =>
    obtain ⟨n, g, rows⟩ := s
    simp only
    rw [foldl_put_frame]

theorem restore_staged_none (inner : Inner) (p : Pending) (h : p.staged = none) :
    (inner.restore p).staged = inner.staged ∧ (inner.restore p).stagedAt = inner.stagedAt := by
  unfold restore
  simp [h]

/-- The rows put back stay behind whatever arrived meanwhile. -/
theorem restore_slots (inner : Inner) (p : Pending) (n g : Nat) (rows : List Entry)
    (h : p.staged = some (n, g, rows)) (hrows : (rows.map Entry.digest).Nodup)
    (hslots : Slots inner.staged inner.stagedAt) (hd : Distinct (rows ++ inner.staged)) :
    Slots (inner.restore p).staged (inner.restore p).stagedAt ∧
      ∀ x, x ∈ (inner.restore p).staged ↔
        x ∈ inner.staged ∨ (x ∈ rows ∧ x.key ∉ inner.staged.map Entry.key) := by
  unfold restore
  simp only [h]
  exact foldl_put inner.staged _ (slotsOf_slots rows hrows) (slotsOf_back rows hrows)
    hslots.nodup_key hd

theorem mem_restore_subset (inner : Inner) (p : Pending) (x : Entry)
    (hx : x ∈ (inner.restore p).staged) :
    x ∈ inner.staged ∨ ∃ n g rows, p.staged = some (n, g, rows) ∧ x ∈ rows := by
  have key : ∀ (newer : List Entry) (i : Inner), x ∈ (newer.foldl put i).staged →
      x ∈ newer ∨ x ∈ i.staged := by
    intro newer
    induction newer with
    | nil => exact fun i h => Or.inr h
    | cons e newer ih =>
      intro i h
      rcases ih _ h with h | h
      · exact Or.inl (List.mem_cons_of_mem _ h)
      · rcases mem_of_mem_put i e x h with rfl | h
        · exact Or.inl List.mem_cons_self
        · exact Or.inr h
  unfold restore at hx
  simp only at hx
  cases hp : p.staged with
  | none =>
    rw [hp] at hx
    exact Or.inl hx
  | some s =>
    obtain ⟨n, g, rows⟩ := s
    rw [hp] at hx
    rcases key _ _ hx with h | h
    · exact Or.inl h
    · exact Or.inr ⟨n, g, rows, rfl, h⟩

end Inner

end Scour
