import Mathlib.Data.List.Induction
import Mathlib.Data.List.Nodup
import Mathlib.Data.List.Perm.Subperm
import Mathlib.Tactic.Tauto

/-!
# Classes by one representative

Items are sorted into classes one after the other, each held against the first member of every
class in turn: the first that is like it takes it in, an item unlike all of them opens a class, and
an item that could not be compared is left out.  `Classed` is what that comes to, whatever the
comparison.

`entries` sorts items by a key they come with, `Classed` by a comparison alone.  Where a comparison
tells whether two sure items have the same key (`Tells`), a class has all the items of its key
(`Classed.whole`).  Items with the same key are together exactly where the first of
them is not left out because of an opener it cannot be told from (`together_iff`).
-/

namespace Search

/-! ## By a key -/

section
variable {κ α : Type} [DecidableEq κ]

/-- One more item under its key: a map's `entry(key).or_default().push(item)`. -/
def entry (k : κ) (x : α) : List (κ × List α) → List (κ × List α)
  | [] => [(k, [x])]
  | (j, xs) :: rest => if j = k then (j, xs ++ [x]) :: rest else (j, xs) :: entry k x rest

/-- Items under their keys. -/
def entries (l : List (κ × α)) : List (κ × List α) := l.foldl (fun m x => entry x.1 x.2 m) []

theorem entry_keys (k : κ) (x : α) (m : List (κ × List α)) : (entry k x m).map (·.1) =
    if k ∈ m.map (·.1) then m.map (·.1) else m.map (·.1) ++ [k] := by
  induction m with
  | nil => rfl
  | cons head rest ih =>
    obtain ⟨j, xs⟩ := head
    unfold entry
    by_cases hj : j = k
    · simp [hj]
    · rw [if_neg hj, List.map_cons, ih]
      by_cases hk : k ∈ rest.map (·.1)
      · have hk' : k ∈ ((j, xs) :: rest).map (·.1) := List.mem_cons_of_mem _ hk
        rw [if_pos hk, if_pos hk', List.map_cons]
      · have hk' : k ∉ ((j, xs) :: rest).map (·.1) := by
          rw [List.map_cons, List.mem_cons, not_or]
          exact ⟨fun h => hj h.symm, hk⟩
        rw [if_neg hk, if_neg hk', List.map_cons]
        rfl

theorem entry_keys_nodup {k : κ} {x : α} {m : List (κ × List α)} (h : (m.map (·.1)).Nodup) :
    ((entry k x m).map (·.1)).Nodup := by
  rw [entry_keys]
  split
  · exact h
  · rename_i hk
    exact List.nodup_append.mpr ⟨h, List.nodup_singleton _, fun a ha b hb hab =>
      hk (List.mem_singleton.mp hb ▸ hab ▸ ha)⟩

/-- What a map has under a key. -/
def under (m : List (κ × List α)) (k : κ) : List α :=
  ((m.find? fun e => e.1 == k).map (·.2)).getD []

theorem under_entry (k j : κ) (x : α) (m : List (κ × List α)) :
    under (entry k x m) j = if k = j then under m j ++ [x] else under m j := by
  induction m with
  | nil => by_cases h : k = j <;> simp [entry, under, h]
  | cons head rest ih =>
    obtain ⟨i, xs⟩ := head
    unfold under at ih ⊢
    unfold entry
    by_cases hik : i = k
    · subst hik
      rw [if_pos rfl]
      by_cases hij : i = j
      · simp [hij]
      · simp [hij]
    · rw [if_neg hik]
      by_cases hij : i = j
      · subst hij
        rw [if_neg fun h => hik h.symm]
        simp
      · simp only [List.find?_cons, beq_eq_false_iff_ne.mpr hij] at ih ⊢
        exact ih

theorem under_of_mem {m : List (κ × List α)} (h : (m.map (·.1)).Nodup) {k : κ} {xs : List α}
    (hmem : (k, xs) ∈ m) : under m k = xs := by
  induction m with
  | nil => cases hmem
  | cons head rest ih =>
    obtain ⟨hnew, hrest⟩ := List.nodup_cons.mp h
    unfold under
    rcases List.mem_cons.mp hmem with rfl | hmem
    · simp
    · have hne : head.1 ≠ k := by
        intro heq
        rw [show (fun x : κ × List α => x.1) head = k from heq] at hnew
        exact hnew (List.mem_map_of_mem (f := (·.1)) hmem)
      rw [List.find?_cons, beq_eq_false_iff_ne.mpr hne]
      exact ih hrest hmem

theorem entries_append (l : List (κ × α)) (x : κ × α) :
    entries (l ++ [x]) = entry x.1 x.2 (entries l) := by
  unfold entries
  rw [List.foldl_append]
  rfl

theorem entries_nodup (l : List (κ × α)) : ((entries l).map (·.1)).Nodup := by
  induction l using List.reverseRecOn with
  | nil => exact List.nodup_nil
  | append_singleton l x ih =>
    rw [entries_append]
    exact entry_keys_nodup ih

theorem under_entries (l : List (κ × α)) (k : κ) :
    under (entries l) k = (l.filter fun x => x.1 = k).map (·.2) := by
  induction l using List.reverseRecOn with
  | nil => rfl
  | append_singleton l x ih =>
    rw [entries_append, under_entry, ih, List.filter_append, List.map_append]
    by_cases h : x.1 = k
    · simp [h]
    · simp [h]

theorem entries_keys (l : List (κ × α)) (k : κ) :
    k ∈ (entries l).map (·.1) ↔ ∃ x ∈ l, x.1 = k := by
  induction l using List.reverseRecOn with
  | nil => simp [entries]
  | append_singleton l x ih =>
    have hstep : k ∈ (entry x.1 x.2 (entries l)).map (·.1) ↔
        k ∈ (entries l).map (·.1) ∨ k = x.1 := by
      rw [entry_keys]
      split
      · rename_i h
        exact ⟨Or.inl, fun h' => h'.elim id fun h' => h' ▸ h⟩
      · simp
    rw [entries_append, hstep, ih]
    constructor
    · rintro (⟨y, hy, rfl⟩ | rfl)
      · exact ⟨y, by simp [hy], rfl⟩
      · exact ⟨x, by simp, rfl⟩
    · rintro ⟨y, hy, rfl⟩
      rcases List.mem_append.mp hy with hy | hy
      · exact Or.inl ⟨y, hy, rfl⟩
      · exact Or.inr (congrArg _ (List.mem_singleton.mp hy))

/-- All the entries together have what came. -/
theorem entries_perm (l : List (κ × α)) : ((entries l).flatMap (·.2)).Perm (l.map (·.2)) := by
  have hentry (k : κ) (x : α) (m : List (κ × List α)) :
      ((entry k x m).flatMap (·.2)).Perm (m.flatMap (·.2) ++ [x]) := by
    induction m with
    | nil => exact List.Perm.refl _
    | cons head rest ih =>
      unfold entry
      split
      · rw [List.flatMap_cons, List.flatMap_cons, List.append_assoc, List.append_assoc]
        exact List.Perm.append_left _ List.perm_append_comm
      · rw [List.flatMap_cons, List.flatMap_cons, List.append_assoc]
        exact List.Perm.append_left _ ih
  induction l using List.reverseRecOn with
  | nil => exact List.Perm.refl _
  | append_singleton l x ih =>
    rw [entries_append, List.map_append]
    exact (hentry _ _ _).trans (ih.append_right _)

/-- An entry has what came with its key, in the order it came. -/
theorem mem_entries (l : List (κ × α)) (k : κ) (xs : List α) :
    (k, xs) ∈ entries l ↔ xs = (l.filter fun x => x.1 = k).map (·.2) ∧ ∃ x ∈ l, x.1 = k := by
  constructor
  · intro h
    refine ⟨?_, (entries_keys l k).mp (List.mem_map_of_mem (f := (·.1)) h)⟩
    rw [← under_entries, under_of_mem (entries_nodup l) h]
  · rintro ⟨rfl, hkey⟩
    obtain ⟨⟨j, ys⟩, hmem, rfl⟩ := List.mem_map.mp ((entries_keys l k).mpr hkey)
    rw [← under_entries, under_of_mem (entries_nodup l) hmem]
    exact hmem

end

/-! ## By a comparison -/

/-- Items that are alike, as far as they were held against the first. -/
structure Class (α : Type) where
  first : α
  others : List α

variable {α : Type}

namespace Class

def members (c : Class α) : List α := c.first :: c.others

def push (c : Class α) (p : α) : Class α := ⟨c.first, c.others ++ [p]⟩

theorem mem_members_push {c : Class α} {p x : α} :
    x ∈ (c.push p).members ↔ x = p ∨ x ∈ c.members := by
  unfold push members
  simp only [List.mem_cons, List.mem_append, List.not_mem_nil, or_false]
  tauto

end Class

/-- Items in the order they came, and the classes they are in. -/
inductive Classed (cmp : α → α → Option Bool) : List α → List (Class α) → Prop
  | nil : Classed cmp [] []
  /-- Unlike all: a class of its own. -/
  | fresh {done cs p} : Classed cmp done cs → (∀ c ∈ cs, cmp c.first p = some false) →
      Classed cmp (done ++ [p]) (cs ++ [⟨p, []⟩])
  | joined {done before c after p} : Classed cmp done (before ++ c :: after) →
      (∀ d ∈ before, cmp d.first p = some false) → cmp c.first p = some true →
      Classed cmp (done ++ [p]) (before ++ c.push p :: after)
  /-- Not comparable: left out. -/
  | dropped {done before c after p} : Classed cmp done (before ++ c :: after) →
      (∀ d ∈ before, cmp d.first p = some false) → cmp c.first p = none →
      Classed cmp (done ++ [p]) (before ++ c :: after)

/-- The items that open a class: each is unlike all that did before it. -/
def openers (cmp : α → α → Option Bool) (l : List α) : List α :=
  l.foldl (fun firsts p =>
    if firsts.all fun r => cmp r p == some false then firsts ++ [p] else firsts) []

section
variable {cmp : α → α → Option Bool}

theorem openers_append (l : List α) (p : α) : openers cmp (l ++ [p]) =
    if (openers cmp l).all fun r => cmp r p == some false then openers cmp l ++ [p]
    else openers cmp l := by
  unfold openers
  rw [List.foldl_append]
  rfl

theorem openers_sublist (l : List α) : (openers cmp l).Sublist l := by
  induction l using List.reverseRecOn with
  | nil => exact List.Sublist.refl _
  | append_singleton l p ih =>
    rw [openers_append]
    split
    · exact ih.append (List.Sublist.refl _)
    · exact ih.trans (List.sublist_append_left _ _)

theorem openers_apart (l : List α) :
    (openers cmp l).Pairwise fun a b => cmp a b = some false := by
  induction l using List.reverseRecOn with
  | nil => exact List.Pairwise.nil
  | append_singleton l p ih =>
    rw [openers_append]
    split
    · rename_i hall
      refine List.pairwise_append.mpr ⟨ih, List.pairwise_singleton _ _, ?_⟩
      intro a ha b hb
      rw [List.mem_singleton.mp hb]
      exact beq_iff_eq.mp (List.all_eq_true.mp hall a ha)
    · exact ih

theorem openers_prefix (l rest : List α) : openers cmp l <+: openers cmp (l ++ rest) := by
  induction rest using List.reverseRecOn with
  | nil =>
    have h : openers cmp (l ++ []) = openers cmp l := congrArg _ (List.append_nil l)
    exact h ▸ List.prefix_rfl
  | append_singleton rest p ih =>
    rw [← List.append_assoc, openers_append]
    split
    · exact ih.trans (List.prefix_append _ _)
    · exact ih

variable {done : List α} {cs : List (Class α)}

theorem Classed.firsts (h : Classed cmp done cs) : cs.map Class.first = openers cmp done := by
  induction h with
  | nil => rfl
  | @fresh done cs p _ hall ih =>
    have hopen : (openers cmp done).all (fun r => cmp r p == some false) = true := by
      rw [← ih, List.all_map, List.all_eq_true]
      exact fun c hc => beq_iff_eq.mpr (hall c hc)
    rw [openers_append, if_pos hopen, List.map_append, ih]
    rfl
  | @joined done before c after p _ _ hsame ih =>
    have hclosed : ¬ (openers cmp done).all (fun r => cmp r p == some false) = true := by
      rw [← ih, List.all_map, List.all_eq_true]
      intro hall
      have := beq_iff_eq.mp (hall c (by simp))
      rw [hsame] at this
      cases this
    rw [openers_append, if_neg hclosed, ← ih, List.map_append, List.map_append]
    rfl
  | @dropped done before c after p _ _ hnone ih =>
    have hclosed : ¬ (openers cmp done).all (fun r => cmp r p == some false) = true := by
      rw [← ih, List.all_map, List.all_eq_true]
      intro hall
      have := beq_iff_eq.mp (hall c (by simp))
      rw [hnone] at this
      cases this
    rw [openers_append, if_neg hclosed, ← ih]

/-- The members are items that came, each once. -/
theorem Classed.members (h : Classed cmp done cs) :
    (cs.flatMap Class.members).Subperm done := by
  induction h with
  | nil => exact List.Subperm.refl _
  | fresh _ _ ih =>
    rw [List.flatMap_append]
    exact ih.append (List.Subperm.refl _)
  | @joined done before c after p _ _ _ ih =>
    have hperm : ((before ++ c.push p :: after).flatMap Class.members).Perm
        ((before ++ c :: after).flatMap Class.members ++ [p]) := by
      simp only [List.flatMap_append, List.flatMap_cons, Class.push, Class.members,
        List.append_assoc, List.cons_append, List.nil_append]
      refine List.Perm.append_left _ (List.Perm.cons _ (List.Perm.append_left _ ?_))
      exact (List.perm_append_singleton p _).symm
    exact hperm.subperm.trans (ih.append (List.Subperm.refl _))
  | dropped _ _ _ ih => exact ih.trans (List.sublist_append_left _ _).subperm

/-- What holds of any two items that came holds of any two members. -/
theorem Classed.pairwise (h : Classed cmp done cs) {R : α → α → Prop} [Std.Symm R]
    (hdone : done.Pairwise R) : (cs.flatMap Class.members).Pairwise R := by
  obtain ⟨l, hperm, hsub⟩ := h.members
  exact hperm.pairwise (hdone.sublist hsub) fun hxy => Std.Symm.symm _ _ hxy

theorem Classed.members_pairwise (h : Classed cmp done cs) {R : α → α → Prop} [Std.Symm R]
    (hdone : done.Pairwise R) {c : Class α} (hc : c ∈ cs) : c.members.Pairwise R :=
  (List.pairwise_flatMap.mp (h.pairwise hdone)).1 c hc

theorem Classed.mem_of_mem (h : Classed cmp done cs) {c : Class α} (hc : c ∈ cs) {x : α}
    (hx : x ∈ c.members) : x ∈ done :=
  h.members.subset (List.mem_flatMap.mpr ⟨c, hc, hx⟩)

theorem Classed.alike (h : Classed cmp done cs) :
    ∀ c ∈ cs, ∀ q ∈ c.others, cmp c.first q = some true := by
  induction h with
  | nil => exact nofun
  | fresh _ _ ih =>
    intro c hc
    rcases List.mem_append.mp hc with hc | hc
    · exact ih c hc
    · rw [List.mem_singleton.mp hc]
      exact nofun
  | @joined done before c after p _ _ hsame ih =>
    intro d hd q hq
    rcases List.mem_append.mp hd with hd | hd
    · exact ih d (List.mem_append_left _ hd) q hq
    rcases List.mem_cons.mp hd with rfl | hd
    · rcases List.mem_append.mp hq with hq | hq
      · exact ih c (by simp) q hq
      · rw [List.mem_singleton.mp hq]
        exact hsame
    · exact ih d (by simp [hd]) q hq
  | dropped _ _ _ ih => exact ih

/-- An item that came is in a class, or was left out for an opener. -/
theorem Classed.placed (h : Classed cmp done cs) : ∀ q ∈ done,
    (∃ c ∈ cs, q ∈ c.members) ∨ ∃ c ∈ cs, cmp c.first q = none := by
  induction h with
  | nil => exact nofun
  | @fresh done cs p _ _ ih =>
    intro q hq
    rcases List.mem_append.mp hq with hq | hq
    · rcases ih q hq with ⟨c, hc, hq⟩ | ⟨c, hc, hq⟩
      · exact Or.inl ⟨c, List.mem_append_left _ hc, hq⟩
      · exact Or.inr ⟨c, List.mem_append_left _ hc, hq⟩
    · exact Or.inl ⟨⟨p, []⟩, by simp, hq⟩
  | @joined done before c after p _ _ _ ih =>
    intro q hq
    rcases List.mem_append.mp hq with hq | hq
    · have hstay : ∀ d ∈ before ++ c :: after, ∃ d' ∈ before ++ c.push p :: after,
          d'.first = d.first ∧ d.members ⊆ d'.members := by
        intro d hd
        rcases List.mem_append.mp hd with hd | hd
        · exact ⟨d, by simp [hd], rfl, List.Subset.refl _⟩
        rcases List.mem_cons.mp hd with rfl | hd
        · exact ⟨d.push p, by simp, rfl, fun x hx => Class.mem_members_push.mpr (Or.inr hx)⟩
        · exact ⟨d, by simp [hd], rfl, List.Subset.refl _⟩
      rcases ih q hq with ⟨d, hd, hq⟩ | ⟨d, hd, hq⟩
      · obtain ⟨d', hd', -, hsub⟩ := hstay d hd
        exact Or.inl ⟨d', hd', hsub hq⟩
      · obtain ⟨d', hd', hfirst, -⟩ := hstay d hd
        exact Or.inr ⟨d', hd', hfirst ▸ hq⟩
    · rw [List.mem_singleton.mp hq]
      exact Or.inl ⟨c.push p, by simp, Class.mem_members_push.mpr (Or.inl rfl)⟩
  | @dropped done before c after p _ _ hnone ih =>
    intro q hq
    rcases List.mem_append.mp hq with hq | hq
    · exact ih q hq
    · rw [List.mem_singleton.mp hq]
      exact Or.inr ⟨c, by simp, hnone⟩

end

/-! ## A comparison that tells keys -/

/-- What a comparison tells of different items: of two sure ones whether their keys are the same,
and of a sure one nothing but its key. -/
structure Tells {κ : Type} (cmp : α → α → Option Bool) (Sure : α → Prop) (key : α → κ) : Prop where
  same : ∀ {x y}, x ≠ y → (cmp x y = some true ↔ Sure x ∧ Sure y ∧ key x = key y)
  sure : ∀ {x y}, x ≠ y → Sure x → Sure y → cmp x y ≠ none
  congr : ∀ {x y z}, x ≠ y → x ≠ z → Sure y → Sure z → key y = key z → cmp x y = cmp x z

/-- No item that is the first sure one of its key, with another behind it, is left out for an
opener. -/
def Clear {κ : Type} (cmp : α → α → Option Bool) (Sure : α → Prop) (key : α → κ) (l : List α) :
    Prop :=
  ∀ done p rest, l = done ++ p :: rest → Sure p → (∀ q ∈ done, Sure q → key q ≠ key p) →
    (∃ q ∈ rest, Sure q ∧ key q = key p) → ∀ r ∈ openers cmp done, cmp r p ≠ none

section
variable {κ : Type} {cmp : α → α → Option Bool} {Sure : α → Prop} {key : α → κ}
  {done : List α} {cs : List (Class α)}

theorem Classed.first_mem (h : Classed cmp done cs) {c : Class α} (hc : c ∈ cs) : c.first ∈ done :=
  (openers_sublist done).subset (h.firsts ▸ List.mem_map_of_mem hc)

/-- Two classes, one behind the other, have openers that differ. -/
theorem Classed.first_apart {before after : List (Class α)} {c d : Class α}
    (h : Classed cmp done (before ++ c :: after)) (hnodup : done.Nodup) (hd : d ∈ after) :
    c.first ≠ d.first ∧ cmp c.first d.first = some false := by
  have hfirsts := h.firsts
  have hapart : (openers cmp done).Pairwise _ := openers_apart done
  have hne : (openers cmp done).Nodup := hnodup.sublist (openers_sublist done)
  rw [← hfirsts, List.map_append, List.map_cons] at hapart hne
  have hmem : d.first ∈ after.map Class.first := List.mem_map_of_mem hd
  have hne := (List.nodup_cons.mp (List.nodup_append.mp hne).2.1).1
  exact ⟨fun heq => hne (heq ▸ hmem),
    (List.pairwise_cons.mp (List.pairwise_append.mp hapart).2.1).1 _ hmem⟩

theorem Classed.sure_of_mem (ht : Tells cmp Sure key) (h : Classed cmp done cs) {c : Class α}
    (hc : c ∈ cs) {q : α} (hq : q ∈ c.members) (hsure : Sure q) :
    Sure c.first ∧ key c.first = key q := by
  by_cases heq : c.first = q
  · exact ⟨heq ▸ hsure, congrArg key heq⟩
  · have hother : q ∈ c.others := (List.mem_cons.mp hq).resolve_left fun h => heq h.symm
    obtain ⟨hfirst, -, hkey⟩ := (ht.same heq).mp (h.alike c hc q hother)
    exact ⟨hfirst, hkey⟩

/-- In a class of several, all are sure and have the key of the first. -/
theorem Classed.sure_of_several (ht : Tells cmp Sure key) (h : Classed cmp done cs)
    (hnodup : done.Nodup) {c : Class α} (hc : c ∈ cs) (hlen : 1 < c.members.length) {x : α}
    (hx : x ∈ c.members) : Sure x ∧ key c.first = key x := by
  have hmembers : c.members.Nodup := h.members_pairwise hnodup hc
  have hfirst {y : α} (hy : y ∈ c.others) : c.first ≠ y :=
    fun heq => (List.nodup_cons.mp hmembers).1 (heq ▸ hy)
  have htold {y : α} (hy : y ∈ c.others) : Sure c.first ∧ Sure y ∧ key c.first = key y :=
    (ht.same (hfirst hy)).mp (h.alike c hc y hy)
  obtain ⟨y, hy⟩ := List.exists_mem_of_length_pos (Nat.lt_of_succ_lt_succ hlen)
  rcases List.mem_cons.mp hx with rfl | hx
  · exact ⟨(htold hy).1, rfl⟩
  · exact (htold hx).2

/-- Where all are sure, none is left out. -/
theorem clear_of_sure {l : List α} (ht : Tells cmp Sure key) (hnodup : l.Nodup)
    (hsure : ∀ p ∈ l, Sure p) : Clear cmp Sure key l := by
  intro done p rest heq hp _ _ r hr
  have hdone : r ∈ done := (openers_sublist done).subset hr
  have hne : r ≠ p := by
    rintro rfl
    rw [heq] at hnodup
    exact (List.nodup_append.mp hnodup).2.2 r hdone r List.mem_cons_self rfl
  exact ht.sure hne (hsure r (by simp [heq, hdone])) hp

theorem clear_of_length_le_one {l : List α} (hlen : l.length ≤ 1) : Clear cmp Sure key l := by
  intro done p rest heq _ _ ⟨q, hq, _⟩
  have hpos := List.length_pos_of_mem hq
  rw [heq, List.length_append, List.length_cons] at hlen
  omega

/-- A class with a sure opener has all sure items of its key. -/
theorem Classed.whole (ht : Tells cmp Sure key) (h : Classed cmp done cs) (hnodup : done.Nodup) :
    ∀ c ∈ cs, Sure c.first → ∀ q ∈ done, Sure q → key q = key c.first → q ∈ c.members := by
  induction h with
  | nil => exact nofun
  | @fresh done cs p h hall ih =>
    obtain ⟨hdone, -, hnew⟩ := List.nodup_append.mp hnodup
    have hne : ∀ x ∈ done, x ≠ p := fun x hx => hnew x hx p List.mem_cons_self
    have ih := ih hdone
    intro c hc hsure q hq hq' hkey
    rcases List.mem_append.mp hc with hc | hc
    · rcases List.mem_append.mp hq with hq | hq
      · exact ih c hc hsure q hq hq' hkey
      · rw [List.mem_singleton.mp hq] at hq' hkey
        have := (ht.same (hne _ (h.first_mem hc))).mpr ⟨hsure, hq', hkey.symm⟩
        rw [hall c hc] at this
        cases this
    · rw [List.mem_singleton.mp hc] at hsure hkey ⊢
      rcases List.mem_append.mp hq with hq | hq
      · -- one like it that came before has opened a class, or has met an opener that stops both
        exfalso
        rcases h.placed q hq with ⟨d, hd, hmem⟩ | ⟨d, hd, hnone⟩
        · obtain ⟨hfirst, hkd⟩ := h.sure_of_mem ht hd hmem hq'
          have := (ht.same (hne _ (h.first_mem hd))).mpr ⟨hfirst, hsure, hkd.trans hkey⟩
          rw [hall d hd] at this
          cases this
        · have hdp := hne _ (h.first_mem hd)
          by_cases hdq : d.first = q
          · have := (ht.same hdp).mpr ⟨hdq ▸ hq', hsure, (congrArg key hdq).trans hkey⟩
            rw [hall d hd] at this
            cases this
          · have := ht.congr hdq hdp hq' hsure hkey
            rw [hnone, hall d hd] at this
            cases this
      · exact hq
  | @joined done before c after p h hbefore hsame ih =>
    obtain ⟨hdone, -, hnew⟩ := List.nodup_append.mp hnodup
    have hne : ∀ d ∈ before ++ c :: after, d.first ≠ p := fun d hd =>
      hnew _ (h.first_mem hd) p List.mem_cons_self
    have ih := ih hdone
    obtain ⟨hfirst, hp, hkc⟩ := (ht.same (hne c (by simp))).mp hsame
    intro d hd hsure q hq hq' hkey
    rcases List.mem_append.mp hq with hq | hq
    · rcases List.mem_append.mp hd with hd | hd
      · exact ih d (by simp [hd]) hsure q hq hq' hkey
      rcases List.mem_cons.mp hd with rfl | hd
      · exact Class.mem_members_push.mpr (Or.inr (ih c (by simp) hfirst q hq hq' hkey))
      · exact ih d (by simp [hd]) hsure q hq hq' hkey
    · rw [List.mem_singleton.mp hq] at hkey ⊢
      rcases List.mem_append.mp hd with hd | hd
      · have := (ht.same (hne d (by simp [hd]))).mpr ⟨hsure, hp, hkey.symm⟩
        rw [hbefore d hd] at this
        cases this
      rcases List.mem_cons.mp hd with rfl | hd
      · exact Class.mem_members_push.mpr (Or.inl rfl)
      · obtain ⟨hcd, hfalse⟩ := h.first_apart hdone hd
        have := (ht.same hcd).mpr ⟨hfirst, hsure, hkc.trans hkey⟩
        rw [hfalse] at this
        cases this
  | @dropped done before c after p h hbefore hnone ih =>
    obtain ⟨hdone, -, hnew⟩ := List.nodup_append.mp hnodup
    have hne : ∀ d ∈ before ++ c :: after, d.first ≠ p := fun d hd =>
      hnew _ (h.first_mem hd) p List.mem_cons_self
    intro d hd hsure q hq hq' hkey
    rcases List.mem_append.mp hq with hq | hq
    · exact ih hdone d hd hsure q hq hq' hkey
    · exfalso
      rw [List.mem_singleton.mp hq] at hq' hkey
      rcases List.mem_append.mp hd with hd | hd
      · have := (ht.same (hne d (by simp [hd]))).mpr ⟨hsure, hq', hkey.symm⟩
        rw [hbefore d hd] at this
        cases this
      rcases List.mem_cons.mp hd with rfl | hd
      · exact ht.sure (hne d (by simp)) hsure hq' hnone
      · obtain ⟨hcd, hfalse⟩ := h.first_apart hdone hd
        have := ht.congr (hne c (by simp)) hcd hq' hsure hkey
        rw [hnone, hfalse] at this
        cases this

/-- What an opener leaves out stays out. -/
theorem Classed.out (h : Classed cmp done cs) (hnodup : done.Nodup) {p : α} {before : List α}
    (hnone : ∃ r ∈ openers cmp before, cmp r p = none)
    (hunlike : ∀ r ∈ openers cmp before, cmp r p ≠ some true) :
    ∀ rest, done = before ++ p :: rest → ∀ c ∈ cs, p ∉ c.members := by
  induction h with
  | nil => exact fun rest heq => absurd heq (by simp)
  | @fresh done cs x h hall ih =>
    obtain ⟨hdone, -, hnew⟩ := List.nodup_append.mp hnodup
    intro rest heq c hc hp
    rcases List.eq_nil_or_concat rest with rfl | ⟨rest, y, rfl⟩
    · obtain ⟨rfl, hx⟩ := List.append_inj' heq rfl
      obtain rfl := List.singleton_inj.mp hx
      obtain ⟨r, hr, hnone⟩ := hnone
      rw [← h.firsts] at hr
      obtain ⟨d, hd, rfl⟩ := List.mem_map.mp hr
      rw [hall d hd] at hnone
      cases hnone
    · rw [List.concat_eq_append, ← List.cons_append, ← List.append_assoc] at heq
      obtain ⟨rfl, -⟩ := List.append_inj' heq rfl
      rcases List.mem_append.mp hc with hc | hc
      · exact ih hdone rest rfl c hc hp
      · rw [List.mem_singleton.mp hc] at hp
        exact hnew p (by simp) x List.mem_cons_self (List.mem_singleton.mp hp)
  | @joined done pre c post x h hpre hsame ih =>
    obtain ⟨hdone, -, hnew⟩ := List.nodup_append.mp hnodup
    intro rest heq d hd hp
    rcases List.eq_nil_or_concat rest with rfl | ⟨rest, y, rfl⟩
    · obtain ⟨rfl, hx⟩ := List.append_inj' heq rfl
      obtain rfl := List.singleton_inj.mp hx
      refine hunlike c.first ?_ hsame
      rw [← h.firsts]
      simp
    · rw [List.concat_eq_append, ← List.cons_append, ← List.append_assoc] at heq
      obtain ⟨rfl, -⟩ := List.append_inj' heq rfl
      have ih := ih hdone rest rfl
      rcases List.mem_append.mp hd with hd | hd
      · exact ih d (by simp [hd]) hp
      rcases List.mem_cons.mp hd with rfl | hd
      · rcases Class.mem_members_push.mp hp with hp | hp
        · exact hnew p (by simp) x List.mem_cons_self hp
        · exact ih c (by simp) hp
      · exact ih d (by simp [hd]) hp
  | @dropped done pre c post x h hpre hdrop ih =>
    obtain ⟨hdone, -, hnew⟩ := List.nodup_append.mp hnodup
    intro rest heq d hd hp
    rcases List.eq_nil_or_concat rest with rfl | ⟨rest, y, rfl⟩
    · obtain ⟨rfl, hx⟩ := List.append_inj' heq rfl
      rw [← List.singleton_inj.mp hx] at hp
      have hmem : x ∈ done := h.members.subset (List.mem_flatMap.mpr ⟨d, hd, hp⟩)
      exact hnew x hmem x List.mem_cons_self rfl
    · rw [List.concat_eq_append, ← List.cons_append, ← List.append_assoc] at heq
      obtain ⟨rfl, -⟩ := List.append_inj' heq rfl
      exact ih hdone rest rfl d hd hp

/-- Items of one key are together exactly where none of them is left out. -/
theorem together_iff {l : List α} (ht : Tells cmp Sure key) (h : Classed cmp l cs)
    (hnodup : l.Nodup) :
    (∀ p ∈ l, ∀ q ∈ l, p ≠ q → Sure p → Sure q → key p = key q →
      ∃ c ∈ cs, p ∈ c.members ∧ q ∈ c.members) ↔ Clear cmp Sure key l := by
  constructor
  · intro htogether done p rest heq hp hfirst ⟨q, hq, hq', hkey⟩ r hr hnone
    have hne : p ≠ q := by
      rintro rfl
      rw [heq] at hnodup
      exact (List.nodup_cons.mp (List.nodup_append.mp hnodup).2.1).1 hq
    obtain ⟨c, hc, hpc, -⟩ := htogether p (by simp [heq]) q (by simp [heq, hq]) hne hp hq' hkey.symm
    refine h.out hnodup ⟨r, hr, hnone⟩ (fun r' hr' hsame => ?_) rest heq c hc hpc
    have hmem := (openers_sublist done).subset hr'
    have hne' : r' ≠ p := by
      rintro rfl
      exact hfirst r' hmem hp rfl
    obtain ⟨hsure, -, hkey'⟩ := (ht.same hne').mp hsame
    exact hfirst r' hmem hsure hkey'
  · intro hclear p hp q hq hne hsp hsq hkey
    classical
    -- the first of their key
    have hsome : (l.find? fun x => decide (Sure x ∧ key x = key p)).isSome = true := by
      rw [List.find?_isSome]
      exact ⟨p, hp, by simp [hsp]⟩
    obtain ⟨f, hfind⟩ := Option.isSome_iff_exists.mp hsome
    obtain ⟨hf, done, rest, heq, hbefore⟩ := List.find?_eq_some_iff_append.mp hfind
    obtain ⟨hsf, hkf⟩ := of_decide_eq_true hf
    have hfirst : ∀ x ∈ done, Sure x → key x ≠ key f := by
      intro x hx hsx hkx
      have := hbefore x hx
      simp [hsx, hkx, hkf] at this
    have hbehind : ∀ x ∈ l, Sure x → key x = key f → x = f ∨ x ∈ rest := by
      intro x hx hsx hkx
      rw [heq] at hx
      rcases List.mem_append.mp hx with hx | hx
      · exact absurd hkx (hfirst x hx hsx)
      · exact List.mem_cons.mp hx
    have htwin : ∃ x ∈ rest, Sure x ∧ key x = key f := by
      by_cases hpf : p = f
      · have hqf : q ≠ f := fun h => hne (hpf.trans h.symm)
        exact ⟨q, (hbehind q hq hsq (by rw [hkf, hkey])).resolve_left hqf, hsq, by rw [hkf, hkey]⟩
      · exact ⟨p, (hbehind p hp hsp hkf.symm).resolve_left hpf, hsp, hkf.symm⟩
    have hnone := hclear done f rest heq hsf hfirst htwin
    have hopens : (openers cmp done).all (fun r => cmp r f == some false) = true := by
      rw [List.all_eq_true]
      intro r hr
      have hmem := (openers_sublist done).subset hr
      have hrf : r ≠ f := by
        rintro rfl
        exact hfirst r hmem hsf rfl
      cases hcmp : cmp r f with
      | none => exact absurd hcmp (hnone r hr)
      | some b =>
        cases b with
        | false => rfl
        | true =>
          obtain ⟨hsure, -, hk⟩ := (ht.same hrf).mp hcmp
          exact absurd hk (hfirst r hmem hsure)
    have hopen : f ∈ openers cmp l := by
      have hpre : openers cmp _ <+: openers cmp _ := openers_prefix (done ++ [f]) rest
      rw [openers_append, if_pos hopens, List.append_assoc, List.singleton_append, ← heq] at hpre
      exact hpre.subset (by simp)
    rw [← h.firsts] at hopen
    obtain ⟨c, hc, rfl⟩ := List.mem_map.mp hopen
    exact ⟨c, hc, h.whole ht hnodup c hc hsf p hp hsp hkf.symm,
      h.whole ht hnodup c hc hsf q hq hsq (by rw [hkf, hkey])⟩

end

/-! ## Lists side by side -/

section
variable {β : Type} {R : α → β → Prop} {l : List α} {l' : List β}

theorem forall₂_mem_left (h : List.Forall₂ R l l') {a : α} (ha : a ∈ l) : ∃ b ∈ l', R a b := by
  induction h with
  | nil => cases ha
  | cons hab _ ih =>
    rcases List.mem_cons.mp ha with rfl | ha
    · exact ⟨_, List.mem_cons_self, hab⟩
    · obtain ⟨b, hb, hab⟩ := ih ha
      exact ⟨b, List.mem_cons_of_mem _ hb, hab⟩

theorem forall₂_mem_right (h : List.Forall₂ R l l') {b : β} (hb : b ∈ l') : ∃ a ∈ l, R a b :=
  forall₂_mem_left (R := fun b a => R a b) h.flip hb

theorem forall₂_pairwise {S : α → α → Prop} {T : β → β → Prop} (h : List.Forall₂ R l l')
    (hl : l.Pairwise S) (hst : ∀ a b a' b', R a a' → R b b' → S a b → T a' b') :
    l'.Pairwise T := by
  induction h with
  | nil => exact List.Pairwise.nil
  | cons hab _ ih =>
    obtain ⟨hhead, htail⟩ := List.pairwise_cons.mp hl
    refine List.pairwise_cons.mpr ⟨fun b' hb' => ?_, ih htail⟩
    obtain ⟨b, hb, hr⟩ := forall₂_mem_right ‹_› hb'
    exact hst _ _ _ _ hab hr (hhead b hb)

end

end Search
